import Mathlib.Algebra.BigOperators.Group.Finset.Basic
import Plan9Port.Srv.Steps

/-!
# Flushes are answered in order

Every step keeps the invariants, so in every state that the server can reach a request is answered
at most once, and a flush is answered after the requests that it names. The flushes that wait for a
request are answered when it is: its call answers them before it returns, some call can always go
on, and without new requests all calls return after a bounded number of steps.
-/

namespace Plan9Port.Srv

open Function List

variable {π : Type} [DecidableEq π] {reader : π} {handler : Bool} {s s' : Sys π} {r : Nat}
  {q : Req π}

/-! ## Every step keeps the invariants -/

theorem Inv.sflush (h : Inv reader s) (hr : r < s.nreq) (hpc : (s.req r).pc = .sflush) {t : Nat}
    (hkind : (s.req r).kind = .flush t) (handler : Bool) :
    Inv reader (s.sflush reader handler r t) := by
  rw [Sys.sflush]
  dsimp only
  split
  · exact h.sflush_enter hr hpc hkind
  next hor =>
  cases hold : s.rpool.lookupkey t with
  | none => exact absurd (.inl hold) hor
  | some or =>
    rw [← hold]
    exact h.sflush_handler hr hpc hkind hold

variable {or : Nat}

theorem Inv.rflush (h : Inv reader s) (hr : r < s.nreq) (hpc : (s.req r).pc = .rflush or) :
    Inv reader (s.rflush r or) := by
  rw [Sys.rflush]
  cases hres : (s.req or).responded with
  | false => exact h.rflush_delayed hr hpc hres
  | true => exact h.rflush_wlock hr hpc hres

/-- The steps of a call, with what has to hold before them. -/
inductive Go (reader : π) (handler : Bool) (s : Sys π) (r : Nat) : Sys π → Prop
  | sflush {t : Nat} (hpc : (s.req r).pc = .sflush) (hkind : (s.req r).kind = .flush t) :
      Go reader handler s r (s.sflush reader handler r t)
  | enter (hpc : (s.req r).pc = .enter)
      (herror : ¬((s.req r).kind ≠ .other ∧ (s.req r).error = true))
      (hold : (s.req r).oldreq = none) : Go reader handler s r (s.goto r .wlock)
  | wait {or : Nat} (hpc : (s.req r).pc = .enter) (hold : (s.req r).oldreq = some or) :
      Go reader handler s r (s.goto r (.rflush or))
  | rflush {or : Nat} (hpc : (s.req r).pc = .rflush or) :
      Go reader handler s r (s.rflush r or)
  | wlock (hpc : (s.req r).pc = .wlock) (hwlock : s.wlock = none) :
      Go reader handler s r { s.goto r .remove with wlock := some r }
  | remove (hpc : (s.req r).pc = .remove) :
      Go reader handler s r
        { s.goto r .mark with
          rpool := if (s.req r).pool then s.rpool.deletekey (s.req r).tag else s.rpool }
  | mark (hpc : (s.req r).pc = .mark) :
      Go reader handler s r
        { s with req := update s.req r { s.req r with responded := true, pc := .write } }
  | write (hpc : (s.req r).pc = .write) :
      Go reader handler s r { s.goto r .free with log := s.log ++ [.write r], wlock := none }
  | free (hpc : (s.req r).pc = .free) :
      Go reader handler s r { s.goto r (.flush 0) with lk := update s.lk r true }
  | flush {i f : Nat} (hpc : (s.req r).pc = .flush i) (hf : (s.req r).flush[i]? = some f) :
      Go reader handler s r
        { s.goto r (.calling i) with
          req := update (s.goto r (.calling i)).req f
            { (s.goto r (.calling i)).req f with
              oldreq := none, error := false, caller := .req r, pc := .enter } }
  | done {i : Nat} (hpc : (s.req r).pc = .flush i) (hlen : (s.req r).flush[i]? = none) :
      Go reader handler s r
        (Sys.return_
          { s with
            req := update s.req r { s.req r with flush := [], pc := .done }
            lk := update s.lk r false } r)

theorem Inv.go_cases (h : Inv reader s) (hr : r < s.nreq)
    (hgo : s.go reader handler r = some (.ok s')) : Go reader handler s r s' := by
  rw [Sys.go] at hgo
  split at hgo
  · next hpc =>
    split at hgo
    · next t hk =>
      cases hgo
      exact .sflush hpc hk
    · cases hgo
  · next hpc =>
    -- `respond` is called only once
    have hres : (s.req r).responded = false := (h.locals hr).responded.trans (by rw [hpc]; rfl)
    rw [hres, if_neg Bool.false_ne_true] at hgo
    split at hgo
    · cases hgo
    next herror =>
    split at hgo
    · next hold =>
      cases hgo
      exact .enter hpc herror hold
    · next or hold =>
      cases hgo
      exact .wait hpc hold
  · next or hpc =>
    split at hgo
    · cases hgo
    · cases hgo
      exact .rflush hpc
  · next hpc =>
    split at hgo
    · cases hgo
    · next hw =>
      cases hgo
      exact .wlock hpc (by simpa using hw)
  · next hpc =>
    cases hgo
    exact .remove hpc
  · next hpc =>
    split at hgo
    · cases hgo
    · cases hgo
      exact .mark hpc
  · next hpc =>
    cases hgo
    exact .write hpc
  · next hpc =>
    split at hgo
    · cases hgo
    · cases hgo
      exact .free hpc
  · next i hpc =>
    split at hgo
    · next f hf =>
      cases hgo
      exact .flush hpc hf
    · next hlen =>
      cases hgo
      exact .done hpc hlen
  · cases hgo

theorem Inv.go (h : Inv reader s) (hr : r < s.nreq) (hgo : Go reader handler s r s') :
    Inv reader s' := by
  cases hgo with
  | sflush hpc hkind => exact h.sflush hr hpc hkind handler
  | enter hpc herror hold => exact h.enter_wlock hr hpc herror hold
  | wait hpc hold => exact h.enter_rflush hr hpc hold
  | rflush hpc => exact h.rflush hr hpc
  | wlock hpc hwlock => exact h.wlock_remove hr hpc hwlock
  | remove hpc => exact h.remove_mark hr hpc
  | mark hpc => exact h.mark_write hr hpc
  | write hpc => exact h.write_free hr hpc
  | free hpc => exact h.free_flush hr hpc
  | flush hpc hf => exact h.flush_calling hr hpc hf
  | done hpc hlen => exact h.flush_done hr hpc hlen

variable {a : Act π}

theorem Inv.exec (h : Inv reader s) (he : exec reader handler s a = some (.ok s')) :
    Inv reader s' := by
  cases a with
  | read tag kind =>
    rw [Srv.exec] at he
    split at he
    · next hc =>
      cases he
      exact h.read hc tag kind
    · cases he
  | respond p r error =>
    rw [Srv.exec] at he
    split at he
    · next hc =>
      cases he
      exact h.respond hc.2.1 hc.2.2 hc.1 error
    · cases he
  | go r =>
    rw [Srv.exec] at he
    split at he
    · next hr => exact h.go hr (h.go_cases hr he)
    · cases he

theorem Reachable.inv (h : Reachable reader handler s) : Inv reader s := by
  induction h with
  | init req => exact .init req
  | step a _ he ih => exact ih.exec he

/-! ## Some call can go on -/

/-- A call waits only for the locks and for the calls that it made. -/
theorem Inv.go_ne_none (h : Inv reader s) (hr : r < s.nreq) (hactive : (s.req r).pc.active = true)
    (hcalling : ∀ i, (s.req r).pc ≠ .calling i) (hwlock : (s.req r).pc = .wlock → s.wlock = none)
    (hrflush : ∀ or, (s.req r).pc = .rflush or → s.lk or = false) :
    s.go reader handler r ≠ none := by
  have hl := h.locals hr
  rw [Sys.go]
  cases hpc : (s.req r).pc with
  | handler | delayed | done =>
    rw [hpc] at hactive
    cases hactive
  | sflush =>
    obtain ⟨-, -, -, t, hk⟩ := h.calls.sflush hr hpc
    simp [hk]
  | enter =>
    dsimp only
    split
    · split <;> simp
    · split
      · simp
      · split <;> simp
  | rflush or => simp [hrflush or hpc]
  | wlock => simp [hwlock hpc]
  | remove | write => simp
  | mark | free =>
    have hlk := hl.lk
    rw [hpc] at hlk
    simp [hlk, Pc.holdsLk]
  | flush i =>
    dsimp only
    split <;> simp
  | calling i => exact absurd hpc (hcalling i)

variable {x f : Nat}

/-- A call that was made by another one, or one that it made, can go on: it does not wait for a
request, and the calls that it made are for later requests. -/
theorem Inv.go_callee (h : Inv reader s) (hwlock : s.wlock = none) {n : Nat} (hn : s.nreq ≤ f + n)
    (hf : f < s.nreq) (ha : (s.req f).pc.active = true) (hc : (s.req f).caller = .req x) :
    ∃ g, g < s.nreq ∧ s.go reader handler g ≠ none := by
  induction n generalizing f x with
  | zero => omega
  | succ n ih =>
    by_cases hcalling : ∃ i, (s.req f).pc = .calling i
    · obtain ⟨i, hi⟩ := hcalling
      obtain ⟨g, hg, hga, hgc⟩ := h.calls.callee hf hi
      have hlt := (h.calls.caller hg hga hgc).1
      exact ih (by omega) hg hga hgc
    · refine ⟨f, hf, h.go_ne_none hf ha (fun i hi => hcalling ⟨i, hi⟩) (fun _ => hwlock) ?_⟩
      intro or hpc
      have hold := (h.calls.caller hf ha hc).2.2.1
      exact absurd (hold.symm.trans ((h.locals hf).rflush hpc)) (by simp)

theorem Inv.go_calling (h : Inv reader s) (hwlock : s.wlock = none) (hr : r < s.nreq) {i : Nat}
    (hi : (s.req r).pc = .calling i) : ∃ g, g < s.nreq ∧ s.go reader handler g ≠ none := by
  obtain ⟨f, hf, ha, hc⟩ := h.calls.callee hr hi
  exact h.go_callee hwlock (Nat.le_add_left ..) hf ha hc

/-- There is no deadlock. -/
theorem Inv.progress (h : Inv reader s) (hr : r < s.nreq) (hactive : (s.req r).pc.active = true) :
    ∃ g, g < s.nreq ∧ s.go reader handler g ≠ none := by
  cases hwlock : s.wlock with
  | some w =>
    -- whoever has the lock can go on
    have hw := h.wlock hwlock
    have hholds := (h.locals hw).wlock.mp hwlock
    refine ⟨w, hw, h.go_ne_none hw ?_ (fun i hi => ?_) (fun hi => ?_) fun or hi => ?_⟩
    · generalize (s.req w).pc = pc at hholds
      cases pc <;> first | rfl | cases hholds
    all_goals
      rw [hi] at hholds
      cases hholds
  | none =>
    by_cases hcalling : ∃ i, (s.req r).pc = .calling i
    · obtain ⟨i, hi⟩ := hcalling
      exact h.go_calling hwlock hr hi
    by_cases hrflush : ∃ or, (s.req r).pc = .rflush or ∧ s.lk or = true
    · -- the call that has the lock goes on, or one that it made
      obtain ⟨or, hpc, hlk⟩ := hrflush
      have hor := Nat.lt_of_le_of_lt (h.pool.kind hr ((h.locals hr).rflush hpc)).1 hr
      rw [(h.locals hor).lk] at hlk
      cases horpc : (s.req or).pc with
      | calling i => exact h.go_calling hwlock hor horpc
      | flush i => exact ⟨or, hor, h.go_ne_none hor (by rw [horpc]; rfl) (by simp [horpc])
          (by simp [horpc]) (by simp [horpc])⟩
      | _ =>
        rw [horpc] at hlk
        cases hlk
    · refine ⟨r, hr, h.go_ne_none hr hactive (fun i hi => hcalling ⟨i, hi⟩) (fun _ => hwlock) ?_⟩
      intro or hpc
      by_contra hlk
      exact hrflush ⟨or, hpc, by simpa using hlk⟩

/-! ## All calls return -/

/-- How many steps a request has to do. -/
def Req.work (q : Req π) : Nat :=
  match q.pc with
  | .sflush => 13
  | .handler => 12
  | .enter => if q.oldreq.isSome then 11 else 7
  | .rflush _ => 10
  | .delayed => 9
  | .wlock => 6
  | .remove => 5
  | .mark => 4
  | .write => 3
  | .free | .calling _ => 2
  | .flush _ => 1
  | .done => 0

/-- The steps that there are to do. -/
def Sys.work (s : Sys π) : Nat := ∑ r ∈ Finset.range s.nreq, (s.req r).work

omit [DecidableEq π] in
theorem Moved.work (h : Moved s s' r q) : s'.work + (s.req r).work = s.work + q.work := by
  have hr : r ∈ Finset.range s.nreq := Finset.mem_range.mpr h.lt
  rw [Sys.work, Sys.work, h.nreq, ← Finset.add_sum_erase _ _ hr, ← Finset.add_sum_erase _ _ hr,
    h.req_self]
  have hrest : ∑ x ∈ (Finset.range s.nreq).erase r, (s'.req x).work =
      ∑ x ∈ (Finset.range s.nreq).erase r, (s.req x).work :=
    Finset.sum_congr rfl fun x hx => by rw [h.req_of_ne (Finset.ne_of_mem_erase hx)]
  rw [hrest]
  omega

omit [DecidableEq π] in
theorem Moved.work_lt (h : Moved s s' r q) (hq : q.work < (s.req r).work) : s'.work < s.work := by
  have := h.work
  omega

/-- A call that returns leaves less to do for the one that has made it. -/
theorem work_return (hcaller : ∀ x, (s.req r).caller = .req x → x < s.nreq) :
    (s.return_ r).work ≤ s.work := by
  rw [Sys.return_]
  split
  · exact le_rfl
  next x hc =>
  split
  · next i hi =>
    refine Nat.le_of_lt ((moved_goto s (hcaller x hc) _).work_lt ?_)
    simp [Req.work, hi]
  · exact le_rfl

theorem Inv.work_rflush (h : Inv reader s) (hr : r < s.nreq) (hpc : (s.req r).pc = .rflush or) :
    (s.rflush r or).work < s.work := by
  rw [Sys.rflush]
  split
  · have hold := (h.locals hr).rflush hpc
    obtain ⟨p, hcaller⟩ := h.caller_proc hr (by rw [hpc]; rfl) hold
    have hor := Nat.lt_of_le_of_lt (h.pool.kind hr hold).1 hr
    obtain ⟨s1, hs1⟩ : ∃ s1 : Sys π, s1 = { s with
      req := update s.req or { s.req or with flush := (s.req or).flush ++ [r] } } := ⟨_, rfl⟩
    rw [← hs1]
    have hm : Moved s s1 or { s.req or with flush := (s.req or).flush ++ [r] } := by
      rw [hs1]
      exact ⟨rfl, rfl, hor, rfl, rfl, rfl⟩
    have hsame : s1.work = s.work := Nat.add_right_cancel hm.work
    have hreq : (s1.req r).pc = .rflush or ∧ (s1.req r).caller = .proc p := by
      rw [hs1]
      by_cases hro : r = or
      · subst hro
        simp [hpc, hcaller]
      · simp [update_of_ne hro, hpc, hcaller]
    have hm1 := moved_goto s1 (hm.nreq ▸ hr) .delayed
    calc ((s1.goto r .delayed).return_ r).work ≤ (s1.goto r .delayed).work := by
          refine work_return fun x hx => ?_
          rw [hm1.req_self] at hx
          exact absurd (hreq.2.symm.trans hx) (by simp)
      _ < s1.work := hm1.work_lt (by simp [Req.work, hreq.1])
      _ = s.work := hsame
  · refine Moved.work_lt (q := { s.req r with oldreq := none, pc := .wlock })
      ⟨rfl, rfl, hr, rfl, rfl, rfl⟩ ?_
    simp [Req.work, hpc]

omit [DecidableEq π] in
/-- The flush has less to do, by more than what the call has more. -/
theorem work_call {s1 : Sys π} {q1 q2 : Req π} (h1 : Moved s s1 r q1) (h2 : Moved s1 s' f q2)
    (hq1 : q1.work = (s.req r).work + 1) (hq2 : q2.work + 2 = (s1.req f).work) :
    s'.work < s.work := by
  have := h1.work
  have := h2.work
  omega

theorem Inv.work_go (h : Inv reader s) (hr : r < s.nreq) (hgo : Go reader handler s r s') :
    s'.work < s.work := by
  cases hgo with
  | sflush hpc hkind =>
    rw [Sys.sflush]
    dsimp only
    split
    · refine Moved.work_lt (r := r) ⟨rfl, rfl, hr, rfl, rfl, rfl⟩ ?_
      simp only [Req.work, hpc]
      split <;> decide
    · refine Moved.work_lt (r := r) ⟨rfl, rfl, hr, rfl, rfl, rfl⟩ ?_
      simp [Req.work, hpc]
  | rflush hpc => exact h.work_rflush hr hpc
  | @flush i f hpc hf =>
    obtain ⟨hflt, hdelayed, -⟩ := h.delayed_of_flush hr hpc hf
    have hne : f ≠ r := by
      rintro rfl
      rw [hpc] at hdelayed
      cases hdelayed
    have hm1 := moved_goto s hr (.calling i)
    refine work_call hm1 (f := f) ⟨rfl, rfl, hflt, rfl, rfl, rfl⟩ (by simp [Req.work, hpc]) ?_
    rw [hm1.req_of_ne hne]
    simp [Req.work, hdelayed]
  | done hpc hlen =>
    have hm := moved_finished hr
    change ((s.finished r).return_ r).work < _
    refine Nat.lt_of_le_of_lt (work_return fun x hx => ?_) (hm.work_lt (by simp [Req.work, hpc]))
    rw [hm.req_self] at hx
    exact Nat.lt_trans (h.calls.caller hr (by rw [hpc]; rfl) hx).1 hr
  | enter hpc _ hold | wait hpc hold =>
    refine Moved.work_lt (moved_goto s hr _) ?_
    simp [Req.work, hpc, hold]
  | wlock hpc | remove hpc | mark hpc | write hpc | free hpc =>
    refine Moved.work_lt (r := r) ⟨rfl, rfl, hr, rfl, rfl, rfl⟩ ?_
    simp [Req.work, hpc]

/-- Every step but reading leaves less to do. -/
theorem Inv.work_exec (h : Inv reader s) (ha : ∀ tag kind, a ≠ .read tag kind)
    (he : Srv.exec reader handler s a = some (.ok s')) : s'.work < s.work := by
  cases a with
  | read tag kind => exact absurd rfl (ha tag kind)
  | respond p r error =>
    rw [Srv.exec] at he
    split at he
    · next hc =>
      cases he
      refine Moved.work_lt (r := r) ⟨rfl, rfl, hc.2.1, rfl, rfl, rfl⟩ ?_
      simp only [Req.work, hc.2.2]
      split <;> decide
    · cases he
  | go r =>
    rw [Srv.exec] at he
    split at he
    · next hr => exact h.work_go hr (h.go_cases hr he)
    · cases he

theorem Inv.length_le_work (h : Inv reader s) {as : List (Act π)}
    (has : ∀ a ∈ as, ∀ tag kind, a ≠ .read tag kind)
    (he : execs reader handler s as = some s') : as.length ≤ s.work := by
  induction as generalizing s with
  | nil => exact Nat.zero_le _
  | cons a as ih =>
    rw [execs] at he
    split at he
    · next s1 he1 =>
      have hlt := h.work_exec (has a (.head _)) he1
      have hle := ih (h.exec he1) (fun b hb => has b (mem_cons_of_mem a hb)) he
      rw [length_cons]
      omega
    · cases he

/-! ## The call for a request answers its flushes -/

omit [DecidableEq π] in
theorem done_of_update (hd : (update s.req r q x).pc = .done) (hq : q.pc ≠ .done) :
    (s.req x).pc = .done := by
  by_cases hx : x = r
  · rw [hx, update_self] at hd
    exact absurd hd hq
  · rwa [update_of_ne hx] at hd

theorem done_of_return (hd : ((s.return_ r).req x).pc = .done) : (s.req x).pc = .done := by
  rw [Sys.return_] at hd
  split at hd
  · exact hd
  · split at hd
    · exact done_of_update hd (by simp)
    · exact hd

theorem done_of_rflush (hpc : (s.req r).pc = .rflush or) (hd : ((s.rflush r or).req x).pc = .done) :
    (s.req x).pc = .done := by
  rw [Sys.rflush] at hd
  split at hd
  · have hd' := done_of_update (done_of_return hd) nofun
    by_cases hx : x = or
    · subst hx
      simpa using hd'
    · simpa [update_of_ne hx] using hd'
  · exact done_of_update hd nofun

/-- Only the last step of a call makes its request done. -/
theorem done_of_go (hgo : Go reader handler s r s') (hpc : (s.req x).pc ≠ .done)
    (hd : (s'.req x).pc = .done) :
    x = r ∧ ∃ i, (s.req r).pc = .flush i ∧ (s.req r).flush[i]? = none := by
  cases hgo with
  | sflush =>
    refine absurd ?_ hpc
    rw [Sys.sflush] at hd
    dsimp only at hd
    split at hd <;> exact done_of_update hd nofun
  | rflush h => exact absurd (done_of_rflush h hd) hpc
  | flush =>
    have hd' := done_of_update (s := s.goto _ _) hd nofun
    exact absurd (done_of_update hd' nofun) hpc
  | @done i h hlen =>
    have hd' := done_of_return hd
    by_cases hx : x = r
    · exact ⟨hx, i, h, hlen⟩
    · exact absurd (by simpa [update_of_ne hx] using hd') hpc
  | enter | wait | wlock | remove | mark | write | free =>
    exact absurd (done_of_update hd nofun) hpc

section

variable (h : Inv reader s) (he : Srv.exec reader handler s a = some (.ok s')) (hr : r < s.nreq)
  (hpc : (s.req r).pc ≠ .done) (hd : (s'.req r).pc = .done)
include h he hr hpc hd

theorem Inv.done_of_exec : ∃ i, (s.req r).pc = .flush i ∧ (s.req r).flush[i]? = none := by
  cases a with
  | read tag kind =>
    rw [Srv.exec] at he
    split at he
    · cases he
      obtain ⟨q, hf⟩ := fresh_read s tag kind
      rw [hf.req_of_lt hr] at hd
      exact absurd hd hpc
    · cases he
  | respond p x error =>
    rw [Srv.exec] at he
    split at he
    · cases he
      exact absurd (done_of_update hd nofun) hpc
    · cases he
  | go x =>
    rw [Srv.exec] at he
    split at he
    · next hx =>
      obtain ⟨rfl, hlast⟩ := done_of_go (h.go_cases hx he) hpc hd
      exact hlast
    · cases he

/-- The flushes of a request whose call returns were answered. -/
theorem Inv.flushed (hf : f ∈ (s.req r).flush) : s.log.count (.write f) = 1 := by
  obtain ⟨i, hi, hlen⟩ := h.done_of_exec he hr hpc hd
  obtain ⟨j, hj, hget⟩ := getElem_of_mem hf
  have hlt := getElem?_eq_none_iff.mp hlen
  obtain ⟨hflt, hdone | ⟨hc, -⟩⟩ := h.pending.past hr (List.getElem?_eq_some_iff.mpr ⟨hj, hget⟩)
    (by rw [hi, Pc.index]; omega)
  · exact (h.locals hflt).written.trans (by rw [hdone]; rfl)
  · rw [hi] at hc
    cases hc

end

/-! ## What the server guarantees -/

/-- What holds of the requests that were read. -/
structure FlushesSafe (reader : π) (handler : Bool) (s : Sys π) : Prop where
  /-- No request is answered twice. -/
  once : ∀ r, s.log.count (.write r) ≤ 1
  /-- A flush is answered after the other requests that it names, and nothing is written for them
  afterwards. -/
  order : ∀ {f r t}, Names s.log f r → f ≠ r → (s.req f).kind = .flush t → (s.req r).tag = t →
    ∀ l₁ l₂, s.log = l₁ ++ .write f :: l₂ → .write r ∈ l₁ ∧ .write r ∉ l₂
  /-- A request was answered if its call has returned. -/
  answered : ∀ {r}, r < s.nreq → (s.req r).pc = .done → s.log.count (.write r) = 1
  /-- A flush that waits is in the array of a request, and the call for that has not returned. -/
  delayed : ∀ {f}, f < s.nreq → (s.req f).pc = .delayed →
    ∃ r, r < s.nreq ∧ (s.req f).oldreq = some r ∧ f ∈ (s.req r).flush ∧ (s.req r).pc ≠ .done
  /-- The call for a request returns when all the flushes in its array were answered once. -/
  flushed : ∀ {a s' r}, exec reader handler s a = some (.ok s') → r < s.nreq →
    (s.req r).pc ≠ .done → (s'.req r).pc = .done →
    ∀ f ∈ (s.req r).flush, s.log.count (.write f) = 1
  /-- As long as a process is in a call, some call can go on. -/
  progress : ∀ {r}, r < s.nreq → (s.req r).pc.active = true →
    ∃ g, g < s.nreq ∧ exec reader handler s (.go g) ≠ none
  /-- All calls return if nothing is read. -/
  finite : ∀ {as s'}, (∀ a ∈ as, ∀ tag kind, a ≠ .read tag kind) →
    execs reader handler s as = some s' → as.length ≤ s.work

/-- **Flushes are answered in order**, and all calls return, from every state that the server can
reach. -/
theorem flushes_safe (h : Reachable reader handler s) : FlushesSafe reader handler s := by
  have hinv := h.inv
  have honce : ∀ r, s.log.count (.write r) ≤ 1 := by
    intro r
    by_cases hr : r < s.nreq
    · rw [(hinv.locals hr).written]
      split <;> decide
    · rw [count_eq_zero.mpr fun hw => hr (hinv.order.write hw)]
      exact Nat.zero_le _
  refine ⟨honce, fun {f r t} hn hne hk ht l₁ l₂ hlog => ?_, fun hr hd => ?_, fun {f} hf hd => ?_,
    fun he hr hpc hd f hf => hinv.flushed he hr hpc hd hf, fun hr ha => ?_,
    fun has he => hinv.length_le_work has he⟩
  · have hmem := hinv.order.precedes hn hne hk ht l₁ l₂ hlog
    refine ⟨hmem, fun hafter => ?_⟩
    have hcount := honce r
    rw [hlog, count_append, count_cons] at hcount
    have h1 := count_pos_iff.mpr hmem
    have h2 := count_pos_iff.mpr hafter
    omega
  · exact (hinv.locals hr).written.trans (by rw [hd]; rfl)
  · obtain ⟨r, hr, hold⟩ := hinv.pending.delayed hf hd
    have hmem := (hinv.pending.mem hr).mpr ⟨hf, hd, hold⟩
    have hflush : f ∈ (s.req r).flush := mem_of_mem_drop hmem
    refine ⟨r, hr, hold, hflush, fun hdone => ?_⟩
    rw [(hinv.locals hr).done hdone] at hflush
    cases hflush
  · obtain ⟨g, hg, hgo⟩ := hinv.progress hr ha
    exact ⟨g, hg, by rw [Srv.exec, if_pos hg]; exact hgo⟩

/-- Two flushes of one request, and a flush of one of them. -/
def flushOfFlush : List (Act Bool) :=
  [.read 1 .other, .read 2 (.flush 1), .go 1, .go 1, .go 1, .read 3 (.flush 1), .go 2, .go 2, .go 2,
    .read 4 (.flush 2), .go 3, .go 3, .go 3, .respond true 0 false] ++
  List.replicate 7 (.go 0) ++ List.replicate 7 (.go 1) ++ List.replicate 7 (.go 3) ++
  [.go 1, .go 0] ++ List.replicate 7 (.go 2) ++ [.go 0]

theorem flushes_safe_flush_of_flush : ∃ s : Sys Bool, Reachable false false s ∧
    s.log = [.read 0, .read 1, .read 2, .read 3, .write 0, .write 1, .write 3, .write 2] ∧
    FlushesSafe false false s := by
  have hrun : (execs false false (init fun _ =>
        Req.mk 0 .other true none false [] false (.proc false) .handler) flushOfFlush).map Sys.log =
      some [.read 0, .read 1, .read 2, .read 3, .write 0, .write 1, .write 3, .write 2] := by
    decide +kernel
  obtain ⟨s, hs, hlog⟩ := Option.map_eq_some_iff.mp hrun
  have hreach := (Reachable.init _).execs _ _ hs
  exact ⟨s, hreach, hlog, flushes_safe hreach⟩

end Plan9Port.Srv
