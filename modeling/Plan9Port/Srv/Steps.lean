import Plan9Port.Srv.Inv

/-!
# The steps that begin and end calls

A call of `respond` begins when a handler makes it, when a request is read that needs no handler,
or when the call for another request answers its flushes. It ends when the flush has to wait, when
the handler gets it, or when all is done.

## Main results

* `Calls.leave`, `Calls.start`, `Calls.call`, `Calls.ret`: who is in which call
* `Inv.rflush_delayed` and the others: every other step of `go`
* `Inv.read`, `Inv.respond`: the other steps
-/

namespace Plan9Port.Srv

open Sys List Nat

open Function

variable {π : Type} {reader : π} {s s' : Sys π} {r : Nat} {q : Req π}

variable {p : π} {or i f : Nat}

section

variable (h : Calls reader s)
include h

/-- The call for `r` ends. -/
theorem Calls.left (hr : r < s.nreq) (hactive : (s.req r).pc.active = true)
    (hpc : ∀ i, (s.req r).pc ≠ .calling i) (hnreq : s'.nreq = s.nreq)
    (hstays : ∀ x, x ≠ r → Stays s s' x) (hqactive : (s'.req r).pc.active = false)
    (hcalling : ∀ x i, x ≠ r → ((s'.req x).pc = .calling i ↔
      (s.req x).pc = .calling i ∧ (s.req r).caller ≠ .req x))
    (hcalls : ∀ p f, s'.calls p = some f ↔ s.calls p = some f ∧ f ≠ r)
    (hfake : (s'.req r).pool = false → (s'.req r).pc = .done) : Calls reader s' := by
  refine h.change (lt_iff_of_nreq hnreq hr) hstays (fun _ => hpc) (fun x i hx hc => ?_)
    (fun x i hc => ?_) (by simp [hqactive]) (by simpa [hqactive] using hcalls) (fun _ _ _ => hnreq)
    (fun hp => .inl (hfake hp)) fun hs => ?_
  · rw [hcalling x i hx]
    by_cases hrx : (s.req r).caller = .req x
    · exact .inr ⟨hr, hactive, hrx⟩
    · exact .inl ⟨hc, hrx⟩
  · have hx : x ≠ r := by
      rintro rfl
      rw [hc] at hqactive
      cases hqactive
    obtain ⟨hc, hrx⟩ := (hcalling x i hx).mp hc
    exact ⟨hx, .inr ⟨hc, fun _ _ => hrx⟩⟩
  · rw [hs] at hqactive
    cases hqactive

/-- The call for `r` returns to the process `p`. -/
theorem Calls.leave [DecidableEq π] (hr : r < s.nreq) (hactive : (s.req r).pc.active = true)
    (hcalling : ∀ i, (s.req r).pc ≠ .calling i) (hcaller : (s.req r).caller = .proc p)
    (hnreq : s'.nreq = s.nreq) (hcalls : s'.calls = update s.calls p none)
    (hreq : ∀ x, x ≠ r → ∃ l, s'.req x = { s.req x with flush := l })
    (hpool : (s'.req r).pool = (s.req r).pool) (hqactive : (s'.req r).pc.active = false)
    (hfake : (s.req r).pool = false → (s'.req r).pc = .done) : Calls reader s' := by
  refine h.left hr hactive hcalling hnreq (fun x hx => ?_) hqactive (fun x i hx => ?_)
    (fun p' f => ?_) fun hp => hfake (hpool.symm.trans hp)
  · obtain ⟨l, hl⟩ := hreq x hx
    exact .of_flush hl
  · obtain ⟨l, hl⟩ := hreq x hx
    rw [hl, hcaller]
    simp
  · rw [hcalls]
    by_cases hpp : p' = p
    · rw [hpp, update_self, h.proc hr hactive hcaller]
      simp [eq_comm]
    · rw [update_of_ne hpp]
      refine (and_iff_left_of_imp ?_).symm
      rintro hc rfl
      exact hpp (Caller.proc.inj ((h.calls hc).2.2.symm.trans hcaller))

/-- The call for `r` returns to the one for `q`. -/
theorem Calls.ret (hr : r < s.nreq) {j q : Nat} (hpc : (s.req r).pc = .flush i)
    (hcaller : (s.req r).caller = .req q) (hqpc : (s.req q).pc = .calling j)
    (hnreq : s'.nreq = s.nreq) (hcalls : s'.calls = s.calls)
    (hreq : ∀ x, x ≠ r → x ≠ q → s'.req x = s.req x)
    (hreqr : s'.req r = { s.req r with flush := [], pc := .done })
    (hreqq : s'.req q = { s.req q with pc := .flush (j + 1) }) : Calls reader s' := by
  refine h.left hr (by rw [hpc]; rfl) (by simp [hpc]) hnreq (fun x hxr => ?_) (by rw [hreqr]; rfl)
    (fun x k hxr => ?_) (fun p f => ?_) fun _ => by rw [hreqr]
  · by_cases hxq : x = q
    · subst hxq
      exact .of_pc hqpc hreqq rfl (by simp) (by simp)
    · exact .of_flush (hreq x hxr hxq)
  · rw [hcaller]
    by_cases hxq : x = q
    · rw [hxq, hreqq]
      simp
    · rw [hreq x hxr hxq]
      simp [Ne.symm hxq]
  · rw [hcalls]
    refine (and_iff_left_of_imp ?_).symm
    rintro hc rfl
    cases (h.calls hc).2.2.symm.trans hcaller

/-- Who was in no call was called by nobody. -/
theorem Calls.ne_of_inactive {y : Nat} (hy : y < s.nreq → (s.req y).pc.active = false)
    (hc : s.calls p = some f) : f ≠ y := by
  rintro rfl
  obtain ⟨hf, ha, -⟩ := h.calls hc
  rw [hy hf] at ha
  cases ha

/-- A call for `r` may begin, in a process that is in no call. -/
theorem Calls.start (hlt : ∀ x, x < s'.nreq ↔ x < s.nreq ∨ x = r)
    (hhandler : r < s.nreq → (s.req r).pc = .handler) (hreq : ∀ x, x ≠ r → s'.req x = s.req x)
    (hcaller : (s'.req r).caller = .proc p) (hqcalling : ∀ i, (s'.req r).pc ≠ .calling i)
    (hcalls : ∀ p' f, s'.calls p' = some f ↔ s.calls p' = some f ∨ f = r ∧
      (s'.req r).pc.active = true ∧ p' = p)
    (hnreq : ∀ x, x < s.nreq → (s.req x).pc = .sflush → s'.nreq = s.nreq)
    (hfake : (s'.req r).pool = false → (s'.req r).pc.active = true ∧ p = reader)
    (hsflush : (s'.req r).pc = .sflush → r + 1 = s'.nreq ∧ p = reader ∧ (s'.req r).oldreq = none ∧
      ∃ t, (s'.req r).kind = .flush t) : Calls reader s' := by
  have hproc : ∀ p', (s'.req r).caller = .proc p' ↔ p = p' := by simp [hcaller]
  have hinactive : r < s.nreq → (s.req r).pc.active = false := fun hr => by rw [hhandler hr]; rfl
  refine h.change hlt (fun x hx => .of_flush (hreq x hx)) (fun hr => by simp [hhandler hr])
    (fun x i hx hc => .inl (by rw [hreq x hx]; exact hc)) (fun x i hc => ?_) (by simp [hcaller])
    (fun p' f => ?_) hnreq (fun hp => .inr ?_) fun hs => ?_
  · have hxr : x ≠ r := by
      rintro rfl
      exact hqcalling i hc
    rw [hreq x hxr] at hc
    exact ⟨hxr, .inr ⟨hc, fun hr ha => absurd ((hinactive hr).symm.trans ha) (by simp)⟩⟩
  · rw [hcalls, hproc, eq_comm (a := p), and_iff_left_of_imp (h.ne_of_inactive hinactive)]
  · rw [hproc]
    exact hfake hp
  · rw [hproc]
    exact hsflush hs

end

/-! ## The arrays of flushes -/

section

variable (h : Pending s) (hr : r < s.nreq)
include h hr

/-- `r` is added to the array of `or`. -/
theorem Pending.add (hor : or < s.nreq) (hpc : (s.req r).pc = .rflush or)
    (hold : (s.req r).oldreq = some or) (hcaller : ∀ x, (s.req r).caller ≠ .req x)
    (hindex : (s.req or).pc.index = 0) (hnreq : s'.nreq = s.nreq)
    (hreq : ∀ x, s'.req x =
      { s.req x with
        flush := if x = or then (s.req x).flush ++ [r] else (s.req x).flush
        pc := if x = r then .delayed else (s.req x).pc }) : Pending s' := by
  have hindex' : ∀ x, (s'.req x).pc.index = (s.req x).pc.index := by
    intro x
    rw [hreq]
    by_cases hx : x = r
    · subst hx
      rw [if_pos rfl, hpc]
      rfl
    · rw [if_neg hx]
  have hpending : ∀ x, s'.pending x = s.pending x ++ if x = or then [r] else [] := by
    intro x
    rw [pending, hindex', hreq, pending]
    by_cases hx : x = or
    · rw [if_pos hx, if_pos hx, hx, hindex, drop_zero, drop_zero]
    · rw [if_neg hx, if_neg hx, append_nil]
  have hpcx : ∀ {x}, x ≠ r → (s'.req x).pc = (s.req x).pc := by
    intro x hx
    rw [hreq, if_neg hx]
  have hnot : ∀ {x}, x < s.nreq → r ∉ s.pending x := by
    intro x hx hmem
    have := ((h.mem hx).mp hmem).2.1
    rw [hpc] at this
    cases this
  refine ⟨fun {x f} hx => ?_, fun {x} hx => ?_, fun {f} hf hd => ?_, fun {x j f} hx hj hlt => ?_⟩
  · rw [hnreq] at hx ⊢
    rw [hpending, mem_append, h.mem hx, hreq]
    by_cases hf : f = r
    · subst hf
      rw [if_pos rfl, hpc, hold]
      by_cases hxo : x = or
      · rw [if_pos hxo, hxo]
        simp [hr]
      · rw [if_neg hxo]
        simp [Ne.symm hxo]
    · rw [if_neg hf]
      by_cases hxo : x = or
      · simp [hxo, hf]
      · simp [hxo]
  · rw [hnreq] at hx
    rw [hpending]
    refine nodup_append.mpr ⟨h.nodup hx, by split <;> simp, ?_⟩
    rintro a ha b hb rfl
    split at hb
    · exact hnot hx (mem_singleton.mp hb ▸ ha)
    · cases hb
  · rw [hnreq] at hf ⊢
    by_cases hfr : f = r
    · subst hfr
      exact ⟨or, hor, by rw [hreq]; exact hold⟩
    · rw [hpcx hfr] at hd
      rw [hreq]
      exact h.delayed hf hd
  · rw [hnreq] at hx ⊢
    rw [hindex'] at hlt
    have hxo : x ≠ or := by
      rintro rfl
      omega
    have hflush : (s'.req x).flush = (s.req x).flush := by
      rw [hreq, if_neg hxo]
    rw [hflush] at hj
    obtain ⟨hf, hpast⟩ := h.past hx hj hlt
    refine ⟨hf, ?_⟩
    rcases hpast with hd | ⟨hc, ha, hcl⟩
    · have hfr := ne_of_pc hd hpc (by simp)
      exact .inl (by rw [hpcx hfr]; exact hd)
    have hfr : f ≠ r := by
      rintro rfl
      exact hcaller x hcl
    have hxr := ne_of_pc hc hpc (by simp)
    refine .inr ⟨by rw [hpcx hxr]; exact hc, by rw [hpcx hfr]; exact ha, ?_⟩
    rw [hreq]
    exact hcl

/-- The call for `r` has answered all its flushes. -/
theorem Pending.finish (hpc : (s.req r).pc = .flush i) (hlen : (s.req r).flush[i]? = none)
    (hnreq : s'.nreq = s.nreq) (hreq : ∀ x, x ≠ r → s'.req x = s.req x)
    (hreqr : s'.req r = { s.req r with flush := [], pc := .done }) : Pending s' := by
  have hpending : ∀ x, s'.pending x = s.pending x := by
    intro x
    by_cases hx : x = r
    · subst hx
      rw [pending, pending, hreqr, hpc]
      exact (drop_eq_nil_of_le (getElem?_eq_none_iff.mp hlen)).symm
    · rw [pending, pending, hreq x hx]
  have hdel : ∀ {x}, (s'.req x).pc = .delayed ↔ (s.req x).pc = .delayed := by
    intro x
    by_cases hx : x = r
    · subst hx
      rw [hreqr, hpc]
      simp
    · rw [hreq x hx]
  have hold : ∀ x, (s'.req x).oldreq = (s.req x).oldreq := by
    intro x
    by_cases hx : x = r
    · rw [hx, hreqr]
    · rw [hreq x hx]
  refine ⟨fun {x f} hx => ?_, fun {x} hx => ?_, fun {f} hf hd => ?_, fun {x j f} hx hj hlt => ?_⟩
  · rw [hnreq] at hx ⊢
    rw [hpending, hdel, hold]
    exact h.mem hx
  · rw [hnreq] at hx
    rw [hpending]
    exact h.nodup hx
  · rw [hnreq] at hf ⊢
    rw [hold]
    exact h.delayed hf (hdel.mp hd)
  · rw [hnreq] at hx ⊢
    have hxr : x ≠ r := by
      rintro rfl
      rw [hreqr] at hj
      cases hj
    rw [hreq x hxr] at hj hlt ⊢
    obtain ⟨hf, hpast⟩ := h.past hx hj hlt
    refine ⟨hf, ?_⟩
    by_cases hfr : f = r
    · subst hfr
      exact .inl (by rw [hreqr])
    · rw [hreq f hfr]
      exact hpast

end

section Call

variable (hpc : (s.req r).pc = .flush i) (hnreq : s'.nreq = s.nreq)
  (hreq : ∀ x, x ≠ r → x ≠ f → s'.req x = s.req x)
  (hreqr : s'.req r = { s.req r with pc := .calling i })
  (hreqf : s'.req f =
    { s.req f with oldreq := none, error := false, caller := .req r, pc := .enter })
include hpc hnreq hreq hreqr hreqf

/-- The call for `r` calls `respond` for the flush `f`. -/
theorem Calls.call (h : Calls reader s) (hf : f < s.nreq) (hdelayed : (s.req f).pc = .delayed)
    (hpool : (s.req f).pool = true) (hlt : r < f) (hcalls : s'.calls = s.calls) :
    Calls reader s' := by
  have hinactive : (s.req f).pc.active = false := by
    rw [hdelayed]
    rfl
  refine h.change (lt_iff_of_nreq hnreq hf) (fun x hxf => ?_) (fun _ => by simp [hdelayed])
    (fun x j hxf hj => .inl ?_) (fun x j hj => ?_) (fun x _ hx => ?_) (fun p g => ?_)
    (fun _ _ _ => hnreq) (fun hp => ?_) fun hs => ?_
  · by_cases hxr : x = r
    · subst hxr
      exact .of_pc hpc hreqr rfl (by simp) (by simp)
    · exact .of_flush (hreq x hxr hxf)
  · have hxr := ne_of_pc hj hpc (by simp)
    rw [hreq x hxr hxf]
    exact hj
  · have hxf : x ≠ f := by
      rintro rfl
      rw [hreqf] at hj
      cases hj
    refine ⟨hxf, ?_⟩
    by_cases hxr : x = r
    · rw [hreqf, hxr]
      exact .inl ⟨rfl, rfl⟩
    · rw [hreq x hxr hxf] at hj
      exact .inr ⟨hj, fun _ ha => absurd (hinactive.symm.trans ha) (by simp)⟩
  · rw [hreqf] at hx ⊢
    cases hx
    refine ⟨⟨hlt, ⟨i, by rw [hreqr]⟩, rfl, by simp, hpool⟩, fun g hg _ ha hc => ?_⟩
    -- `r` had called nothing
    obtain ⟨-, ⟨j, hj⟩, -⟩ := h.caller hg ha hc
    rw [hpc] at hj
    cases hj
  · rw [hcalls, hreqf]
    simpa using h.ne_of_inactive fun _ => hinactive
  · rw [hreqf] at hp
    cases hpool.symm.trans hp
  · rw [hreqf] at hs
    cases hs

/-- The call for `r` calls `respond` for its next flush. -/
theorem Pending.call (h : Pending s) (hr : r < s.nreq) (hf : (s.req r).flush[i]? = some f) :
    Pending s' := by
  have hcons : s.pending r = f :: s'.pending r := by
    obtain ⟨hlt, hget⟩ := List.getElem?_eq_some_iff.mp hf
    rw [pending, pending, hreqr, hpc]
    exact (List.drop_eq_getElem_cons hlt).trans (by rw [hget]; rfl)
  obtain ⟨hflt, hdelayed, hold⟩ := (h.mem hr).mp (by rw [hcons]; exact .head _ ..)
  have hpending : ∀ {x}, x ≠ r → s'.pending x = s.pending x := by
    intro x hxr
    by_cases hxf : x = f
    · subst hxf
      rw [pending, pending, hreqf, hdelayed]
      rfl
    · rw [pending, pending, hreq x hxr hxf]
  have hdel : ∀ {x}, (s'.req x).pc = .delayed ↔ (s.req x).pc = .delayed ∧ x ≠ f := by
    intro x
    by_cases hxf : x = f
    · subst hxf
      rw [hreqf]
      simp
    by_cases hxr : x = r
    · subst hxr
      rw [hreqr, hpc]
      simp
    · rw [hreq x hxr hxf]
      simp [hxf]
  have holdreq : ∀ {x}, x ≠ f → (s'.req x).oldreq = (s.req x).oldreq := by
    intro x hxf
    by_cases hxr : x = r
    · rw [hxr, hreqr]
    · rw [hreq x hxr hxf]
  have hnodup := h.nodup hr
  rw [hcons, List.nodup_cons] at hnodup
  refine ⟨fun {x g} hx => ?_, fun {x} hx => ?_, fun {g} hg hd => ?_, fun {x j g} hx hj hlt => ?_⟩
  · rw [hnreq] at hx ⊢
    rw [hdel]
    by_cases hgf : g = f
    · subst hgf
      refine iff_of_false (fun hmem => ?_) fun hg => hg.2.1.2 rfl
      by_cases hxr : x = r
      · exact hnodup.1 (hxr ▸ hmem)
      · rw [hpending hxr, h.mem hx, hold] at hmem
        exact hxr (Option.some.inj hmem.2.2).symm
    · rw [holdreq hgf]
      by_cases hxr : x = r
      · subst hxr
        have := h.mem (f := g) hx
        rw [hcons, List.mem_cons] at this
        simpa [hgf] using this
      · rw [hpending hxr, h.mem hx]
        simp [hgf]
  · rw [hnreq] at hx
    by_cases hxr : x = r
    · rw [hxr]
      exact hnodup.2
    · rw [hpending hxr]
      exact h.nodup hx
  · rw [hnreq] at hg ⊢
    obtain ⟨hd, hgf⟩ := hdel.mp hd
    rw [holdreq hgf]
    exact h.delayed hg hd
  · rw [hnreq] at hx ⊢
    have hdone : ∀ {y}, (s.req y).pc = .done → (s'.req y).pc = .done := by
      intro y hd
      have hyr := ne_of_pc hd hpc (by simp)
      have hyf := ne_of_pc hd hdelayed (by simp)
      rw [hreq y hyr hyf]
      exact hd
    by_cases hxr : x = r
    · subst hxr
      rw [hreqr] at hj hlt
      rw [Pc.index] at hlt
      by_cases hji : j = i
      · subst hji
        obtain rfl := Option.some.inj (hf.symm.trans hj)
        exact ⟨hflt, .inr ⟨by rw [hreqr], by rw [hreqf]; rfl, by rw [hreqf]⟩⟩
      · obtain ⟨hg, hpast⟩ := h.past hx hj (by rw [hpc, Pc.index]; omega)
        refine ⟨hg, .inl (hdone (hpast.resolve_right fun hc => ?_))⟩
        rw [hpc] at hc
        cases hc.1
    · have hxf : x ≠ f := by
        rintro rfl
        rw [hreqf] at hlt
        cases hlt
      rw [hreq x hxr hxf] at hj hlt ⊢
      obtain ⟨hg, hpast⟩ := h.past hx hj hlt
      refine ⟨hg, hpast.imp hdone fun hc => ⟨hc.1, ?_⟩⟩
      obtain ⟨-, ha, hcl⟩ := hc
      have hgf : g ≠ f := by
        rintro rfl
        rw [hdelayed] at ha
        cases ha
      by_cases hgr : g = r
      · subst hgr
        rw [hreqr]
        exact ⟨rfl, hcl⟩
      · rw [hreq g hgr hgf]
        exact ⟨ha, hcl⟩

end Call

/-! ## The steps -/

variable [DecidableEq π]

theorem update_calls {calls : π → Option Nat} (hp : calls p = none) (r : Nat) (p' : π) (f : Nat) :
    update calls p (some r) p' = some f ↔ calls p' = some f ∨ f = r ∧ p' = p := by
  by_cases hpp : p' = p
  · subst hpp
    rw [update_self, hp]
    simp [eq_comm]
  · rw [update_of_ne hpp]
    simp [hpp]

theorem return_proc (hcaller : (s.req r).caller = .proc p) :
    s.return_ r = { s with calls := update s.calls p none } := by
  rw [return_, hcaller]

theorem return_req {q j : Nat} (hcaller : (s.req r).caller = .req q)
    (hpc : (s.req q).pc = .calling j) : s.return_ r = s.goto q (.flush (j + 1)) := by
  rw [return_, hcaller]
  dsimp only
  rw [hpc]

omit [DecidableEq π] in
/-- Whoever waits in `rflush` was called by a process. -/
theorem Inv.caller_proc (h : Inv reader s) (hr : r < s.nreq) (hactive : (s.req r).pc.active = true)
    (hold : (s.req r).oldreq = some or) : ∃ p, (s.req r).caller = .proc p := by
  cases hc : (s.req r).caller with
  | proc p => exact ⟨p, rfl⟩
  | req x => cases hold.symm.trans (h.calls.caller hr hactive hc).2.2.1

omit [DecidableEq π] in
/-- The array of a request does not matter before its call answers the flushes. -/
theorem Base.flush (h : Base s) (hr : r < s.nreq) (hdone : (s.req r).pc ≠ .done)
    (hsflush : (s.req r).pc ≠ .sflush) (l : List Nat) :
    Base { s with req := update s.req r { s.req r with flush := l } } := by
  have hl := h.locals hr
  have hm : Moved s { s with req := update s.req r { s.req r with flush := l } } r
      { s.req r with flush := l } := ⟨rfl, rfl, hr, rfl, rfl, rfl⟩
  apply h.moved rfl hm
  case hlk => exact hl.lk
  case hresponded => exact hl.responded
  case hearly => exact hl.early
  case hrflush => exact hl.rflush
  case hdone => exact fun hd => absurd hd hdone
  case hkind => exact fun o ho => h.pool.kind hr ho
  case hfake => exact fun hp => h.pool.fake hr hp
  case hmark => exact id
  case hdue => exact fun x t _ _ hx => .inl hx
  case hsflush => exact fun x t _ hs => absurd hs hsflush
  all_goals first | rfl | exact fun _ _ => rfl

section Finishing

variable (h : Inv reader s) (hr : r < s.nreq)
include h hr

theorem Inv.rflush_delayed (hpc : (s.req r).pc = .rflush or) (hres : (s.req or).responded = false) :
    Inv reader ((goto { s with
      req := update s.req or { s.req or with flush := (s.req or).flush ++ [r] } } r
        .delayed).return_ r) := by
  have hold := (h.locals hr).rflush hpc
  have hkind := h.pool.kind hr hold
  have hor := Nat.lt_of_le_of_lt hkind.1 hr
  have hmarked : (s.req or).pc.marked = false := (h.locals hor).responded.symm.trans hres
  obtain ⟨p, hcaller⟩ := h.caller_proc hr (by rw [hpc]; rfl) hold
  have hbase1 := h.toBase.flush hor (l := (s.req or).flush ++ [r])
    (fun hd => by rw [hd] at hmarked; cases hmarked) fun hs => by
      -- the last request that was read is `r` or comes after it
      have hlast := (h.calls.sflush hor hs).1
      obtain rfl : or = r := by
        omega
      rw [hpc] at hs
      cases hs
  obtain ⟨s1, hs1⟩ : ∃ s1 : Sys π, s1 = { s with
    req := update s.req or { s.req or with flush := (s.req or).flush ++ [r] } } := ⟨_, rfl⟩
  have hreq1 : ∀ x, s1.req x =
      { s.req x with flush := if x = or then (s.req x).flush ++ [r] else (s.req x).flush } := by
    intro x
    rw [hs1]
    by_cases hx : x = or
    · rw [hx, if_pos rfl]
      exact update_self ..
    · rw [if_neg hx]
      exact update_of_ne hx ..
  have hpc1 : (s1.req r).pc = .rflush or := by
    rw [hreq1]
    exact hpc
  have hnreq1 : s1.nreq = s.nreq := by rw [hs1]
  have hcalls1 : s1.calls = s.calls := by rw [hs1]
  rw [← hs1] at hbase1 ⊢
  have hr1 : r < s1.nreq := hnreq1 ▸ hr
  have hreq : ∀ x, (s1.goto r .delayed).req x =
      { s1.req x with pc := if x = r then .delayed else (s1.req x).pc } := by
    intro x
    by_cases hx : x = r
    · rw [hx, if_pos rfl]
      exact update_self ..
    · rw [if_neg hx]
      exact update_of_ne hx ..
  have hcaller1 : ((s1.goto r .delayed).req r).caller = .proc p := by
    rw [hreq, hreq1]
    exact hcaller
  rw [return_proc hcaller1]
  refine ⟨?_, h.pending.add hr hor hpc hold ?_ ?_ hnreq1 fun x => ?_,
    h.calls.leave hr (p := p) ?_ ?_ hcaller hnreq1 ?_ (fun x hx => ?_) ?_ ?_ ?_⟩
  · have hl1 := hbase1.locals hr1
    have hm : Moved s1 { s1.goto r .delayed with calls := update s1.calls p none } r
      { s1.req r with pc := .delayed } := ⟨rfl, rfl, hr1, rfl, rfl, rfl⟩
    apply hbase1.moved hpc1 hm
    case hlk => exact hl1.lk.trans (by rw [hpc1]; rfl)
    case hresponded => exact hl1.responded.trans (by rw [hpc1]; rfl)
    case hkind => exact fun o ho => hbase1.pool.kind hr1 ho
    case hfake =>
      intro hp
      dsimp only at hp
      rw [hreq1] at hp
      cases hkind.2.1.symm.trans hp
    case hdue => exact fun x t _ _ hx => .inl hx
    all_goals first | rfl | simp [goto, Pc.early]
  · rw [hcaller]
    simp
  · generalize (s.req or).pc = pc at hmarked
    cases pc <;> first | rfl | cases hmarked
  · dsimp only
    rw [hreq, hreq1]
  · rw [hpc]
    rfl
  · rw [hpc]
    simp
  · rw [← hcalls1]
    rfl
  · refine ⟨(s1.req x).flush, (hreq x).trans ?_⟩
    rw [if_neg hx, hreq1]
  · dsimp only
    rw [hreq, hreq1]
  · dsimp only
    rw [hreq, if_pos rfl]
    rfl
  · intro hp
    rw [hkind.2.1] at hp
    cases hp

/-- `sflush` gives the request to the handler. -/
theorem Inv.sflush_handler (hpc : (s.req r).pc = .sflush) {t : Nat}
    (hkind : (s.req r).kind = .flush t) (hor : s.rpool.lookupkey t = some or) :
    Inv reader
      { s with
        req := update s.req r { s.req r with oldreq := s.rpool.lookupkey t, pc := .handler }
        calls := update s.calls reader none } := by
  have hl := h.locals hr
  obtain ⟨hlast, hcaller, hnone, -⟩ := h.calls.sflush hr hpc
  have hpool := (h.sflush_oldreq hr hpc hkind hor).2.1
  have hm : Moved s
      { s with
        req := update s.req r { s.req r with oldreq := s.rpool.lookupkey t, pc := .handler }
        calls := update s.calls reader none } r
      { s.req r with oldreq := s.rpool.lookupkey t, pc := .handler } :=
    ⟨rfl, rfl, hr, rfl, rfl, rfl⟩
  refine ⟨?_, ?_, h.calls.leave hr ?_ ?_ hcaller rfl rfl (fun x hx => ?_) ?_ ?_ ?_⟩
  · apply h.toBase.moved hpc hm
    case hlk => exact hl.lk.trans (by rw [hpc]; rfl)
    case hresponded => exact hl.responded.trans (by rw [hpc]; rfl)
    case hkind => exact fun o ho => h.sflush_oldreq hr hpc hkind ho
    case hfake =>
      intro hp
      cases hpool.symm.trans hp
    case hdue =>
      intro x t' _ _ hx
      cases hnone.symm.trans hx
    case hsflush =>
      intro x t' hk _ hx
      obtain rfl : t = t' := Kind.flush.inj (hkind.symm.trans hk)
      exact hx
    all_goals first | rfl | simp [Pc.early]
  · apply h.pending.moved hpc hm rfl
    case hcallee =>
      intro x _ hx
      cases hcaller.symm.trans hx
    all_goals first | rfl | simp
  · rw [hpc]
    rfl
  · rw [hpc]
    simp
  · exact ⟨_, hm.req_of_ne hx⟩
  · exact hm.eq hm.pool r
  · rw [hm.req_self]
    rfl
  · intro hp
    cases hpool.symm.trans hp

/-- A handler calls `respond`. -/
theorem Inv.respond (hpc : (s.req r).pc = .handler) (hp : s.calls p = none) (error : Bool) :
    Inv reader (s.respond p r error) := by
  have hl := h.locals hr
  have hpool : (s.req r).pool = true := by
    cases hp : (s.req r).pool with
    | true => rfl
    | false =>
      have := h.calls.fake hr hp
      rw [hpc] at this
      rcases this with hd | ⟨ha, -⟩
      · cases hd
      · cases ha
  have hm : Moved s (s.respond p r error) r
      { s.req r with error := error, caller := .proc p, pc := .enter } :=
    ⟨rfl, rfl, hr, rfl, rfl, rfl⟩
  refine ⟨?_, ?_, h.calls.start (r := r) (p := p) (lt_iff_of_nreq hm.nreq hr) (fun _ => hpc)
    (fun x hx => hm.req_of_ne hx) ?_ ?_ (fun p' f => ?_) ?_ ?_ ?_⟩
  · apply h.toBase.moved hpc hm
    case hlk => exact hl.lk.trans (by rw [hpc]; rfl)
    case hresponded => exact hl.responded.trans (by rw [hpc]; rfl)
    case hkind => exact fun o ho => h.pool.kind hr ho
    case hfake =>
      intro hp
      cases hpool.symm.trans hp
    case hdue => exact fun x t _ _ hx => .inl hx
    all_goals first | rfl | simp [Pc.early, Sys.respond]
  · apply h.pending.moved hpc hm rfl
    case hcallee =>
      intro x ha
      cases ha
    all_goals first | rfl | simp
  · rw [hm.req_self]
  · rw [hm.req_self]
    simp
  · rw [hm.req_self]
    exact (update_calls hp r p' f).trans (by simp [Pc.active])
  · exact fun x _ _ => hm.nreq
  · intro hp
    rw [hm.eq hm.pool] at hp
    cases hpool.symm.trans hp
  · intro hs
    rw [hm.req_self] at hs
    cases hs

section

variable (hpc : (s.req r).pc = .flush i) (hf : (s.req r).flush[i]? = some f)
include hpc hf

omit [DecidableEq π] in
theorem Inv.delayed_of_flush :
    f < s.nreq ∧ (s.req f).pc = .delayed ∧ (s.req f).oldreq = some r := by
  refine (h.pending.mem hr).mp ?_
  rw [Sys.pending, hpc]
  refine mem_of_getElem? (i := 0) ?_
  rw [getElem?_drop]
  exact hf

omit [DecidableEq π] in
/-- The call for `r` calls `respond` for its next flush. -/
theorem Inv.flush_calling :
    Inv reader { s.goto r (.calling i) with
      req := update (s.goto r (.calling i)).req f
        { (s.goto r (.calling i)).req f with
          oldreq := none, error := false, caller := .req r, pc := .enter } } := by
  have hl := h.locals hr
  obtain ⟨hflt, hdelayed, hold⟩ := h.delayed_of_flush hr hpc hf
  have hlf := h.locals hflt
  obtain ⟨hle, hpool, t, hkind, -⟩ := h.pool.kind hflt hold
  have hne := ne_of_pc hdelayed hpc (by simp)
  have hm1 := moved_goto s hr (.calling i)
  have hbase1 : Base (s.goto r (.calling i)) := by
    apply h.toBase.moved hpc hm1
    case hlk => exact hl.lk.trans (by rw [hpc]; rfl)
    case hresponded => exact hl.responded.trans (by rw [hpc]; rfl)
    case hearly =>
      intro o ho
      cases ho.symm.trans (h.oldreq_none hr (by rw [hpc]; rfl))
    case hkind => exact fun o ho => h.pool.kind hr ho
    case hfake =>
      intro hp
      exact ⟨(h.pool.fake hr hp).1, fun hk => absurd (h.kind_of_fake hr hp (by rw [hpc]; simp)) hk⟩
    case hdue => exact fun x t _ _ hx => .inl hx
    all_goals first | rfl | simp [goto]
  obtain ⟨s1, hs1⟩ : ∃ s1, s1 = s.goto r (.calling i) := ⟨_, rfl⟩
  rw [← hs1] at hm1 hbase1 ⊢
  have hreqf := hm1.req_of_ne hne
  obtain ⟨q, hq⟩ : ∃ q : Req π, q = { s1.req f with
    oldreq := none, error := false, caller := .req r, pc := .enter } := ⟨_, rfl⟩
  have hm : Moved s1 { s1 with req := update s1.req f q } f q := by
    rw [hq]
    exact ⟨rfl, rfl, hm1.nreq ▸ hflt, rfl, rfl, rfl⟩
  rw [hreqf] at hq
  have hpcf : (s1.req f).pc = .delayed := by
    rw [hreqf]
    exact hdelayed
  have hreq : ∀ x, x ≠ r → x ≠ f → update s1.req f q x = s.req x := fun x hxr hxf =>
    (hm.req_of_ne hxf).trans (hm1.req_of_ne hxr)
  have hreqr : update s1.req f q r = { s.req r with pc := .calling i } :=
    (hm.req_of_ne (Ne.symm hne)).trans hm1.req_self
  have hreqf' := hm.req_self.trans hq
  rw [hreqf, ← hq]
  refine ⟨?_, h.pending.call hpc hm1.nreq hreq hreqr hreqf' hr hf,
    h.calls.call hpc hm1.nreq hreq hreqr hreqf' hflt hdelayed hpool (by omega) ?_⟩
  · apply hbase1.moved hpcf hm <;> rw [hq]
    case hlk =>
      rw [(hbase1.locals hm.lt).lk, hpcf]
      rfl
    case hresponded => exact hlf.responded.trans (by rw [hdelayed]; rfl)
    case hfake =>
      intro hp
      cases hpool.symm.trans hp
    case hdue =>
      -- `r` was answered
      intro x t _ _ hx
      rw [hreqf] at hx
      obtain rfl : r = x := Option.some.inj (hold.symm.trans hx)
      have hcount := (hbase1.locals (r := r) (hm1.nreq ▸ hr)).written
      rw [hm1.req_self] at hcount
      exact .inr (.inl (count_pos_iff.mp (by rw [hcount]; exact Nat.one_pos)))
    all_goals first | rfl | simp
  · rw [hs1]
    rfl

end

/-- The call for `r` is done. -/
def Sys.finished (s : Sys π) (r : Nat) : Sys π :=
  { s with
    req := update s.req r { s.req r with flush := [], pc := .done }
    lk := update s.lk r false }

omit h in
omit [DecidableEq π] in
theorem moved_finished : Moved s (s.finished r) r { s.req r with flush := [], pc := .done } :=
  ⟨rfl, rfl, hr, rfl, rfl, rfl⟩

omit [DecidableEq π] in
theorem Inv.base_done (hpc : (s.req r).pc = .flush i) (calls : π → Option Nat) :
    Base { s.finished r with calls := calls } := by
  have hm : Moved s { s.finished r with calls := calls } r _ := ⟨rfl, rfl, hr, rfl, rfl, rfl⟩
  apply h.toBase.moved hpc hm
  case hlk => exact update_self ..
  case hlks => exact fun x hx => update_of_ne hx ..
  case hresponded => exact (h.locals hr).responded.trans (by rw [hpc]; rfl)
  case hearly =>
    intro o ho
    cases ho.symm.trans (h.oldreq_none hr (by rw [hpc]; rfl))
  case hkind => exact fun o ho => h.pool.kind hr ho
  case hfake =>
    intro hp
    exact ⟨(h.pool.fake hr hp).1, fun hk => absurd (h.kind_of_fake hr hp (by rw [hpc]; simp)) hk⟩
  case hdue => exact fun x t _ _ hx => .inl hx
  all_goals first | rfl | simp

theorem Inv.flush_done (hpc : (s.req r).pc = .flush i) (hlen : (s.req r).flush[i]? = none) :
    Inv reader ((s.finished r).return_ r) := by
  have hactive : (s.req r).pc.active = true := by
    rw [hpc]
    rfl
  have hm1 := moved_finished hr
  have hpending1 := h.pending.finish hr hpc hlen hm1.nreq (fun x hx => hm1.req_of_ne hx)
    hm1.req_self
  have hcaller1 : ((s.finished r).req r).caller = (s.req r).caller := by rw [hm1.req_self]
  cases hcaller : (s.req r).caller with
  | proc p =>
    rw [return_proc (hcaller1.trans hcaller)]
    refine ⟨h.base_done hr hpc (update s.calls p none), ⟨hpending1.mem, hpending1.nodup,
      hpending1.delayed, hpending1.past⟩,
      h.calls.leave hr hactive ?_ hcaller hm1.nreq rfl (fun x hx => ?_) ?_ ?_ ?_⟩
    · rw [hpc]
      simp
    · exact ⟨_, hm1.req_of_ne hx⟩
    · exact hm1.eq hm1.pool r
    · dsimp only
      rw [hm1.req_self]
      rfl
    · intro _
      dsimp only
      rw [hm1.req_self]
  | req q =>
    obtain ⟨hlt, ⟨j, hj⟩, -⟩ := h.calls.caller hr hactive hcaller
    have hq : q < s.nreq := Nat.lt_trans hlt hr
    have hqr : q ≠ r := Nat.ne_of_lt hlt
    have hbase1 : Base (s.finished r) := h.base_done hr hpc s.calls
    have hreqq := hm1.req_of_ne hqr
    have hpcq : ((s.finished r).req q).pc = .calling j := by
      rw [hreqq]
      exact hj
    rw [return_req (hcaller1.trans hcaller) hpcq]
    have hlt1 : q < (s.finished r).nreq := hq
    have hl := hbase1.locals hlt1
    have hm := moved_goto _ hlt1 (.flush (j + 1))
    refine ⟨?_, ?_, h.calls.ret hr hpc hcaller hj hm1.nreq rfl (fun x hxr hxq => ?_) ?_ ?_⟩
    · apply hbase1.moved hpcq hm
      case hlk => exact hl.lk.trans (by rw [hpcq]; rfl)
      case hresponded => exact hl.responded.trans (by rw [hpcq]; rfl)
      case hearly =>
        intro o ho
        have := hl.early ho
        rw [hpcq] at this
        cases this
      case hkind => exact fun o ho => hbase1.pool.kind hlt1 ho
      case hfake =>
        intro hp
        refine ⟨(hbase1.pool.fake hlt1 hp).1, fun hk => ?_⟩
        have := (hbase1.pool.fake hlt1 hp).2 hk
        rw [hpcq] at this
        cases this
      case hdue => exact fun x t _ _ hx => .inl hx
      all_goals first | rfl | simp [goto]
    · apply hpending1.moved hpcq hm rfl
      case hcalling =>
        -- the flush that `q` has called `respond` for is `r`
        intro k hk
        cases hk
        refine .inr fun f hf => ?_
        rw [hreqq] at hf
        obtain ⟨hflt, hd | ⟨-, ha, hc⟩⟩ := h.pending.past hq hf (by rw [hj]; exact lt_succ_self _)
        · have hfr := ne_of_pc hd hpc (by simp)
          rw [hm1.req_of_ne hfr]
          exact hd
        · obtain rfl := h.calls.unique hflt hr ha hactive hc hcaller
          rw [hm1.req_self]
      case hcallee => exact fun x _ hc => ⟨rfl, hc⟩
      all_goals first | rfl | simp
    · rw [hm.req_of_ne hxq]
      exact hm1.req_of_ne hxr
    · rw [hm.req_of_ne (Ne.symm hqr)]
      exact hm1.req_self
    · rw [hm.req_self, hreqq]

end Finishing

/-! ## Reading -/

/-- `q` is what `getreq` makes of the message. -/
structure Fresh (reader : π) (s s' : Sys π) (q : Req π) : Prop where
  req : s'.req = update s.req s.nreq q
  nreq : s'.nreq = s.nreq + 1
  log : s'.log = s.log ++ [.read s.nreq]
  wlock : s'.wlock = s.wlock
  lk : s'.lk = s.lk
  lookup : ∀ t x, s'.rpool.lookupkey t = some x ↔
    s.rpool.lookupkey t = some x ∨ x = s.nreq ∧ q.tag = t ∧ q.pool = true
  oldreq : q.oldreq = none
  responded : q.responded = false
  flush : q.flush = []
  caller : q.caller = .proc reader
  calls : s'.calls = if q.pc.active then update s.calls reader (some s.nreq) else s.calls
  pc : (∀ t, q.kind ≠ .flush t) ∧ q.pool = true ∧ q.pc = .handler ∨
    (∃ t, q.kind = .flush t) ∧ q.pool = true ∧ q.pc = .sflush ∨
    q.pool = false ∧ q.error = true ∧ q.pc = .enter

variable {x : Nat}

namespace Fresh

omit [DecidableEq π] in
theorem pc_cases {pc : Pc} (h : pc = .handler ∨ pc = .sflush ∨ pc = .enter) :
    pc.marked = false ∧ pc.holdsLk = false ∧ pc.holdsW = false ∧ pc.written = false ∧
      pc.index = 0 ∧ pc.pooled = true ∧ pc ≠ .delayed := by
  rcases h with rfl | rfl | rfl <;> simp [Pc.marked, Pc.holdsLk, Pc.holdsW, Pc.written, Pc.index,
    Pc.pooled]

omit [DecidableEq π] in
theorem mark_or_write {pc : Pc} (hp : pc.pooled = false) (hw : pc.written = false) :
    pc = .mark ∨ pc = .write := by
  cases pc <;> first | cases hp; done | cases hw; done | simp

variable (hf : Fresh reader s s' q)

include hf

theorem req_self : s'.req s.nreq = q := by rw [hf.req, update_self]

theorem req_of_lt (hx : x < s.nreq) : s'.req x = s.req x := by
  rw [hf.req, update_of_ne (Nat.ne_of_lt hx)]

theorem lt_or_eq (hx : x < s'.nreq) : x < s.nreq ∨ x = s.nreq := by
  rw [hf.nreq] at hx
  omega

theorem qpc : q.pc.marked = false ∧ q.pc.holdsLk = false ∧ q.pc.holdsW = false ∧
    q.pc.written = false ∧ q.pc.index = 0 ∧ q.pc.pooled = true ∧ q.pc ≠ .delayed := by
  refine pc_cases ?_
  rcases hf.pc with ⟨-, -, h⟩ | ⟨-, -, h⟩ | ⟨-, -, h⟩
  · exact .inl h
  · exact .inr (.inl h)
  · exact .inr (.inr h)

theorem pool (h : Pool s) : Pool s' := by
  refine ⟨fun {t x} => ?_, fun {x or} hx hor => ?_, fun {x} hx hp => ?_⟩
  · rw [hf.lookup, h.lookup, hf.nreq]
    by_cases hxr : x = s.nreq
    · subst hxr
      rw [hf.req_self]
      simp [hf.qpc]
    · by_cases hx : x < s.nreq
      · rw [hf.req_of_lt hx]
        simp [hxr, hx, lt_succ_of_lt hx]
      · have hx' : ¬x < s.nreq + 1 := by omega
        simp [hxr, hx, hx']
  · rcases hf.lt_or_eq hx with hx | rfl
    · rw [hf.req_of_lt hx] at hor ⊢
      obtain ⟨hle, hrest⟩ := h.kind hx hor
      rw [hf.req_of_lt (Nat.lt_of_le_of_lt hle hx)]
      exact ⟨hle, hrest⟩
    · rw [hf.req_self, hf.oldreq] at hor
      cases hor
  · rcases hf.lt_or_eq hx with hx | rfl
    · rw [hf.req_of_lt hx] at hp ⊢
      exact h.fake hx hp
    · rw [hf.req_self] at hp ⊢
      rcases hf.pc with ⟨-, ht, -⟩ | ⟨-, ht, -⟩ | ⟨-, he, hpc⟩
      · cases ht.symm.trans hp
      · cases ht.symm.trans hp
      · exact ⟨he, fun _ => hpc⟩

theorem pending (h : Pending s) (hpool : Pool s) : Pending s' := by
  have hnew : s'.pending s.nreq = [] := by
    rw [Sys.pending, hf.req_self, hf.flush, drop_nil]
  have hsame : ∀ {x}, x < s.nreq → s'.pending x = s.pending x := by
    intro x hx
    rw [Sys.pending, Sys.pending, hf.req_of_lt hx]
  refine ⟨fun {x f} hx => ?_, fun {x} hx => ?_, fun {f} hf' hd => ?_, fun {x j f} hx hj hlt => ?_⟩
  · have hdel : f < s'.nreq ∧ (s'.req f).pc = .delayed ∧ (s'.req f).oldreq = some x ↔
        f < s.nreq ∧ (s.req f).pc = .delayed ∧ (s.req f).oldreq = some x := by
      by_cases hfl : f < s.nreq
      · rw [hf.req_of_lt hfl, hf.nreq]
        simp [hfl, lt_succ_of_lt hfl]
      · refine iff_of_false (fun hfx => ?_) fun hfx => hfl hfx.1
        rcases hf.lt_or_eq hfx.1 with hfl' | rfl
        · exact hfl hfl'
        · rw [hf.req_self] at hfx
          exact hf.qpc.2.2.2.2.2.2 hfx.2.1
    rw [hdel]
    rcases hf.lt_or_eq hx with hx | rfl
    · rw [hsame hx, h.mem hx]
    · rw [hnew]
      refine iff_of_false (by simp) fun hfx => ?_
      have := (hpool.kind hfx.1 hfx.2.2).1
      omega
  · rcases hf.lt_or_eq hx with hx | rfl
    · rw [hsame hx]
      exact h.nodup hx
    · rw [hnew]
      exact nodup_nil
  · rcases hf.lt_or_eq hf' with hf' | rfl
    · rw [hf.req_of_lt hf'] at hd ⊢
      obtain ⟨x, hx, ho⟩ := h.delayed hf' hd
      exact ⟨x, by rw [hf.nreq]; omega, ho⟩
    · rw [hf.req_self] at hd
      exact absurd hd hf.qpc.2.2.2.2.2.2
  · rcases hf.lt_or_eq hx with hx | rfl
    · rw [hf.req_of_lt hx] at hj hlt ⊢
      obtain ⟨hfl, hpast⟩ := h.past hx hj hlt
      rw [hf.req_of_lt hfl, hf.nreq]
      exact ⟨lt_succ_of_lt hfl, hpast⟩
    · rw [hf.req_self, hf.flush] at hj
      cases hj

section

variable (h : Inv reader s) (hreader : s.calls reader = none)
include h hreader

/-- A request that has no answer yet is still in the pool, or its call has the lock. -/
theorem due {t : Nat} (hx : x < s.nreq) (hw : .write x ∉ s.log) (hkind : q.kind = .flush t)
    (htag : (s.req x).tag = t) : Due s' s.nreq x t := by
  rw [Due, hf.req_self, hf.req_of_lt hx]
  refine .inr ⟨hf.qpc.2.2.2.1, ?_⟩
  rcases hf.pc with ⟨hk, -, -⟩ | ⟨-, hp, hpc⟩ | ⟨hp, -, -⟩
  · exact absurd hkind (hk t)
  · have hl := h.locals hx
    have hwritten : (s.req x).pc.written = false := by
      cases hwx : (s.req x).pc.written with
      | false => rfl
      | true =>
        have hcount := hl.written
        rw [if_pos hwx] at hcount
        exact absurd (count_pos_iff.mp (by omega)) hw
    -- the reading process is not in the call for a fake
    have hpool : (s.req x).pool = true := by
      cases hpx : (s.req x).pool with
      | true => rfl
      | false =>
        rcases h.calls.fake hx hpx with hd | ⟨ha, hc⟩
        · rw [hd] at hwritten
          cases hwritten
        · cases hreader.symm.trans (h.calls.proc hx ha hc)
    cases hpooled : (s.req x).pc.pooled with
    | true =>
      exact .inr (.inr (.inr (.inl ⟨hpc, (hf.lookup t x).mpr
        (.inl (h.pool.lookup.mpr ⟨hx, htag, hpool, hpooled⟩))⟩)))
    | false =>
      rcases mark_or_write hpooled hwritten with hm | hm
      · exact .inl hm
      · exact .inr (.inl hm)
  · exact .inr (.inr (.inr (.inr hp)))

theorem order : Order s' := by
  have hlt : ∀ {f x}, Names s.log f x → f < s.nreq ∧ x < s.nreq := by
    rintro f x ⟨l1, l2, hlog, hread, -⟩
    refine ⟨h.order.read.mp ?_, h.order.read.mp ?_⟩
    · rw [hlog]
      simp
    · rw [hlog]
      exact mem_append_left _ hread
  refine ⟨fun {x} => ?_, fun {x} hx => ?_, fun {f x t} hn hne hk ht => ?_,
    fun {f x t} hn hne hk ht => ?_⟩
  · rw [hf.log, hf.nreq, mem_append, h.order.read, Nat.lt_succ_iff_lt_or_eq]
    simp
  · rw [hf.log, mem_append] at hx
    rw [hf.nreq]
    exact lt_succ_of_lt (h.order.write (hx.resolve_right (by simp)))
  all_goals
    rw [hf.log] at hn
    rcases hn.of_append with hn | ⟨he, hread, hw⟩
  · obtain ⟨hfl, hxl⟩ := hlt hn
    rw [hf.req_of_lt hfl] at hk
    rw [hf.req_of_lt hxl] at ht
    rw [Due, hf.log, hf.req_of_lt hfl, hf.req_of_lt hxl]
    refine (h.order.due hn hne hk ht).imp (mem_append_left _) fun hw => ⟨hw.1, ?_⟩
    exact hw.2.imp_right <| .imp_right <| .imp_right <| .imp_left fun hs =>
      ⟨hs.1, (hf.lookup t x).mpr (.inl hs.2)⟩
  · cases he
    have hxl := h.order.read.mp hread
    rw [hf.req_self] at hk
    rw [hf.req_of_lt hxl] at ht
    exact hf.due h hreader hxl hw hk ht
  · obtain ⟨hfl, hxl⟩ := hlt hn
    rw [hf.req_of_lt hfl] at hk
    rw [hf.req_of_lt hxl] at ht
    rw [hf.log]
    exact (h.order.precedes hn hne hk ht).append (by simp)
  · cases he
    intro l1 l2 hlog
    have hmem : Event.write s.nreq ∈ s'.log := by
      rw [hlog]
      simp
    rw [hf.log, mem_append] at hmem
    exact absurd (h.order.write (hmem.resolve_right (by simp))) (Nat.lt_irrefl _)

theorem inv : Inv reader s' := by
  obtain ⟨hmarked, hlk, hholds, hwritten, -⟩ := hf.qpc
  have hwrite : .write s.nreq ∉ s.log := fun hw => Nat.lt_irrefl _ (h.order.write hw)
  refine ⟨⟨fun {x} hx => ?_, fun {x} hx => ?_, fun {x} hx => ?_, hf.pool h.pool,
    hf.order h hreader⟩, hf.pending h.pending h.pool, h.calls.start (r := s.nreq) (p := reader)
      (fun x => ?_) ?_ (fun x hx => ?_) ?_ (fun i hi => ?_) (fun p f => ?_)
      (fun x hx hs => ?_) ?_ ?_⟩
  · have hcount : s'.log.count (.write x) = s.log.count (.write x) := by
      rw [hf.log, count_append]
      simp
    rcases hf.lt_or_eq hx with hx | rfl
    · exact (h.locals hx).congr (hf.req_of_lt hx) (by rw [hf.lk]) (by rw [hf.wlock]) hcount
    refine ⟨?_, ?_, ?_, ?_, ?_, ?_, ?_⟩
    · rw [hf.req_self, hf.responded, hmarked]
    · rw [hf.req_self, hf.lk, hlk, h.lk (Nat.le_refl _)]
    · rw [hf.req_self, hf.wlock, hholds]
      exact iff_of_false (fun hw => Nat.lt_irrefl _ (h.wlock hw)) (by simp)
    · rw [hf.req_self, hwritten, hcount, count_eq_zero.mpr hwrite]
      rfl
    · intro or hor
      rw [hf.req_self, hf.oldreq] at hor
      cases hor
    · intro or hpc
      rw [hf.req_self] at hpc
      rcases hf.pc with ⟨-, -, h⟩ | ⟨-, -, h⟩ | ⟨-, -, h⟩ <;>
        cases h.symm.trans hpc
    · intro _
      rw [hf.req_self, hf.flush]
  · rw [hf.lk]
    rw [hf.nreq] at hx
    exact h.lk (by omega)
  · rw [hf.wlock] at hx
    rw [hf.nreq]
    exact lt_succ_of_lt (h.wlock hx)
  · rw [hf.nreq]
    omega
  · exact fun hlt => absurd hlt (Nat.lt_irrefl _)
  · rw [hf.req, update_of_ne hx]
  · rw [hf.req_self, hf.caller]
  · rw [hf.req_self] at hi
    rcases hf.pc with ⟨-, -, h⟩ | ⟨-, -, h⟩ | ⟨-, -, h⟩ <;> cases h.symm.trans hi
  · rw [hf.calls, hf.req_self]
    cases hact : q.pc.active with
    | true => exact (update_calls hreader s.nreq p f).trans (by simp)
    | false => simp
  · -- the reading process would be in `sflush`
    have hc := (h.calls.sflush hx hs).2.1
    cases hreader.symm.trans (h.calls.proc hx (by rw [hs]; rfl) hc)
  · intro hp
    rw [hf.req_self] at hp ⊢
    rcases hf.pc with ⟨-, ht, -⟩ | ⟨-, ht, -⟩ | ⟨-, -, hpc⟩
    · cases ht.symm.trans hp
    · cases ht.symm.trans hp
    · rw [hpc]
      exact ⟨rfl, rfl⟩
  · intro hs
    rw [hf.req_self] at hs ⊢
    rcases hf.pc with ⟨-, -, h⟩ | ⟨hk, -, -⟩ | ⟨-, -, h⟩
    · cases h.symm.trans hs
    · exact ⟨hf.nreq.symm, rfl, hf.oldreq, hk⟩
    · cases h.symm.trans hs

end

end Fresh

theorem fresh_read (s : Sys π) (tag : Nat) (kind : Kind) :
    ∃ q, Fresh reader s (s.read reader tag kind) q := by
  rw [Sys.read]
  dsimp only
  split
  · exact ⟨_, rfl, rfl, rfl, rfl, rfl, by simp, rfl, rfl, rfl, rfl, rfl,
      .inr (.inr ⟨rfl, rfl, rfl⟩)⟩
  next rpool hins =>
  obtain ⟨hnone, hlookup⟩ := Intmap.caninsertkey_eq_some hins
  have hrpool : ∀ t x, rpool.lookupkey t = some x ↔
      s.rpool.lookupkey t = some x ∨ x = s.nreq ∧ tag = t ∧ true = true := by
    intro t x
    rw [hlookup]
    by_cases ht : t = tag
    · rw [if_pos ht, ht, hnone]
      simp [eq_comm]
    · rw [if_neg ht]
      simp [Ne.symm ht]
  split
  · exact ⟨_, rfl, rfl, rfl, rfl, rfl, hrpool, rfl, rfl, rfl, rfl, rfl,
      .inr (.inl ⟨⟨_, rfl⟩, rfl, rfl⟩)⟩
  · next hk =>
    exact ⟨_, rfl, rfl, rfl, rfl, rfl, hrpool, rfl, rfl, rfl, rfl, rfl, .inl ⟨hk, rfl, rfl⟩⟩

theorem Inv.read (h : Inv reader s) (hreader : s.calls reader = none) (tag : Nat) (kind : Kind) :
    Inv reader (s.read reader tag kind) := by
  obtain ⟨q, hf⟩ := fresh_read s tag kind
  exact hf.inv h hreader

omit [DecidableEq π] in
theorem Inv.init (req : Nat → Req π) : Inv reader (init req) where
  locals hr := absurd hr (Nat.not_lt_zero _)
  lk _ := rfl
  wlock hr := nomatch hr
  pool :=
    { lookup := iff_of_false nofun fun hr => Nat.not_lt_zero _ hr.1
      kind := fun hr => absurd hr (Nat.not_lt_zero _)
      fake := fun hr => absurd hr (Nat.not_lt_zero _) }
  order :=
    { read := iff_of_false (by simp [Srv.init]) (Nat.not_lt_zero _)
      write := fun hr => nomatch hr
      due := fun ⟨l1, l2, hlog, _⟩ => absurd hlog (by simp [Srv.init])
      precedes := fun ⟨l1, l2, hlog, _⟩ => absurd hlog (by simp [Srv.init]) }
  pending :=
    { mem := fun hr => absurd hr (Nat.not_lt_zero _)
      nodup := fun hr => absurd hr (Nat.not_lt_zero _)
      delayed := fun hr => absurd hr (Nat.not_lt_zero _)
      past := fun hr => absurd hr (Nat.not_lt_zero _) }
  calls :=
    { callee := fun hr => absurd hr (Nat.not_lt_zero _)
      caller := fun hr => absurd hr (Nat.not_lt_zero _)
      unique := fun hr => absurd hr (Nat.not_lt_zero _)
      proc := fun hr => absurd hr (Nat.not_lt_zero _)
      calls := fun hc => nomatch hc
      fake := fun hr => absurd hr (Nat.not_lt_zero _)
      sflush := fun hr => absurd hr (Nat.not_lt_zero _) }

end Plan9Port.Srv
