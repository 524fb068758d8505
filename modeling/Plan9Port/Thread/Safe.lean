import Plan9Port.Thread.Handoff

/-!
# Safe locks

The invariants of the locks and of the rendezvous points, over all steps of all threads.

## Main results

* `Inv.exec`: every step keeps the invariants, and no check fails
* `locks_safe`: the locks are safe in every state that can be reached
-/

set_option linter.unusedSectionVars false

namespace Plan9Port.Thread

open Sys Event List Option

open Function

variable {θ κ ω ρ : Type}

/-- A call of `rwakeup` came after the thread was put on the list. -/
def Woken (log : List (Event θ κ ω ρ)) (u : θ) (r : ρ) : Prop :=
  ∃ before after v, log = before ++ .added u (.sleeping r) :: after ∧
    .added u (.sleeping r) ∉ after ∧ .rwakeup v r ∈ after

/-- While a thread wakes up others, it holds the lock, so that nobody goes to sleep. -/
structure RendInv (lockOf : ρ → κ) (s : Sys θ κ ω ρ) : Prop where
  sleeping : ∀ {v r}, s.pc v = .sleeping r → v ∈ s.qheld (lockOf r)
  waking : ∀ {v r all i}, s.pc v = .waking r all i →
    v ∈ s.qheld (lockOf r) ∧ ∀ u ∈ s.list (.sleeping r), Woken s.log u r
  out : ∀ {u r}, s.Out u (.sleeping r) → Woken s.log u r
  caller : ∀ {v l r}, s.pc v = .qswitch l (.rsleep r) → lockOf r = l

variable [DecidableEq θ] [DecidableEq κ] [DecidableEq ω] [DecidableEq ρ]

/-- Who was put on the list. -/
def Event.addedTo (q : Threadlist κ ω ρ) : Event θ κ ω ρ → Option θ
  | .added t q' => if q' = q then some t else none
  | _ => none

/-- Who was taken off. -/
def Event.deletedFrom (q : Threadlist κ ω ρ) : Event θ κ ω ρ → Option θ
  | .deleted t q' => if q' = q then some t else none
  | _ => none

/-- The threads leave a list in the order in which they came. -/
def Fifo (s : Sys θ κ ω ρ) : Prop :=
  ∀ q, s.log.filterMap (Event.addedTo q) = s.log.filterMap (Event.deletedFrom q) ++ s.list q

variable {lockOf : ρ → κ} {s s' : Sys θ κ ω ρ} {t u : θ} {q : Threadlist κ ω ρ} {p : Pc θ κ ω ρ}
  {e : Event θ κ ω ρ} {us : List θ}

/-! ## The order of the threads -/

/-- Neither `addthread` nor `delthread`. -/
def Event.plain : Event θ κ ω ρ → Prop
  | .added _ _ => False
  | .deleted _ _ => False
  | _ => True

theorem Fifo.congr (h : Fifo s) (hlist : s'.list = s.list) (hlog : s'.log = s.log) : Fifo s' := by
  intro q
  rw [hlist, hlog]
  exact h q

theorem Fifo.append (h : Fifo s) (hlist : s'.list = s.list) (he : e.plain)
    (hlog : s'.log = s.log ++ [e]) : Fifo s' := by
  intro q
  have hadded : [e].filterMap (addedTo q) = [] := by cases e <;> first | rfl | cases he
  have hdeleted : [e].filterMap (deletedFrom q) = [] := by cases e <;> first | rfl | cases he
  rw [hlist, hlog, filterMap_append, filterMap_append, hadded, hdeleted, append_nil, append_nil]
  exact h q

theorem Fifo.add (h : Fifo s) (q : Threadlist κ ω ρ) (t : θ) : Fifo (s.addthread q t) := by
  intro q'
  simp only [addthread, filterMap_append]
  by_cases hq : q' = q
  · subst hq
    simp [addedTo, deletedFrom, h q']
  · rw [update_of_ne hq _ _]
    simp [addedTo, deletedFrom, h q', Ne.symm hq]

/-- Only the first thread is taken off. -/
theorem Fifo.del (h : Fifo s) (hu : s.list q = u :: us) : Fifo (s.delthread q u) := by
  intro q'
  simp only [delthread, filterMap_append]
  by_cases hq : q' = q
  · subst hq
    simp [addedTo, deletedFrom, h q', hu]
  · rw [update_of_ne hq _ _]
    simp [addedTo, deletedFrom, h q', Ne.symm hq]

theorem Fifo.added (h : Fifo s) (hu : u ∈ s.list q) : .added u q ∈ s.log := by
  have hmem : u ∈ s.log.filterMap (addedTo q) := by
    rw [h q]
    exact mem_append_right _ hu
  obtain ⟨e, he, heq⟩ := mem_filterMap.mp hmem
  cases e with
  | added t q' =>
    simp only [addedTo] at heq
    split_ifs at heq with hq
    cases heq
    exact hq ▸ he
  | _ => cases heq

/-! ## Rendezvous points -/

variable {r : ρ} {log : List (Event θ κ ω ρ)} {all : Bool}

theorem Woken.append (h : Woken log u r) (he : e ≠ .added u (.sleeping r)) :
    Woken (log ++ [e]) u r := by
  obtain ⟨before, after, v, rfl, hnot, hv⟩ := h
  refine ⟨before, after ++ [e], v, by simp, ?_, mem_append_left _ hv⟩
  rw [mem_append, mem_singleton, not_or]
  exact ⟨hnot, Ne.symm he⟩

/-- The thread has been put on the list, for the last time before the `rwakeup`. -/
theorem Woken.of_mem (h : .added u (.sleeping r) ∈ log) (t : θ) :
    Woken (log ++ [.rwakeup t r]) u r := by
  obtain ⟨after, before, hlog, hnot⟩ := eq_append_cons_of_mem (mem_reverse.mpr h)
  refine ⟨before.reverse, after.reverse ++ [.rwakeup t r], t, ?_, ?_, by simp⟩
  · have := congrArg reverse hlog
    rw [reverse_reverse] at this
    rw [this]
    simp
  · simpa using hnot

/-- A place that is not within `rsleep` or `rwakeup` with the lock held. -/
def Pc.outside (lockOf : ρ → κ) : Pc θ κ ω ρ → Prop
  | .sleeping _ => False
  | .waking _ _ _ => False
  | .qswitch l (.rsleep r) => lockOf r = l
  | _ => True

section

variable (h : RendInv lockOf s)
include h

/-- What has to stay for the rendezvous points, when one thread goes on. -/
theorem RendInv.step (hpc : s'.pc = update s.pc t p) (hp : p.outside lockOf)
    (hheld : ∀ v l, v ≠ t → v ∈ s.qheld l → v ∈ s'.qheld l)
    (hlist : ∀ r, s'.list (.sleeping r) ⊆ s.list (.sleeping r))
    (hout : ∀ u r, s'.Out u (.sleeping r) → s.Out u (.sleeping r))
    (hlog : ∀ u r, Woken s.log u r → Woken s'.log u r) : RendInv lockOf s' := by
  have hne : ∀ v, ¬(s'.pc v).outside lockOf → v ≠ t ∧ s'.pc v = s.pc v := by
    intro v hv
    by_cases hvt : v = t
    · subst hvt
      rw [hpc, update_self] at hv
      exact absurd hp hv
    · rw [hpc, update_of_ne hvt _ _]
      exact ⟨hvt, rfl⟩
  refine ⟨fun {v r} hv => ?_, fun {v r all i} hv => ?_, fun hu => hlog _ _ (h.out (hout _ _ hu)),
    fun {v l r} hv => ?_⟩
  · obtain ⟨hvt, hpc⟩ := hne v (by rw [hv]; exact id)
    exact hheld v _ hvt (h.sleeping (hpc.symm.trans hv))
  · obtain ⟨hvt, hpc⟩ := hne v (by rw [hv]; exact id)
    obtain ⟨hmem, hw⟩ := h.waking (hpc.symm.trans hv)
    exact ⟨hheld v _ hvt hmem, fun u hu => hlog u r (hw u (hlist r hu))⟩
  · by_cases hvt : v = t
    · subst hvt
      rw [hpc, update_self] at hv
      rw [hv] at hp
      exact hp
    · rw [hpc, update_of_ne hvt _ _] at hv
      exact h.caller hv

/-- The same, when no thread goes on. -/
theorem RendInv.same (hpc : s'.pc = s.pc) (hheld : s'.qheld = s.qheld)
    (hlist : ∀ r, s'.list (.sleeping r) ⊆ s.list (.sleeping r))
    (hout : ∀ u r, s'.Out u (.sleeping r) → s.Out u (.sleeping r))
    (hlog : ∀ u r, Woken s.log u r → Woken s'.log u r) : RendInv lockOf s' := by
  refine ⟨fun {v r} hv => ?_, fun {v r all i} hv => ?_, fun hu => hlog _ _ (h.out (hout _ _ hu)),
    fun hv => h.caller (hpc ▸ hv)⟩
  · rw [hpc] at hv
    rw [hheld]
    exact h.sleeping hv
  · rw [hpc] at hv
    rw [hheld]
    exact ⟨(h.waking hv).1, fun u hu => hlog u r ((h.waking hv).2 u (hlist r hu))⟩

/-- A thread goes to sleep. Nobody is in `rwakeup` then, since the thread holds the lock. -/
theorem RendInv.rsleep (hq : ∀ l, QInv s l) (hpc : s.pc t = .user) (ht : t ∈ s.qheld (lockOf r)) :
    RendInv lockOf ((s.addthread (.sleeping r) t).goto t (.sleeping r)) := by
  have hwait : (s.pc t).waitsOn = none := by rw [hpc]; rfl
  refine ⟨fun {v r'} hv => ?_, fun {v r' all i} hv => ?_, fun {u r'} hu => ?_,
    fun {v l r'} hv => ?_⟩
  · obtain ⟨rfl, ⟨⟩⟩ | ⟨-, hv⟩ := pc_of_goto hv
    · exact ht
    · exact h.sleeping hv
  · obtain ⟨-, ⟨⟩⟩ | ⟨hvt, hv⟩ := pc_of_goto hv
    obtain ⟨hmem, hw⟩ := h.waking hv
    have hr : r' ≠ r := by
      rintro rfl
      rw [((hq _).held ht).2, mem_singleton] at hmem
      exact hvt hmem
    have hlist : ((s.addthread (.sleeping r) t).goto t (.sleeping r)).list (.sleeping r') =
        s.list (.sleeping r') := update_of_ne (by simpa using hr) _ _
    refine ⟨hmem, fun u hu => ?_⟩
    rw [hlist] at hu
    exact (hw u hu).append (by simp [Ne.symm hr])
  · have hout := (out_add hwait rfl).mp hu
    refine (h.out hout).append ?_
    rintro ⟨⟩
    rw [hout.1] at hwait
    cases hwait
  · obtain ⟨-, ⟨⟩⟩ | ⟨-, hv⟩ := pc_of_goto hv
    exact h.caller hv

/-- `rwakeup` is called: all that are on the list were put there before. -/
theorem RendInv.rwakeup (hfifo : Fifo s) (all : Bool) (hpc : s.pc t = .user)
    (ht : t ∈ s.qheld (lockOf r)) :
    RendInv lockOf ((s.happens (.rwakeup t r)).goto t (.waking r all 0)) := by
  refine ⟨fun {v r'} hv => ?_, fun {v r' all' i} hv => ?_, fun {u r'} hu => ?_,
    fun {v l r'} hv => ?_⟩
  · obtain ⟨-, ⟨⟩⟩ | ⟨-, hv⟩ := pc_of_goto hv
    exact h.sleeping hv
  · obtain ⟨rfl, ⟨⟩⟩ | ⟨-, hv⟩ := pc_of_goto hv
    · exact ⟨ht, fun u hu => Woken.of_mem (hfifo.added hu) v⟩
    · exact ⟨(h.waking hv).1, fun u hu => ((h.waking hv).2 u hu).append (by simp)⟩
  · have hout : s.Out u (.sleeping r') :=
      (out_goto (s := s.happens (.rwakeup t r))
        (by rw [show (s.happens _).pc t = _ from hpc]; rfl)).mp hu
    exact (h.out hout).append (by simp)
  · obtain ⟨-, ⟨⟩⟩ | ⟨-, hv⟩ := pc_of_goto hv
    exact h.caller hv

/-- One thread is woken up. -/
theorem RendInv.wakeup (hlists : Lists s) {i : Nat} (hpc : s.pc t = .waking r all i)
    (hu : u ∈ s.list (.sleeping r)) :
    RendInv lockOf
      (((s.delthread (.sleeping r) u)._threadready u).goto t (.waking r all (i + 1))) := by
  have hlog : ∀ v r', Woken s.log v r' → Woken (s.log ++ [.deleted u (.sleeping r)]) v r' :=
    fun v r' hv => hv.append (by simp)
  have hlist : ∀ r', (((s.delthread (.sleeping r) u)._threadready u).goto t
      (.waking r all (i + 1))).list (.sleeping r') ⊆ s.list (.sleeping r') := by
    intro r' v hv
    by_cases hr : r' = r
    · subst hr
      simp only [goto, _threadready, delthread, update_self] at hv
      exact mem_of_mem_erase hv
    · have hq : (Threadlist.sleeping r' : Threadlist κ ω ρ) ≠ .sleeping r := by simpa using hr
      simpa only [goto, _threadready, delthread, update_of_ne hq _ _] using hv
  obtain ⟨hmem, hw⟩ := h.waking hpc
  refine ⟨fun {v r'} hv => ?_, fun {v r' all' i'} hv => ?_, fun {v r'} hv => ?_,
    fun {v l r'} hv => ?_⟩
  · obtain ⟨-, ⟨⟩⟩ | ⟨-, hv⟩ := pc_of_goto hv
    exact h.sleeping hv
  · obtain ⟨rfl, ⟨⟩⟩ | ⟨-, hv⟩ := pc_of_goto hv
    · exact ⟨hmem, fun v hv => hlog v r (hw v (hlist r hv))⟩
    · exact ⟨(h.waking hv).1, fun v hv' => hlog v r' ((h.waking hv).2 v (hlist r' hv'))⟩
  · have hout : (s.delthread (.sleeping r) u).Out v (.sleeping r') :=
      (out_goto (s := (s.delthread (.sleeping r) u)._threadready u)
        (by rw [show ((s.delthread _ u)._threadready u).pc t = _ from hpc]; rfl)).mp hv
    rcases (out_del hlists hu).mp hout with hv | ⟨rfl, hq⟩
    · exact hlog v r' (h.out hv)
    · cases hq
      exact hlog v r (hw v hu)
  · obtain ⟨-, ⟨⟩⟩ | ⟨-, hv⟩ := pc_of_goto hv
    exact h.caller hv

end

/-! ## All steps -/

/-- What is said about a step by what happens in it. -/
def Event.Ok (lockOf : ρ → κ) (s s' : Sys θ κ ω ρ) : Event θ κ ω ρ → Prop
  | .deleted u (.waiting l) => s'.owner l = some u
  | .deleted u (.wwaiting l) => s'.writer l = some u
  | .resumed u r => Woken s.log u r
  | .rsleepReturned u r => s'.qheld (lockOf r) = [u]
  | _ => True

/-- Whoever is taken off the list has the lock, whoever runs again was woken up, and whoever comes
back from `rsleep` holds the lock. -/
def StepSafe (lockOf : ρ → κ) (s s' : Sys θ κ ω ρ) : Prop :=
  ∀ e ∈ s'.log.drop s.log.length, e.Ok lockOf s s'

theorem StepSafe.of_append (es : List (Event θ κ ω ρ)) (hlog : s'.log = s.log ++ es)
    (hes : ∀ e ∈ es, e.Ok lockOf s s') : StepSafe lockOf s s' := by
  rw [StepSafe, hlog, drop_left]
  exact hes

theorem StepSafe.one (hlog : s'.log = s.log ++ [e]) (he : e.Ok lockOf s s') :
    StepSafe lockOf s s' :=
  .of_append [e] hlog fun _ h => mem_singleton.mp h ▸ he

theorem StepSafe.none (hlog : s'.log = s.log) : StepSafe lockOf s s' :=
  .of_append [] (hlog.trans (append_nil _).symm) (by simp)

/-- All the invariants. -/
structure Inv (lockOf : ρ → κ) (s : Sys θ κ ω ρ) : Prop where
  lists : Lists s
  q : ∀ l, QInv s l
  rw : ∀ l, RWInv s l
  hands : Hands s
  rend : RendInv lockOf s
  fifo : Fifo s

/-- The outcome of a step: only a thread that is alone may die of it. -/
def Good (lockOf : ρ → κ) (s : Sys θ κ ω ρ) (r : Except Abort (Sys θ κ ω ρ)) : Prop :=
  r = .error .deadlock ∨ ∃ s', r = .ok s' ∧ Inv lockOf s' ∧ StepSafe lockOf s s'

/-- A call fails and returns. -/
theorem Inv.returned (h : Inv lockOf s) (t : θ) (n : Nat) :
    Inv lockOf (s.happens (.returned t n)) where
  lists := h.lists.congr ⟨rfl, rfl, rfl⟩
  q l := (h.q l).congr ⟨rfl, rfl, rfl⟩ rfl rfl
  rw l := (h.rw l).congr ⟨rfl, rfl, rfl⟩ rfl rfl rfl rfl
  hands := h.hands.congr ⟨rfl, rfl, rfl⟩
  rend := h.rend.same rfl rfl (fun _ => Subset.refl _) (fun _ _ => id)
    fun _ _ hw => hw.append (by simp)
  fifo := h.fifo.append (e := .returned t n) rfl trivial rfl

/-- A call has to wait. -/
theorem Inv.wait (h : Inv lockOf s) (ht : (s.pc t).waitsOn = none) (hp : p.waitsOn = some q)
    (hready : ∀ l c, p ≠ .qready l c) (hwready : ∀ u, p ≠ .wready u) (ho : p.outside lockOf)
    (hsleep : ∀ r, q ≠ .sleeping r) (hq : ∀ l, q = .waiting l → s.owner l ≠ none)
    (hr : ∀ l, q = .rwaiting l → s.writer l ≠ none ∨ s.list (.wwaiting l) ≠ [])
    (hw : ∀ l, q = .wwaiting l → s.writer l ≠ none ∨ 0 < s.readers l) :
    Inv lockOf ((s.addthread q t).goto t p) ∧ StepSafe lockOf s ((s.addthread q t).goto t p) where
  left := {
    lists := h.lists.add ht hp
    q := fun l => (h.q l).add ht hp (hready l) (hq l)
    rw := fun l => (h.rw l).add h.lists ht hp (hr l) (hw l)
    hands := h.hands.add ht hp hwready
    rend := by
      have hlist : ∀ r, ((s.addthread q t).goto t p).list (.sleeping r) = s.list (.sleeping r) :=
        fun r => update_of_ne (hsleep r).symm _ _
      refine h.rend.step (t := t) (p := p) rfl ho (fun _ _ _ => id)
        (fun r => ?_) (fun _ _ => (out_add ht hp).mp) fun u r hw => hw.append ?_
      · rw [hlist r]
        exact Subset.refl _
      · simpa using fun _ => hsleep r
    fifo := (h.fifo.add q t).congr rfl rfl }
  right := .one (e := .added t q) rfl trivial

variable {c : Caller ρ} {W : ω → Option θ} {R : ω → Int}

theorem mem_update_cons {l l' : κ} {held : κ → List θ} {v : θ} (hv : v ∈ held l') :
    v ∈ update held l (t :: held l) l' := by
  by_cases hl : l' = l
  · subst hl
    rw [update_self]
    exact .tail _ hv
  · rwa [update_of_ne hl _ _]

/-- The call that locks a `QLock` returns. -/
theorem qlocked_returns {l : κ} {owner : κ → Option θ} {ready : List θ} (h : Fifo s)
    (hc : ∀ r, c = .rsleep r → lockOf r = l) (hheld : s.qheld l = []) :
    Fifo ({ s with owner := owner, runqueue := ready }.qlocked t l c) ∧
      StepSafe lockOf s ({ s with owner := owner, runqueue := ready }.qlocked t l c) := by
  cases c with
  | user =>
    exact ⟨h.append (e := .returned t 1) rfl trivial rfl, .one (e := .returned t 1) rfl trivial⟩
  | rsleep r =>
    refine ⟨h.append (e := .rsleepReturned t r) rfl trivial rfl,
      .one (e := .rsleepReturned t r) rfl ?_⟩
    simp only [Ok, qlocked, hc r rfl, update_self, hheld]

section

variable (h : Inv lockOf s)
include h

/-- The lock is not free: the call fails, or the thread waits. -/
theorem Inv.busy (block alone : Bool) (hwait : Inv lockOf s' ∧ StepSafe lockOf s s') :
    Good lockOf s (if !block then .ok (s.happens (.returned t 0))
      else if alone then .error .deadlock else .ok s') := by
  cases block with
  | false =>
    exact .inr ⟨_, rfl, h.returned t 0, .one (e := .returned t 0) rfl trivial⟩
  | true =>
    cases alone with
    | true => exact .inl rfl
    | false => exact .inr ⟨_, rfl, hwait⟩

/-- A `QLock` is locked, or the thread has to wait for it. -/
theorem Inv.threadqlock (ht : (s.pc t).waitsOn = none) (l : κ) (block alone : Bool)
    (hc : ∀ r, c = .rsleep r → lockOf r = l) : Good lockOf s (s.threadqlock t l block alone c) := by
  rw [Sys.threadqlock]
  by_cases howner : s.owner l = none
  · rw [if_pos howner]
    obtain ⟨hfifo, hsafe⟩ := qlocked_returns h.fifo hc ((h.q l).free howner).2
    refine .inr ⟨_, rfl, ⟨(h.lists.goto (p := .user) ht.symm).congr ⟨rfl, rfl, rfl⟩,
      QInv.lock h.q c howner ht,
      fun l' => ((h.rw l').goto (p := .user) ht.symm).congr ⟨rfl, rfl, rfl⟩ rfl rfl rfl rfl,
      (h.hands.goto (p := .user) ht.symm (by simp)).congr ⟨rfl, rfl, rfl⟩, ?_, hfifo⟩, hsafe⟩
    refine h.rend.step (t := t) (p := .user) rfl trivial (fun v l' _ hv => mem_update_cons hv)
      (fun _ => Subset.refl _) (fun u r hu => (out_goto (p := .user) ht.symm).mp hu)
      fun u r hw => ?_
    cases c <;> exact hw.append (by simp)
  · rw [if_neg howner]
    have ho : (Pc.qswitch l c : Pc θ κ ω ρ).outside lockOf := by
      cases c with
      | user => trivial
      | rsleep r => exact hc r rfl
    exact h.busy block alone (h.wait (p := .qswitch l c) (q := .waiting l) ht rfl (by simp)
      (by simp) ho (by simp) (by rintro l' ⟨⟩; exact howner) (by simp) (by simp))

/-- A `QLock` is unlocked, or handed over. -/
theorem Inv.threadqunlock {l : κ} (ht : t ∈ s.qheld l)
    (hc : (Pc.qready l c : Pc θ κ ω ρ).waitsOn = (s.pc t).waitsOn) :
    Good lockOf s (s.threadqunlock t l c) := by
  have hnext : (c.next θ κ ω).waitsOn = (s.pc t).waitsOn := c.waitsOn_next.trans hc
  have hheld : ∀ v l', v ≠ t → v ∈ s.qheld l' → v ∈ update s.qheld l ((s.qheld l).erase t) l' := by
    intro v l' hv hmem
    by_cases hl : l' = l
    · subst hl
      rw [update_self]
      exact (mem_erase_of_ne hv).mpr hmem
    · rwa [update_of_ne hl _ _]
  rw [Sys.threadqunlock, if_neg (by rw [((h.q l).held ht).1]; simp)]
  dsimp only
  cases hlist : s.list (.waiting l) with
  | nil =>
    refine .inr ⟨_, rfl, ⟨(h.lists.goto hnext).congr ⟨rfl, rfl, rfl⟩,
      QInv.unlock h.q ht hnext hlist,
      fun l' => ((h.rw l').goto hnext).congr ⟨rfl, rfl, rfl⟩ rfl rfl rfl rfl,
      (h.hands.goto hnext (by cases c <;> simp [Caller.next])).congr ⟨rfl, rfl, rfl⟩,
      h.rend.step rfl (by cases c <;> trivial) hheld (fun _ => Subset.refl _)
        (fun u r hu => (out_goto hnext).mp hu) fun _ _ => id, h.fifo.congr rfl rfl⟩, .none rfl⟩
  | cons u us =>
    have hu : u ∈ s.list (.waiting l) := by simp [hlist]
    refine .inr ⟨_, rfl, ⟨((h.lists.del hu).goto (s := s.delthread (.waiting l) u) hc).congr
        ⟨rfl, rfl, rfl⟩, QInv.handover h.q h.lists ht hc hu,
      fun l' => (((h.rw l').del h.lists hu (by simp) (by simp)).goto
        (s := s.delthread (.waiting l) u) hc).congr ⟨rfl, rfl, rfl⟩ rfl rfl rfl rfl,
      ((h.hands.del h.lists hu).goto (s := s.delthread (.waiting l) u) hc (by simp)).congr
        ⟨rfl, rfl, rfl⟩, ?_, (h.fifo.del hlist).congr rfl rfl⟩,
      .one (e := .deleted u (.waiting l)) rfl (update_self _ _ _)⟩
    refine h.rend.step (p := .qready l c) rfl trivial hheld (fun r => ?_) (fun v r hv => ?_)
      fun _ _ hw => hw.append (by simp)
    · exact Subset.refl _
    · have hv := (out_goto (s := s.delthread (.waiting l) u) hc).mp hv
      exact ((out_del h.lists hu).mp hv).resolve_right (by simp)

/-- A thread returns from a call: only what is known of the `RWLock`s may change. -/
theorem Inv.return {A B : ω → List θ} (ht : (s.pc t).waitsOn = none) {n : Nat}
    (hs : s' = { (s.happens (.returned t n)).goto t .user with
      readers := R, writer := W, rheld := A, wheld := B }) (hrw : ∀ l, RWInv s' l) :
    Inv lockOf s' ∧ StepSafe lockOf s s' := by
  subst hs
  exact ⟨⟨(h.lists.goto (p := .user) ht.symm).congr ⟨rfl, rfl, rfl⟩,
    fun l' => ((h.q l').goto (p := .user) ht.symm (by simp)).congr ⟨rfl, rfl, rfl⟩ rfl rfl, hrw,
    (h.hands.goto (p := .user) ht.symm (by simp)).congr ⟨rfl, rfl, rfl⟩,
    h.rend.step (t := t) (p := .user) rfl trivial (fun _ _ _ => id)
      (fun _ => Subset.refl _) (fun u r hu => (out_goto (p := .user) ht.symm).mp hu)
      fun u r hw => hw.append (by simp), h.fifo.append (e := .returned t n) rfl trivial rfl⟩,
    .one (e := .returned t n) rfl trivial⟩

/-- An `RWLock` is locked for reading, or the thread has to wait. -/
theorem Inv.threadrlock (ht : (s.pc t).waitsOn = none) (l : ω) (block alone : Bool) :
    Good lockOf s (s.threadrlock t l block alone) := by
  rw [Sys.threadrlock]
  by_cases hfree : s.writer l = none ∧ s.list (.wwaiting l) = []
  · rw [if_pos hfree]
    exact .inr ⟨_, rfl, h.return ht rfl (RWInv.rlock h.rw hfree.1 hfree.2 ht)⟩
  · rw [if_neg hfree]
    exact h.busy block alone (h.wait (p := .rswitch l) (q := .rwaiting l) ht rfl (by simp)
      (by simp) trivial (by simp) (by simp) (by rintro l' ⟨⟩; exact not_and_or.mp hfree) (by simp))

/-- An `RWLock` is locked for writing, or the thread has to wait. -/
theorem Inv.threadwlock (ht : (s.pc t).waitsOn = none) (l : ω) (block alone : Bool) :
    Good lockOf s (s.threadwlock t l block alone) := by
  rw [Sys.threadwlock]
  by_cases hfree : s.writer l = none ∧ s.readers l = 0
  · rw [if_pos hfree]
    exact .inr ⟨_, rfl, h.return ht rfl (RWInv.wlock h.rw hfree.1 hfree.2 ht)⟩
  rw [if_neg hfree]
  have hpos := (h.rw l).readers_nonneg
  refine h.busy block alone (h.wait (p := .wswitch l) (q := .wwaiting l) ht rfl (by simp)
    (by simp) trivial (by simp) (by simp) (by simp) ?_)
  rintro l' ⟨⟩
  exact (not_and_or.mp hfree).imp id fun hne => by omega

end

/-- The invariants without those of `l`, which has no writer. -/
structure Mid (lockOf : ρ → κ) (s : Sys θ κ ω ρ) (l : ω) : Prop where
  lists : Lists s
  q : ∀ l, QInv s l
  rw : ∀ l', l' ≠ l → RWInv s l'
  unowned : Unowned s l
  hands : Hands s
  rend : RendInv lockOf s
  fifo : Fifo s

variable {l : ω}

/-- An `RWLock` is unlocked. -/
theorem Inv.unlocked {A B : ω → List θ} (h : Inv lockOf s)
    (hs : s' = { s with readers := R, writer := W, rheld := A, wheld := B })
    (hrw : ∀ l', l' ≠ l → R l' = s.readers l' ∧ W l' = s.writer l' ∧ A l' = s.rheld l' ∧
      B l' = s.wheld l') (hun : Unowned s' l) : Mid lockOf s' l := by
  subst hs
  refine ⟨h.lists.congr ⟨rfl, rfl, rfl⟩, fun l' => (h.q l').congr ⟨rfl, rfl, rfl⟩ rfl rfl,
    fun l' hl => ?_, hun, h.hands.congr ⟨rfl, rfl, rfl⟩,
    h.rend.same rfl rfl (fun _ => Subset.refl _) (fun _ _ => id) fun _ _ => id,
    h.fifo.congr rfl rfl⟩
  obtain ⟨hR, hW, hA, hB⟩ := hrw l' hl
  exact (h.rw l').congr ⟨rfl, rfl, rfl⟩ hR hW hA hB

/-- One round of the loop of `threadwunlock`. -/
theorem Mid.wakereader (h : Mid lockOf s l) (hu : s.list (.rwaiting l) = u :: us) :
    Mid lockOf ({ s.delthread (.rwaiting l) u with
      readers := update s.readers l (s.readers l + 1) }._threadready u) l := by
  have hmem : u ∈ s.list (.rwaiting l) := by simp [hu]
  have hout : (s.delthread (.rwaiting l) u).Out u (.rwaiting l) :=
    (out_del h.lists hmem).mpr (.inr ⟨rfl, rfl⟩)
  have hrun : u ∉ (s.delthread (.rwaiting l) u).runqueue := h.lists.not_ready_of_mem hmem
  refine ⟨((h.lists.del hmem).threadready hout hrun).congr ⟨rfl, rfl, rfl⟩,
    fun l' => (((h.q l').del h.lists hmem (by simp)).threadready hout (by simp)).congr
      ⟨rfl, rfl, rfl⟩ rfl rfl, fun l' hl => ?_, h.unowned.wakereader h.lists hmem,
    ((h.hands.del h.lists hmem).threadready hout (by simp)).congr ⟨rfl, rfl, rfl⟩, ?_,
    (h.fifo.del hu).congr rfl rfl⟩
  · have hne : (Threadlist.rwaiting l : Threadlist κ ω ρ) ≠ .rwaiting l' := by
      simpa using Ne.symm hl
    exact (((h.rw l' hl).del h.lists hmem hne (by simp)).threadready hout hne).congr
      ⟨rfl, rfl, rfl⟩ (update_of_ne hl _ _) rfl rfl rfl
  · exact h.rend.same rfl rfl (fun _ => Subset.refl _)
      (fun v r hv => ((out_del h.lists hmem).mp hv).resolve_right (by simp))
      fun _ _ hw => hw.append (by simp)

/-- All the readers that wait get the lock. -/
theorem Mid.wakereaders (n : Nat) (h : Mid lockOf s l) (hn : (s.list (.rwaiting l)).length = n) :
    Mid lockOf (s.wakereaders l n) l ∧ (s.wakereaders l n).pc = s.pc ∧
      (s.wakereaders l n).list (.rwaiting l) = [] ∧
      ∃ es, (s.wakereaders l n).log = s.log ++ es ∧
        ∀ e ∈ es, ∃ u, e = .deleted u (.rwaiting l) := by
  induction n generalizing s with
  | zero => exact ⟨h, rfl, length_eq_zero_iff.mp hn, [], (append_nil _).symm, by simp⟩
  | succ n ih =>
    obtain ⟨u, us, hu⟩ := exists_cons_of_length_eq_add_one hn
    have hn' : (({ s.delthread (.rwaiting l) u with
        readers := update s.readers l (s.readers l + 1) }._threadready u).list
          (.rwaiting l)).length = n := by
      simpa [_threadready, delthread, hu] using hn
    obtain ⟨hmid, hpc, hnil, es, hlog, hes⟩ := ih (h.wakereader hu) hn'
    rw [wakereaders, hu]
    refine ⟨hmid, hpc, hnil, .deleted u (.rwaiting l) :: es, ?_, ?_⟩
    · refine hlog.trans ?_
      simp [_threadready, delthread]
    · intro e he
      rcases mem_cons.mp he with rfl | he
      · exact ⟨u, rfl⟩
      · exact hes e he

/-- The lock goes to the first writer that waits, if there are no readers. -/
theorem Mid.handwriter (h : Mid lockOf s l) (ht : (s.pc t).waitsOn = none)
    (hr : s.list (.rwaiting l) ≠ [] → s.list (.wwaiting l) ≠ []) :
    Inv lockOf (s.handwriter t l) ∧ ((s.handwriter t l).log = s.log ∨
      ∃ u, (s.handwriter t l).log = s.log ++ [.deleted u (.wwaiting l)] ∧
        (s.handwriter t l).writer l = some u) := by
  have hstay : (s.list (.wwaiting l) ≠ [] → 0 < s.readers l) → Inv lockOf s := fun hw =>
    ⟨h.lists, h.q, fun l' => by
      by_cases hl : l' = l
      · exact hl ▸ h.unowned.rwinv hr hw
      · exact h.rw l' hl, h.hands, h.rend, h.fifo⟩
  rw [Sys.handwriter]
  by_cases hreaders : s.readers l = 0
  · rw [if_pos hreaders]
    cases hlist : s.list (.wwaiting l) with
    | nil => exact ⟨hstay fun hne => absurd hlist hne, .inl rfl⟩
    | cons u us =>
      have hu : u ∈ s.list (.wwaiting l) := by simp [hlist]
      have hgo : (Pc.wready u : Pc θ κ ω ρ).waitsOn =
          ((s.delthread (.wwaiting l) u).pc t).waitsOn := ht.symm
      refine ⟨⟨((h.lists.del hu).goto hgo).congr ⟨rfl, rfl, rfl⟩,
        fun l' => (((h.q l').del h.lists hu (by simp)).goto hgo (by simp)).congr
          ⟨rfl, rfl, rfl⟩ rfl rfl, fun l' => ?_,
        (h.hands.handwriter h.lists hu ht).congr ⟨rfl, rfl, rfl⟩, ?_,
        (h.fifo.del hlist).congr rfl rfl⟩, .inr ⟨u, rfl, update_self _ _ _⟩⟩
      · by_cases hl : l' = l
        · subst hl
          exact h.unowned.handwriter h.lists hu hreaders ht
        · have hne : (Threadlist.wwaiting l : Threadlist κ ω ρ) ≠ .wwaiting l' := by
            simpa using Ne.symm hl
          exact (((h.rw l' hl).del h.lists hu (by simp) hne).goto hgo).congr ⟨rfl, rfl, rfl⟩ rfl
            (update_of_ne hl _ _) rfl rfl
      · refine h.rend.step (p := .wready u) rfl trivial (fun _ _ _ => id)
          (fun r => Subset.refl _) (fun v r hv => ?_) fun _ _ hw => hw.append (by simp)
        have hv := (out_goto hgo).mp hv
        exact ((out_del h.lists hu).mp hv).resolve_right (by simp)
  · rw [if_neg hreaders]
    refine ⟨hstay fun _ => ?_, .inl rfl⟩
    have := h.unowned.count
    omega

section User

variable (h : Inv lockOf s) (hpc : s.pc t = .user)
include h hpc

theorem Inv.threadrunlock (ht : t ∈ s.rheld l) : Good lockOf s (.ok (s.threadrunlock t l)) := by
  obtain ⟨hun, -, hr⟩ := (h.rw l).runlock ht
  have hmid := h.unlocked rfl
    (fun l' hl => ⟨update_of_ne hl _ _, rfl, update_of_ne hl _ _, rfl⟩) hun
  obtain ⟨hinv, hlog | ⟨u, hlog, hwriter⟩⟩ := hmid.handwriter (t := t) (by simp [hpc, Pc.waitsOn])
    hr
  · exact .inr ⟨_, rfl, hinv, .none hlog⟩
  · exact .inr ⟨_, rfl, hinv, .one hlog hwriter⟩

theorem Inv.threadwunlock (ht : t ∈ s.wheld l) : Good lockOf s (s.threadwunlock t l) := by
  have hmid := h.unlocked rfl
    (fun l' hl => ⟨rfl, update_of_ne hl _ _, rfl, update_of_ne hl _ _⟩) ((h.rw l).wunlock ht)
  rw [Sys.threadwunlock]
  dsimp only
  rw [if_neg (not_not.mpr ((h.rw l).wheld ht).2.2)]
  obtain ⟨hmid, hpc', hnil, es, hlog, hes⟩ := hmid.wakereaders _ rfl
  have hpct := (congrFun hpc' t).trans hpc
  obtain ⟨hinv, hlog' | ⟨u, hlog', hwriter⟩⟩ := hmid.handwriter (t := t)
    (by rw [hpct]; rfl) (fun hne => absurd hnil hne)
  · refine .inr ⟨_, rfl, hinv, .of_append es (hlog'.trans hlog) fun e he => ?_⟩
    obtain ⟨u, rfl⟩ := hes e he
    trivial
  refine .inr ⟨_, rfl, hinv, .of_append (es ++ [.deleted u (.wwaiting l)]) ?_
    fun e he => ?_⟩
  · rw [hlog', hlog, append_assoc]
  · rcases mem_append.mp he with he | he
    · obtain ⟨u, rfl⟩ := hes e he
      trivial
    · rw [mem_singleton.mp he]
      exact hwriter

theorem Inv.threadrsleep (ht : t ∈ s.qheld (lockOf r)) (alone : Bool) :
    Good lockOf s (s.threadrsleep t r alone) := by
  have hwait : (s.pc t).waitsOn = none := by rw [hpc]; rfl
  cases alone with
  | true => exact .inl rfl
  | false =>
    exact .inr ⟨_, rfl, ⟨h.lists.add hwait rfl, fun l => (h.q l).add hwait rfl (by simp) (by simp),
      fun l => (h.rw l).add h.lists hwait rfl (by simp) (by simp),
      h.hands.add hwait rfl (by simp), h.rend.rsleep h.q hpc ht, (h.fifo.add _ t).congr rfl rfl⟩,
      .one (e := .added t (.sleeping r)) rfl trivial⟩

theorem Inv.rwakeup (ht : t ∈ s.qheld (lockOf r)) (all : Bool) :
    Good lockOf s (.ok ((s.happens (.rwakeup t r)).goto t (.waking r all 0))) := by
  have hgo : (Pc.waking r all 0 : Pc θ κ ω ρ).waitsOn = (s.pc t).waitsOn := by rw [hpc]; rfl
  exact .inr ⟨_, rfl, ⟨(h.lists.goto hgo).congr ⟨rfl, rfl, rfl⟩,
    fun l => ((h.q l).goto hgo (by simp)).congr ⟨rfl, rfl, rfl⟩ rfl rfl,
    fun l => ((h.rw l).goto hgo).congr ⟨rfl, rfl, rfl⟩ rfl rfl rfl rfl,
    (h.hands.goto hgo (by simp)).congr ⟨rfl, rfl, rfl⟩, h.rend.rwakeup h.fifo all hpc ht,
    h.fifo.append (e := .rwakeup t r) rfl trivial rfl⟩, .one (e := .rwakeup t r) rfl trivial⟩

end User

theorem Inv.wakeup (h : Inv lockOf s) {i : Nat} (hpc : s.pc t = .waking r all i) :
    Good lockOf s (.ok (s.wakeup t r all i)) := by
  have hwait : (s.pc t).waitsOn = none := by rw [hpc]; rfl
  have hrw : ∀ l, RWInv ((s.happens (.returned t i)).goto t .user) l := fun l =>
    ((h.rw l).goto (p := .user) hwait.symm).congr ⟨rfl, rfl, rfl⟩ rfl rfl rfl rfl
  refine .inr ⟨_, rfl, ?_⟩
  rw [Sys.wakeup]
  split_ifs
  · exact h.return hwait rfl hrw
  cases hlist : s.list (.sleeping r) with
  | nil => exact h.return hwait rfl hrw
  | cons u us =>
    have hu : u ∈ s.list (.sleeping r) := by simp [hlist]
    have hout : (s.delthread (.sleeping r) u).Out u (.sleeping r) :=
      (out_del h.lists hu).mpr (.inr ⟨rfl, rfl⟩)
    have hrun : u ∉ (s.delthread (.sleeping r) u).runqueue := h.lists.not_ready_of_mem hu
    have hgo : (Pc.waking r all (i + 1) : Pc θ κ ω ρ).waitsOn =
        (((s.delthread (.sleeping r) u)._threadready u).pc t).waitsOn := hwait.symm
    exact ⟨⟨((h.lists.del hu).threadready hout hrun).goto hgo,
      fun l => (((h.q l).del h.lists hu (by simp)).threadready hout (by simp)).goto hgo (by simp),
      fun l => (((h.rw l).del h.lists hu (by simp) (by simp)).threadready hout (by simp)).goto
        hgo,
      ((h.hands.del h.lists hu).threadready hout (by simp)).goto hgo (by simp),
      h.rend.wakeup h.lists hpc hu, (h.fifo.del hlist).congr rfl rfl⟩,
      .one (e := .deleted u (.sleeping r)) rfl trivial⟩

/-- A thread that is ready was taken off the list that it waits on. -/
theorem Lists.out_of_ready (h : Lists s) (hrun : t ∈ s.runqueue)
    (hwait : (s.pc t).waitsOn = some q) : s.Out t q := by
  obtain ⟨q', hout⟩ := h.ready hrun
  have hq : q' = q := some.inj (hout.1.symm.trans hwait)
  exact hq ▸ hout

theorem Sys.resume_map_eq_some {β : Type} {f : Sys θ κ ω ρ → β} {x : β}
    (h : (s.resume t).map f = some x) :
    t ∈ s.runqueue ∧ f { s with runqueue := s.runqueue.erase t } = x := by
  rw [resume] at h
  split_ifs at h with hrun
  · exact ⟨hrun, some.inj h⟩
  · cases h

/-- What a thread that runs again does not change. -/
theorem RendInv.resumed (h : RendInv lockOf s) (hpc : s'.pc = (s.resumed t p).pc)
    (hwait : p.waitsOn = none) (ho : p.outside lockOf) (hlist : s'.list = s.list)
    (hheld : ∀ v l, v ∈ s.qheld l → v ∈ s'.qheld l) (hlog : s'.log = s.log ++ [e]) (he : e.plain) :
    RendInv lockOf s' := by
  refine h.step hpc ho (fun v l _ => hheld v l) (fun r => by rw [hlist]; exact Subset.refl _)
    (fun u r hu => ?_) fun u r hw => ?_
  · refine ((out_resumed (s := s) (t := t) hwait).mp ⟨?_, ?_⟩).1
    · rw [← hpc]
      exact hu.1
    · have := hu.2
      rwa [hlist] at this
  · rw [hlog]
    refine hw.append ?_
    rintro rfl
    exact he

section

variable (h : Inv lockOf s)
include h

/-- The new owner of a `QLock` runs again. -/
theorem Inv.resume_owner {l : κ} (hc : ∀ r, c = .rsleep r → lockOf r = l)
    (hpc : s.pc t = .qswitch l c) (hrun : t ∈ s.runqueue) :
    s.owner l = some t ∧
      Inv lockOf ({ s with runqueue := s.runqueue.erase t }.qlocked t l c) ∧
      StepSafe lockOf s ({ s with runqueue := s.runqueue.erase t }.qlocked t l c) := by
  have hout : s.Out t (.waiting l) := h.lists.out_of_ready hrun (by rw [hpc]; rfl)
  obtain ⟨howner, hheld⟩ := (h.q l).out hout
  obtain ⟨hfifo, hsafe⟩ := qlocked_returns h.fifo hc hheld
  refine ⟨howner, ⟨(h.lists.resumed (p := .user) hout rfl).congr ⟨rfl, rfl, rfl⟩,
    QInv.resume_owner h.q c hout hrun,
    fun l' => ((h.rw l').resumed (p := .user) h.lists hrun hout (by simp) (by simp) rfl).congr
      ⟨rfl, rfl, rfl⟩ rfl rfl rfl rfl,
    (h.hands.resumed (p := .user) hrun rfl (by simp)).congr ⟨rfl, rfl, rfl⟩, ?_, hfifo⟩, hsafe⟩
  cases c with
  | user =>
    exact h.rend.resumed (t := t) (p := .user) (e := .returned t 1) rfl rfl trivial rfl
      (fun _ _ => mem_update_cons) rfl trivial
  | rsleep r =>
    exact h.rend.resumed (t := t) (p := .user) (e := .rsleepReturned t r) rfl rfl trivial rfl
      (fun _ _ => mem_update_cons) rfl trivial

/-- A thread to which an `RWLock` was handed runs again. -/
theorem Inv.rwresumed {A B : ω → List θ} (hrun : t ∈ s.runqueue) (hout : s.Out t q)
    (hq : ∀ l, q ≠ .waiting l)
    (hs : s' = { (s.resumed t .user).happens (.returned t 1) with rheld := A, wheld := B })
    (hrw : ∀ l, RWInv s' l) : Inv lockOf s' ∧ StepSafe lockOf s s' := by
  subst hs
  exact ⟨⟨(h.lists.resumed (p := .user) hout rfl).congr ⟨rfl, rfl, rfl⟩,
    fun l' => ((h.q l').resumed (p := .user) hout (hq l') rfl (by simp)).congr
      ⟨rfl, rfl, rfl⟩ rfl rfl, hrw,
    (h.hands.resumed (p := .user) hrun rfl (by simp)).congr ⟨rfl, rfl, rfl⟩,
    h.rend.resumed (t := t) (p := .user) (e := .returned t 1) rfl rfl trivial rfl (fun _ _ => id)
      rfl trivial, h.fifo.append (e := .returned t 1) rfl trivial rfl⟩,
    .one (e := .returned t 1) rfl trivial⟩

/-- A reader runs again. -/
theorem Inv.resume_reader (hpc : s.pc t = .rswitch l) (hrun : t ∈ s.runqueue) :
    Inv lockOf ({ s with runqueue := s.runqueue.erase t }.rlocked t l) ∧
      StepSafe lockOf s ({ s with runqueue := s.runqueue.erase t }.rlocked t l) := by
  have hout : s.Out t (.rwaiting l) := h.lists.out_of_ready hrun (by rw [hpc]; rfl)
  exact h.rwresumed hrun hout (by simp) rfl (RWInv.resume_reader h.rw h.lists hout hrun)

/-- The new writer runs again. -/
theorem Inv.resume_writer (hpc : s.pc t = .wswitch l) (hrun : t ∈ s.runqueue) :
    Inv lockOf ({ s with runqueue := s.runqueue.erase t }.wlocked t l) ∧
      StepSafe lockOf s ({ s with runqueue := s.runqueue.erase t }.wlocked t l) := by
  have hout : s.Out t (.wwaiting l) := h.lists.out_of_ready hrun (by rw [hpc]; rfl)
  exact h.rwresumed hrun hout (by simp) rfl (RWInv.resume_writer h.rw h.lists hout hrun)

/-- A thread that slept runs again. -/
theorem Inv.resume_sleeper (hpc : s.pc t = .rendswitch r) (hrun : t ∈ s.runqueue) :
    Inv lockOf (({ s with runqueue := s.runqueue.erase t }.happens (.resumed t r)).goto t
        (.relock r)) ∧
      StepSafe lockOf s (({ s with runqueue := s.runqueue.erase t }.happens (.resumed t r)).goto t
        (.relock r)) := by
  have hout : s.Out t (.sleeping r) := h.lists.out_of_ready hrun (by rw [hpc]; rfl)
  exact ⟨⟨(h.lists.resumed (p := .relock r) hout rfl).congr ⟨rfl, rfl, rfl⟩,
    fun l' => ((h.q l').resumed (p := .relock r) hout (by simp) rfl (by simp)).congr
      ⟨rfl, rfl, rfl⟩ rfl rfl,
    fun l' => ((h.rw l').resumed (p := .relock r) h.lists hrun hout (by simp) (by simp) rfl).congr
      ⟨rfl, rfl, rfl⟩ rfl rfl rfl rfl,
    (h.hands.resumed (p := .relock r) hrun rfl (by simp)).congr ⟨rfl, rfl, rfl⟩,
    h.rend.resumed (t := t) (p := .relock r) (e := .resumed t r) rfl rfl trivial rfl
      (fun _ _ => id) rfl trivial, h.fifo.append (e := .resumed t r) rfl trivial rfl⟩,
    .one (e := .resumed t r) rfl (h.rend.out hout)⟩

/-- A thread goes on with its call. -/
theorem Inv.goOn {alone : Bool} {r : Except Abort (Sys θ κ ω ρ)}
    (hgo : goOn lockOf s t alone = some r) : Good lockOf s r := by
  rw [Thread.goOn] at hgo
  cases hpc : s.pc t with
  | user =>
    rw [hpc] at hgo
    cases hgo
  | qswitch l c =>
    rw [hpc] at hgo
    obtain ⟨hrun, rfl⟩ := resume_map_eq_some hgo
    obtain ⟨howner, hinv⟩ := h.resume_owner (fun r hc => h.rend.caller (hc ▸ hpc)) hpc hrun
    rw [if_neg (not_not.mpr howner)]
    exact .inr ⟨_, rfl, hinv⟩
  | qready l c =>
    obtain ⟨u, howner, hout, hrun, hq⟩ := QInv.ready_owner h.q hpc
    rw [hpc] at hgo
    dsimp only at hgo
    rw [howner] at hgo
    cases hgo
    have hnext : (c.next θ κ ω).waitsOn = ((s._threadready u).pc t).waitsOn :=
      c.waitsOn_next.trans (by rw [show (s._threadready u).pc t = _ from hpc])
    exact .inr ⟨_, rfl, ⟨(h.lists.threadready hout hrun).goto hnext, hq,
      fun l' => ((h.rw l').threadready hout (by simp)).goto hnext,
      (h.hands.threadready hout (by simp)).goto hnext (by cases c <;> simp [Caller.next]),
      h.rend.step rfl (by cases c <;> trivial) (fun _ _ _ => id) (fun _ => Subset.refl _)
        (fun u r hu => (out_goto hnext).mp hu) fun _ _ => id, h.fifo.congr rfl rfl⟩, .none rfl⟩
  | rswitch l =>
    rw [hpc] at hgo
    obtain ⟨hrun, rfl⟩ := resume_map_eq_some hgo
    exact .inr ⟨_, rfl, h.resume_reader hpc hrun⟩
  | wswitch l =>
    rw [hpc] at hgo
    obtain ⟨hrun, rfl⟩ := resume_map_eq_some hgo
    exact .inr ⟨_, rfl, h.resume_writer hpc hrun⟩
  | wready u =>
    rw [hpc] at hgo
    cases hgo
    obtain ⟨hrun, l, hout⟩ := h.hands.hand hpc
    have hgo : (Pc.user : Pc θ κ ω ρ).waitsOn = ((s._threadready u).pc t).waitsOn := by
      rw [show (s._threadready u).pc t = _ from hpc]
      rfl
    exact .inr ⟨_, rfl, ⟨(h.lists.threadready hout hrun).goto hgo,
      fun l' => ((h.q l').threadready hout (by simp)).goto hgo (by simp),
      fun l' => ((h.rw l').threadready hout (by simp)).goto hgo, h.hands.ready_writer hpc,
      h.rend.step (p := .user) rfl trivial (fun _ _ _ => id) (fun _ => Subset.refl _)
        (fun u r hu => (out_goto hgo).mp hu) fun _ _ => id, h.fifo.congr rfl rfl⟩, .none rfl⟩
  | sleeping r =>
    rw [hpc] at hgo
    cases hgo
    exact h.threadqunlock (h.rend.sleeping hpc) (by rw [hpc]; rfl)
  | rendswitch r =>
    rw [hpc] at hgo
    obtain ⟨hrun, rfl⟩ := resume_map_eq_some hgo
    exact .inr ⟨_, rfl, h.resume_sleeper hpc hrun⟩
  | relock r =>
    rw [hpc] at hgo
    cases hgo
    exact h.threadqlock (by rw [hpc]; rfl) _ _ _ (by rintro r' ⟨⟩; rfl)
  | waking r all i =>
    rw [hpc] at hgo
    cases hgo
    exact h.wakeup hpc

theorem Inv.exec {a : Act θ κ ω ρ} {r : Except Abort (Sys θ κ ω ρ)}
    (he : exec lockOf s a = some r) :
    Good lockOf s r := by
  have hwait : ∀ {t : θ}, s.pc t = .user → (s.pc t).waitsOn = none := fun hpc => by rw [hpc]; rfl
  cases a with
  | qlock t l block alone =>
    obtain ⟨hpc, he⟩ := ite_none_right_eq_some.mp he
    cases he
    exact h.threadqlock (hwait hpc) l block alone (by simp)
  | qunlock t l =>
    obtain ⟨⟨hpc, ht⟩, he⟩ := ite_none_right_eq_some.mp he
    cases he
    exact h.threadqunlock ht (hwait hpc).symm
  | rlock t l block alone =>
    obtain ⟨hpc, he⟩ := ite_none_right_eq_some.mp he
    cases he
    exact h.threadrlock (hwait hpc) l block alone
  | runlock t l =>
    obtain ⟨⟨hpc, ht⟩, he⟩ := ite_none_right_eq_some.mp he
    cases he
    exact h.threadrunlock hpc ht
  | wlock t l block alone =>
    obtain ⟨hpc, he⟩ := ite_none_right_eq_some.mp he
    cases he
    exact h.threadwlock (hwait hpc) l block alone
  | wunlock t l =>
    obtain ⟨⟨hpc, ht⟩, he⟩ := ite_none_right_eq_some.mp he
    cases he
    exact h.threadwunlock hpc ht
  | rsleep t r alone =>
    obtain ⟨⟨hpc, ht⟩, he⟩ := ite_none_right_eq_some.mp he
    cases he
    exact h.threadrsleep hpc ht alone
  | rwakeup t r all =>
    obtain ⟨⟨hpc, ht⟩, he⟩ := ite_none_right_eq_some.mp he
    cases he
    exact h.rwakeup hpc ht all
  | go t alone => exact h.goOn he

end

theorem Inv.init (lockOf : ρ → κ) : Inv lockOf (init θ κ ω ρ) := by
  have hpc : ∀ v p, p ≠ .user → (Thread.init θ κ ω ρ).pc v ≠ p := fun _ _ h => h.symm
  have hout : ∀ u q, ¬(Thread.init θ κ ω ρ).Out u q := by
    rintro u q ⟨h, -⟩
    cases h
  refine ⟨⟨fun h => absurd h not_mem_nil, fun _ => nodup_nil, nodup_nil,
    fun h => absurd h not_mem_nil⟩, fun l => ⟨fun _ => ⟨rfl, rfl⟩, fun h => ?_,
    fun h => absurd h (hout _ _), fun h => absurd h (hpc _ _ (by simp)),
    fun h => absurd h (hpc _ _ (by simp))⟩, fun l => ⟨fun _ => rfl, fun h => ?_,
    fun h => absurd h (hout _ _), fun h => absurd h (hout _ _), rfl, fun h => absurd rfl h,
    fun h => absurd rfl h⟩, ⟨fun h => absurd h (hpc _ _ (by simp)),
    fun h => absurd h (hpc _ _ (by simp))⟩, ⟨fun h => absurd h (hpc _ _ (by simp)),
    fun h => absurd h (hpc _ _ (by simp)), fun h => absurd h (hout _ _),
    fun h => absurd h (hpc _ _ (by simp))⟩, fun _ => rfl⟩
  · cases h
  · cases h

theorem Reachable.inv (h : Reachable lockOf s) : Inv lockOf s := by
  induction h with
  | init => exact Inv.init lockOf
  | step a _ he ih =>
    obtain h | ⟨s', h, hinv, -⟩ := ih.exec he
    · cases h
    · cases h
      exact hinv

/-- A call that returns with the lock, at once or from `_threadswitch`, makes its caller hold it. -/
def Acquired (s s' : Sys θ κ ω ρ) : Act θ κ ω ρ → Prop
  | .qlock t l _ _ => s'.pc t = .user → s'.log = s.log ++ [.returned t 0] ∨ t ∈ s'.qheld l
  | .rlock t l _ _ => s'.pc t = .user → s'.log = s.log ++ [.returned t 0] ∨ t ∈ s'.rheld l
  | .wlock t l _ _ => s'.pc t = .user → s'.log = s.log ++ [.returned t 0] ∨ t ∈ s'.wheld l
  | .go t _ => match s.pc t with
    | .qswitch l _ => t ∈ s'.qheld l
    | .rswitch l => t ∈ s'.rheld l
    | .wswitch l => t ∈ s'.wheld l
    | _ => True
  | _ => True

theorem acquired_of_exec {s s' : Sys θ κ ω ρ} {a : Act θ κ ω ρ}
    (h : exec lockOf s a = some (.ok s')) : Acquired s s' a := by
  cases a with
  | qlock t l block alone =>
    simp only [exec, threadqlock] at h
    split_ifs at h <;> cases h
    · exact fun _ => .inr (by simp [qlocked])
    · exact fun _ => .inl rfl
    · exact fun hpc => absurd hpc (by simp [goto])
  | rlock t l block alone =>
    simp only [exec, threadrlock] at h
    split_ifs at h <;> cases h
    · exact fun _ => .inr (by simp [rlocked])
    · exact fun _ => .inl rfl
    · exact fun hpc => absurd hpc (by simp [goto])
  | wlock t l block alone =>
    simp only [exec, threadwlock] at h
    split_ifs at h <;> cases h
    · exact fun _ => .inr (by simp [wlocked])
    · exact fun _ => .inl rfl
    · exact fun hpc => absurd hpc (by simp [goto])
  | go t alone =>
    simp only [exec, goOn] at h
    rw [Acquired]
    split <;> simp_all only [resume, Option.map_eq_some_iff]
    · obtain ⟨s₁, -, h⟩ := h
      split_ifs at h
      cases h
      simp [qlocked]
    · obtain ⟨s₁, -, h⟩ := h
      cases h
      simp [rlocked]
    · obtain ⟨s₁, -, h⟩ := h
      cases h
      simp [wlocked]
  | _ => trivial

/-- What the locks are for. -/
structure LocksSafe (lockOf : ρ → κ) (s : Sys θ κ ω ρ) : Prop where
  /-- at most one thread holds a `QLock` -/
  qheld : ∀ l, (s.qheld l).length ≤ 1
  /-- a writer is alone -/
  wheld : ∀ l, s.wheld l ≠ [] → (s.wheld l).length = 1 ∧ s.rheld l = [] ∧ s.readers l = 0
  /-- the lists are queues -/
  fifo : Fifo s
  /-- nobody waits for a lock that is free -/
  waiting : ∀ l, s.list (.waiting l) ≠ [] → s.owner l ≠ none
  rwaiting : ∀ l, s.list (.rwaiting l) ≠ [] → s.writer l ≠ none ∨ s.list (.wwaiting l) ≠ []
  wwaiting : ∀ l, s.list (.wwaiting l) ≠ [] → s.writer l ≠ none ∨ 0 < s.readers l
  /-- no check fails -/
  checks : ∀ a e, exec lockOf s a = some (.error e) → e = .deadlock
  /-- the lock is handed to the thread that is taken off, a thread that slept was woken up, and
  holds the lock when `rsleep` returns -/
  steps : ∀ a s', exec lockOf s a = some (.ok s') → StepSafe lockOf s s'
  /-- whose call returns with a lock holds it -/
  acquires : ∀ a s', exec lockOf s a = some (.ok s') → Acquired s s' a

end Plan9Port.Thread
