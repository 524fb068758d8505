import Plan9Port.Thread.Lock

/-!
# Locks are handed over

A thread that waits is on the list of what it waits for, or it was taken off the list, and then it
has the lock already when it runs again. This is the invariant from which everything about the locks
follows: it says who the owner is, whom a thread that has unlocked will make ready, and what the
checks after `_threadswitch` find.

Each invariant has a lemma for every way in which a step can move threads: a thread goes on, it is
put on a list, taken off, made ready, or it runs again. A step that is about another lock keeps the
invariant by these; the steps that are about the lock itself come after them.
-/

set_option linter.unusedSectionVars false

namespace Plan9Port.Thread

open Sys List Option

open Function

variable {θ κ ω ρ : Type}

/-- The list that a thread waits on. -/
def Pc.waitsOn : Pc θ κ ω ρ → Option (Threadlist κ ω ρ)
  | .qswitch l _ => some (.waiting l)
  | .rswitch l => some (.rwaiting l)
  | .wswitch l => some (.wwaiting l)
  | .sleeping r => some (.sleeping r)
  | .qready _ (.rsleep r) => some (.sleeping r)
  | .rendswitch r => some (.sleeping r)
  | _ => none

/-- A thread was taken off the list that it waits on. -/
def Sys.Out (s : Sys θ κ ω ρ) (u : θ) (q : Threadlist κ ω ρ) : Prop :=
  (s.pc u).waitsOn = some q ∧ u ∉ s.list q

/-- A thread is on the list that it waits on, once, and only those that were taken off are ready. -/
structure Lists (s : Sys θ κ ω ρ) : Prop where
  listed : ∀ {u q}, u ∈ s.list q → (s.pc u).waitsOn = some q
  nodup : ∀ q, (s.list q).Nodup
  ready_nodup : s.runqueue.Nodup
  ready : ∀ {u}, u ∈ s.runqueue → ∃ q, s.Out u q

/-- Whoever was taken off the list of a `QLock` is its owner, and nobody holds it yet. -/
structure QInv (s : Sys θ κ ω ρ) (l : κ) : Prop where
  free : s.owner l = none → s.list (.waiting l) = [] ∧ s.qheld l = []
  owned : ∀ {u}, s.owner l = some u → s.qheld l = [u] ∨ s.qheld l = [] ∧ s.Out u (.waiting l)
  out : ∀ {u}, s.Out u (.waiting l) → s.owner l = some u ∧ s.qheld l = []
  hand : ∀ {v c}, s.pc v = .qready l c → ∃ u, s.Out u (.waiting l) ∧ u ∉ s.runqueue
  one : ∀ {v v' c c'}, s.pc v = .qready l c → s.pc v' = .qready l c' → v = v'

variable [DecidableEq θ] [DecidableEq κ] [DecidableEq ω] [DecidableEq ρ]

/-- How many ready threads were on this list. -/
def Sys.outs (s : Sys θ κ ω ρ) (q : Threadlist κ ω ρ) : Nat :=
  s.runqueue.countP fun u => (s.pc u).waitsOn = some q

/-- The readers of an `RWLock` hold it or were made ready, and whoever was taken off the list of
writers is the writer. -/
structure RWInv (s : Sys θ κ ω ρ) (l : ω) : Prop where
  free : s.writer l = none → s.wheld l = []
  owned : ∀ {u}, s.writer l = some u →
    s.readers l = 0 ∧ (s.wheld l = [u] ∨ s.wheld l = [] ∧ s.Out u (.wwaiting l))
  wout : ∀ {u}, s.Out u (.wwaiting l) → s.writer l = some u ∧ s.wheld l = []
  rout : ∀ {u}, s.Out u (.rwaiting l) → u ∈ s.runqueue
  count : s.readers l = (s.rheld l).length + s.outs (.rwaiting l)
  rwaits : s.list (.rwaiting l) ≠ [] → s.writer l ≠ none ∨ s.list (.wwaiting l) ≠ []
  wwaits : s.list (.wwaiting l) ≠ [] → s.writer l ≠ none ∨ 0 < s.readers l

/-- A writer that was taken off is made ready by one thread only. -/
structure Hands (s : Sys θ κ ω ρ) : Prop where
  hand : ∀ {v u}, s.pc v = .wready u → u ∉ s.runqueue ∧ ∃ l, s.Out u (.wwaiting l)
  one : ∀ {v v' u}, s.pc v = .wready u → s.pc v' = .wready u → v = v'

/-! ## Lists -/

variable {s : Sys θ κ ω ρ} {t u : θ} {q : Threadlist κ ω ρ} {p : Pc θ κ ω ρ}

/-- A thread that waits for nothing is on no list. -/
theorem Lists.notMem (h : Lists s) (ht : (s.pc t).waitsOn = none) (q : Threadlist κ ω ρ) :
    t ∉ s.list q := by
  intro hmem
  rw [h.listed hmem] at ht
  cases ht

theorem Lists.not_ready (h : Lists s) (ht : (s.pc t).waitsOn = none) : t ∉ s.runqueue := by
  intro hmem
  obtain ⟨q, hq, -⟩ := h.ready hmem
  rw [hq] at ht
  cases ht

variable {q' : Threadlist κ ω ρ}

theorem Sys.Out.unique (h : s.Out u q) (h' : s.Out u q') : q = q' := some.inj (h.1.symm.trans h'.1)

@[simp] theorem goto_pc_self : (s.goto t p).pc t = p := update_self _ _ _

theorem goto_pc_of_ne (h : u ≠ t) : (s.goto t p).pc u = s.pc u := update_of_ne h _ _

/-- The thread goes on, and waits for the same as before. -/
theorem out_goto (hp : p.waitsOn = (s.pc t).waitsOn) : (s.goto t p).Out u q ↔ s.Out u q := by
  by_cases hu : u = t
  · subst hu
    simp only [Out, goto, update_self, hp]
  · simp only [Out, goto, update_of_ne hu _ _]

theorem Lists.goto (h : Lists s) (hp : p.waitsOn = (s.pc t).waitsOn) : Lists (s.goto t p) where
  listed := by
    intro u q hu
    by_cases hut : u = t
    · subst hut
      simpa only [Sys.goto, update_self, hp] using h.listed hu
    · simpa only [Sys.goto, update_of_ne hut _ _] using h.listed hu
  nodup := h.nodup
  ready_nodup := h.ready_nodup
  ready := by
    intro u hu
    obtain ⟨q, hq⟩ := h.ready hu
    exact ⟨q, (out_goto hp).mpr hq⟩

/-- The thread is put on a list, and waits there. -/
theorem out_add (ht : (s.pc t).waitsOn = none) (hp : p.waitsOn = some q') :
    ((s.addthread q' t).goto t p).Out u q ↔ s.Out u q := by
  by_cases hu : u = t
  · subst hu
    simp only [Out, goto, addthread, update_self, hp, ht]
    constructor
    · rintro ⟨⟨⟩, h⟩
      simp at h
    · rintro ⟨h, -⟩
      cases h
  · simp only [Out, goto, addthread, update_of_ne hu _ _]
    by_cases hq : q = q'
    · subst hq
      simp [hu]
    · rw [update_of_ne hq _ _]

theorem Lists.add (h : Lists s) (ht : (s.pc t).waitsOn = none) (hp : p.waitsOn = some q) :
    Lists ((s.addthread q t).goto t p) where
  listed := by
    intro u q' hu
    by_cases hut : u = t
    · subst hut
      simp only [Sys.goto, Sys.addthread, update_self, hp] at hu ⊢
      by_cases hq : q' = q
      · rw [hq]
      · rw [update_of_ne hq _ _] at hu
        exact absurd hu (h.notMem ht q')
    · simp only [Sys.goto, Sys.addthread, update_of_ne hut _ _] at hu ⊢
      by_cases hq : q' = q
      · subst hq
        rw [update_self] at hu
        exact h.listed (by simpa [hut] using hu)
      · rw [update_of_ne hq _ _] at hu
        exact h.listed hu
  nodup := by
    intro q'
    simp only [Sys.goto, Sys.addthread]
    by_cases hq : q' = q
    · subst hq
      rw [update_self]
      exact nodup_append.mpr ⟨h.nodup q', nodup_singleton t, by
        intro a ha b hb hab
        rw [mem_singleton.mp hb] at hab
        exact h.notMem ht q' (hab ▸ ha)⟩
    · rw [update_of_ne hq _ _]
      exact h.nodup q'
  ready_nodup := h.ready_nodup
  ready := by
    intro u hu
    obtain ⟨q', hq⟩ := h.ready hu
    exact ⟨q', (out_add ht hp).mpr hq⟩

/-- A thread is taken off its list. -/
theorem out_del {u' : θ} (h : Lists s) (hu' : u' ∈ s.list q') :
    (s.delthread q' u').Out u q ↔ s.Out u q ∨ u = u' ∧ q = q' := by
  simp only [Out, delthread]
  by_cases hq : q = q'
  · subst hq
    rw [update_self, (h.nodup q).mem_erase_iff]
    constructor
    · rintro ⟨hw, hmem⟩
      by_cases hu : u = u'
      · exact .inr ⟨hu, rfl⟩
      · exact .inl ⟨hw, fun h => hmem ⟨hu, h⟩⟩
    · rintro (⟨hw, hmem⟩ | ⟨rfl, -⟩)
      · exact ⟨hw, fun h => hmem h.2⟩
      · exact ⟨h.listed hu', fun h => h.1 rfl⟩
  · rw [update_of_ne hq _ _]
    simp [hq]

theorem Lists.del (h : Lists s) (hu : u ∈ s.list q) : Lists (s.delthread q u) where
  listed := by
    intro v q' hv
    simp only [delthread] at hv ⊢
    by_cases hq : q' = q
    · subst hq
      rw [update_self] at hv
      exact h.listed (mem_of_mem_erase hv)
    · rw [update_of_ne hq _ _] at hv
      exact h.listed hv
  nodup := by
    intro q'
    simp only [delthread]
    by_cases hq : q' = q
    · subst hq
      rw [update_self]
      exact (h.nodup q').erase u
    · rw [update_of_ne hq _ _]
      exact h.nodup q'
  ready_nodup := h.ready_nodup
  ready := by
    intro v hv
    obtain ⟨q', hq⟩ := h.ready hv
    exact ⟨q', (out_del h hu).mpr (.inl hq)⟩

theorem Lists.threadready (h : Lists s) (hu : s.Out u q) (hnot : u ∉ s.runqueue) :
    Lists (s._threadready u) where
  listed := h.listed
  nodup := h.nodup
  ready_nodup := by
    simp only [_threadready]
    exact nodup_append.mpr ⟨h.ready_nodup, nodup_singleton u, by
      intro a ha b hb hab
      rw [mem_singleton.mp hb] at hab
      exact hnot (hab ▸ ha)⟩
  ready := by
    intro v hv
    rcases mem_append.mp hv with hv | hv
    · exact h.ready hv
    · rw [mem_singleton.mp hv]
      exact ⟨q, hu⟩

/-- The thread runs again. -/
def Sys.resumed (s : Sys θ κ ω ρ) (t : θ) (p : Pc θ κ ω ρ) : Sys θ κ ω ρ :=
  { s with runqueue := s.runqueue.erase t }.goto t p

theorem out_resumed (hp : p.waitsOn = none) : (s.resumed t p).Out u q ↔ s.Out u q ∧ u ≠ t := by
  by_cases hu : u = t
  · subst hu
    simp [Out, resumed, goto, hp]
  · simp [Out, resumed, goto, hu]

theorem Lists.resumed (h : Lists s) (hout : s.Out t q) (hp : p.waitsOn = none) :
    Lists (s.resumed t p) where
  listed := by
    intro u q' hu
    by_cases hut : u = t
    · subst hut
      have hq : q' = q := some.inj ((h.listed hu).symm.trans hout.1)
      exact absurd (hq ▸ hu) hout.2
    · simpa only [Sys.resumed, Sys.goto, update_of_ne hut _ _] using h.listed hu
  nodup := h.nodup
  ready_nodup := h.ready_nodup.erase t
  ready := by
    intro u hu
    obtain ⟨hut, hu⟩ := h.ready_nodup.mem_erase_iff.mp hu
    obtain ⟨q', hq⟩ := h.ready hu
    exact ⟨q', (out_resumed hp).mpr ⟨hq, hut⟩⟩

/-- The threads are where they were. -/
structure SameThreads (s s' : Sys θ κ ω ρ) : Prop where
  pc : s'.pc = s.pc
  list : s'.list = s.list
  runqueue : s'.runqueue = s.runqueue

variable {s' : Sys θ κ ω ρ}

theorem SameThreads.out (h : SameThreads s s') : s'.Out u q ↔ s.Out u q := by
  simp only [Out, h.pc, h.list]

theorem Lists.congr (h : Lists s) (hs : SameThreads s s') : Lists s' where
  listed := by
    intro u q hu
    rw [hs.list] at hu
    rw [hs.pc]
    exact h.listed hu
  nodup := by
    intro q
    rw [hs.list]
    exact h.nodup q
  ready_nodup := by
    rw [hs.runqueue]
    exact h.ready_nodup
  ready := by
    intro u hu
    rw [hs.runqueue] at hu
    obtain ⟨q, hq⟩ := h.ready hu
    exact ⟨q, hs.out.mpr hq⟩

/-! ## `QLock`s -/

variable {c : Caller ρ} {v : θ}

section QLock

variable {l : κ}

/-- What has to stay for a `QLock` that a step is not about. -/
theorem QInv.frame (h : QInv s l) (howner : s'.owner l = s.owner l) (hheld : s'.qheld l = s.qheld l)
    (hlist : s.owner l = none → s.list (.waiting l) = [] → s'.list (.waiting l) = [])
    (hout : ∀ u, s'.Out u (.waiting l) ↔ s.Out u (.waiting l))
    (hready : ∀ v c, s'.pc v = .qready l c → s.pc v = .qready l c)
    (hrun : ∀ u, s.Out u (.waiting l) → u ∉ s.runqueue → u ∉ s'.runqueue) : QInv s' l where
  free := by
    rw [howner, hheld]
    intro hnone
    exact ⟨hlist hnone (h.free hnone).1, (h.free hnone).2⟩
  owned := by
    intro u hu
    rw [howner] at hu
    rw [hheld, hout]
    exact h.owned hu
  out := by
    intro u hu
    rw [howner, hheld]
    exact h.out ((hout u).mp hu)
  hand := by
    intro v c hv
    obtain ⟨u, hu, hnot⟩ := h.hand (hready v c hv)
    exact ⟨u, (hout u).mpr hu, hrun u hu hnot⟩
  one := fun hv hv' => h.one (hready _ _ hv) (hready _ _ hv')

theorem QInv.congr (h : QInv s l) (hs : SameThreads s s') (howner : s'.owner l = s.owner l)
    (hheld : s'.qheld l = s.qheld l) : QInv s' l :=
  h.frame howner hheld (by simp [hs.list]) (fun _ => hs.out) (by simp [hs.pc])
    (by simp [hs.runqueue])

theorem pc_of_goto {p' : Pc θ κ ω ρ} (h : (s.goto t p).pc v = p') :
    v = t ∧ p = p' ∨ v ≠ t ∧ s.pc v = p' := by
  by_cases hv : v = t
  · subst hv
    exact .inl ⟨rfl, by rwa [goto_pc_self] at h⟩
  · exact .inr ⟨hv, by rwa [goto_pc_of_ne hv] at h⟩

theorem qready_of_goto (hp : ∀ c, p ≠ .qready l c) (h : (s.goto t p).pc v = .qready l c) :
    s.pc v = .qready l c := by
  obtain ⟨-, hc⟩ | ⟨-, h⟩ := pc_of_goto h
  · exact absurd hc (hp c)
  · exact h

section

variable (h : QInv s l)
include h

theorem QInv.goto (hp : p.waitsOn = (s.pc t).waitsOn) (hready : ∀ c, p ≠ .qready l c) :
    QInv (s.goto t p) l :=
  h.frame rfl rfl (fun _ => id) (fun _ => out_goto hp) (fun _ _ => qready_of_goto hready)
    fun _ _ => id

theorem QInv.add (ht : (s.pc t).waitsOn = none) (hp : p.waitsOn = some q)
    (hready : ∀ c, p ≠ .qready l c) (howner : q = .waiting l → s.owner l ≠ none) :
    QInv ((s.addthread q t).goto t p) l := by
  refine h.frame rfl rfl ?_ (fun _ => out_add ht hp) (fun v c hv => ?_) fun _ _ => id
  · intro hnone hnil
    have hne : (Threadlist.waiting l : Threadlist κ ω ρ) ≠ q := fun h => howner h.symm hnone
    simp only [Sys.goto, Sys.addthread, update_of_ne hne _ _]
    exact hnil
  · exact qready_of_goto (s := s.addthread q t) hready hv

theorem QInv.del (hl : Lists s) (hu : u ∈ s.list q) (hne : q ≠ .waiting l) :
    QInv (s.delthread q u) l := by
  refine h.frame rfl rfl ?_ (fun v => ?_) (fun _ _ => id) fun _ _ => id
  · intro _ hnil
    simp only [delthread, update_of_ne hne.symm _ _]
    exact hnil
  · rw [out_del hl hu]
    simp [hne.symm]

theorem QInv.threadready (hu : s.Out u q) (hne : q ≠ .waiting l) : QInv (s._threadready u) l := by
  refine h.frame rfl rfl (fun _ => id) (fun v => Iff.rfl) (fun _ _ => id) fun v hv hnot => ?_
  simp only [_threadready, mem_append, mem_singleton, not_or]
  refine ⟨hnot, ?_⟩
  rintro rfl
  exact hne (hu.unique hv)

theorem QInv.resumed (hout : s.Out t q) (hne : q ≠ .waiting l) (hp : p.waitsOn = none)
    (hready : ∀ c, p ≠ .qready l c) : QInv (s.resumed t p) l := by
  refine h.frame rfl rfl (fun _ => id) (fun v => ?_) (fun v c hv => ?_) fun v _ hnot => ?_
  · rw [out_resumed hp]
    refine ⟨And.left, fun hv => ⟨hv, ?_⟩⟩
    rintro rfl
    exact hne (hout.unique hv)
  · exact qready_of_goto hready hv
  · exact fun hmem => hnot (mem_of_mem_erase hmem)

/-- At most one thread holds a `QLock`, and it is the owner. -/
theorem QInv.held (ht : t ∈ s.qheld l) : s.owner l = some t ∧ s.qheld l = [t] := by
  cases howner : s.owner l with
  | none =>
    rw [(h.free howner).2] at ht
    cases ht
  | some u =>
    rcases h.owned howner with hheld | ⟨hheld, -⟩
    · rw [hheld, mem_singleton] at ht
      rw [hheld, ht]
      exact ⟨rfl, rfl⟩
    · rw [hheld] at ht
      cases ht

/-- Nobody who has unlocked still has to make the owner ready. -/
theorem QInv.not_qready (ht : t ∈ s.qheld l) (v : θ) (c : Caller ρ) : s.pc v ≠ .qready l c := by
  intro hv
  obtain ⟨u, hu, -⟩ := h.hand hv
  rw [(h.out hu).2] at ht
  cases ht

end

theorem Caller.waitsOn_next (c : Caller ρ) :
    (c.next θ κ ω).waitsOn = (Pc.qready l c : Pc θ κ ω ρ).waitsOn := by
  cases c <;> rfl

theorem Caller.next_ne (c c' : Caller ρ) : c.next θ κ ω ≠ .qready l c' := by
  cases c <;> simp [Caller.next]

/-- A thread on a list is not ready. -/
theorem Lists.not_ready_of_mem (h : Lists s) (hu : u ∈ s.list q) : u ∉ s.runqueue := by
  intro hmem
  obtain ⟨q', hout⟩ := h.ready hmem
  have hq : q' = q := some.inj (hout.1.symm.trans (h.listed hu))
  exact hout.2 (hq ▸ hu)

section

variable {l : κ} (h : ∀ l, QInv s l)
include h

/-- `qlock` gets a lock that is free. -/
theorem QInv.lock (c : Caller ρ) (howner : s.owner l = none) (ht : (s.pc t).waitsOn = none)
    (l' : κ) :
    QInv ({ s with owner := update s.owner l (some t) }.qlocked t l c) l' := by
  have hgo : QInv (s.goto t .user) l' := (h l').goto ht.symm (by simp)
  by_cases hl : l' = l
  · subst hl
    have hnot : ∀ u, ¬s.Out u (.waiting l') := by
      intro u hu
      rw [((h l').out hu).1] at howner
      cases howner
    have hnot' : ∀ v c, (s.goto t .user).pc v ≠ .qready l' c := by
      intro v c hv
      obtain ⟨u, hu, -⟩ := hgo.hand hv
      exact hnot u ((out_goto (p := .user) ht.symm).mp hu)
    refine ⟨fun hnone => ?_, fun hu => .inl ?_, fun hu => ?_, fun hv => ?_, fun hv => ?_⟩
    · simp [qlocked] at hnone
    · simp only [qlocked, update_self, some.injEq] at hu ⊢
      rw [((h l').free howner).2, hu]
    · exact absurd ((out_goto (p := .user) ht.symm).mp hu) (hnot _)
    · exact absurd hv (hnot' _ _)
    · exact absurd hv (hnot' _ _)
  · exact hgo.congr ⟨rfl, rfl, rfl⟩ (update_of_ne hl _ _) (update_of_ne hl _ _)

/-- `qunlock` makes the lock free if nobody waits. -/
theorem QInv.unlock (ht : t ∈ s.qheld l) (hc : (c.next θ κ ω).waitsOn = (s.pc t).waitsOn)
    (hnil : s.list (.waiting l) = []) (l' : κ) :
    QInv ({ s with
      qheld := update s.qheld l ((s.qheld l).erase t)
      owner := update s.owner l none }.goto t (c.next θ κ ω)) l' := by
  have hgo : QInv (s.goto t (c.next θ κ ω)) l' := (h l').goto hc (Caller.next_ne c)
  by_cases hl : l' = l
  · subst hl
    obtain ⟨-, hheld⟩ := (h l').held ht
    have hnot : ∀ v c', (s.goto t (c.next θ κ ω)).pc v ≠ .qready l' c' := by
      intro v c' hv
      exact (h l').not_qready ht v c' (qready_of_goto (Caller.next_ne c) hv)
    refine ⟨fun _ => ⟨hnil, ?_⟩, fun hu => ?_, fun hu => ?_, fun hv => ?_, fun hv => ?_⟩
    · simp [Sys.goto, hheld]
    · simp [Sys.goto] at hu
    · have := ((h l').out ((out_goto hc).mp hu)).2
      rw [hheld] at this
      cases this
    · exact absurd hv (hnot _ _)
    · exact absurd hv (hnot _ _)
  · exact hgo.congr ⟨rfl, rfl, rfl⟩ (update_of_ne hl _ _) (update_of_ne hl _ _)

/-- `qunlock` hands the lock to the first that waits. -/
theorem QInv.handover (hlists : Lists s) (ht : t ∈ s.qheld l)
    (hc : (Pc.qready l c : Pc θ κ ω ρ).waitsOn = (s.pc t).waitsOn) (hu : u ∈ s.list (.waiting l))
    (l' : κ) :
    QInv (({ s with
      qheld := update s.qheld l ((s.qheld l).erase t)
      owner := update s.owner l (some u) }.delthread (.waiting l) u).goto t (.qready l c)) l' := by
  have hout : ∀ v, ((s.delthread (.waiting l) u).goto t (.qready l c)).Out v (.waiting l') ↔
      s.Out v (.waiting l') ∨ v = u ∧ l' = l := by
    intro v
    rw [out_goto (s := s.delthread (.waiting l) u) hc, out_del hlists hu]
    simp
  by_cases hl : l' = l
  · subst hl
    obtain ⟨-, hheld⟩ := (h l').held ht
    have hnot : ∀ v, ¬s.Out v (.waiting l') := by
      intro v hv
      have := ((h l').out hv).2
      rw [hheld] at this
      cases this
    have hself : ((s.delthread (.waiting l') u).goto t (.qready l' c)).Out u (.waiting l') :=
      (hout u).mpr (.inr ⟨rfl, rfl⟩)
    have hpc : ∀ v c', ((s.delthread (.waiting l') u).goto t (.qready l' c)).pc v = .qready l' c' →
        v = t := by
      intro v c' hv
      by_contra hne
      rw [goto_pc_of_ne hne] at hv
      exact (h l').not_qready ht v c' hv
    refine ⟨fun hnone => ?_, fun hv => .inr ⟨?_, ?_⟩, fun hv => ⟨?_, ?_⟩,
      fun _ => ⟨u, hself, hlists.not_ready_of_mem hu⟩,
      fun hv hv' => (hpc _ _ hv).trans (hpc _ _ hv').symm⟩
    · simp [Sys.goto, Sys.delthread] at hnone
    · simp [Sys.goto, Sys.delthread, hheld]
    · simp only [Sys.goto, Sys.delthread, update_self, some.injEq] at hv
      exact hv ▸ hself
    · obtain ⟨rfl, -⟩ := ((hout _).mp hv).resolve_left (hnot _)
      simp [Sys.goto, Sys.delthread]
    · simp [Sys.goto, Sys.delthread, hheld]
  · have hdel := (h l').del hlists hu (by simpa using Ne.symm hl)
    refine (hdel.goto (s := s.delthread (.waiting l) u) hc ?_).congr ⟨rfl, rfl, rfl⟩
      (update_of_ne hl _ _) (update_of_ne hl _ _)
    simpa using fun h => absurd h.symm hl

/-- The new owner is made ready, by the thread that has unlocked. -/
theorem QInv.ready_owner (hpc : s.pc t = .qready l c) :
    ∃ u, s.owner l = some u ∧ s.Out u (.waiting l) ∧ u ∉ s.runqueue ∧
      ∀ l', QInv ((s._threadready u).goto t (c.next θ κ ω)) l' := by
  obtain ⟨u, hu, hnot⟩ := (h l).hand hpc
  refine ⟨u, ((h l).out hu).1, hu, hnot, fun l' => ?_⟩
  have hc : (c.next θ κ ω).waitsOn = (s.pc t).waitsOn := by
    rw [hpc]
    exact c.waitsOn_next
  by_cases hl : l' = l
  · subst hl
    have hpc' : ∀ v c', ((s._threadready u).goto t (c.next θ κ ω)).pc v ≠ .qready l' c' := by
      intro v c' hv
      obtain ⟨-, hv⟩ | ⟨hvt, hv⟩ := pc_of_goto hv
      · exact Caller.next_ne c c' hv
      · exact hvt ((h l').one hv hpc)
    exact ⟨(h l').free,
      fun hv => by rw [out_goto (s := s._threadready u) hc]; exact (h l').owned hv,
      fun hv => (h l').out ((out_goto hc).mp hv), fun hv => absurd hv (hpc' _ _),
      fun hv => absurd hv (hpc' _ _)⟩
  · exact ((h l').threadready hu (by simpa using Ne.symm hl)).goto hc (Caller.next_ne c)

/-- The new owner runs again, and holds the lock. -/
theorem QInv.resume_owner (c : Caller ρ) (hout : s.Out t (.waiting l)) (hrun : t ∈ s.runqueue)
    (l' : κ) : QInv ({ s with runqueue := s.runqueue.erase t }.qlocked t l c) l' := by
  by_cases hl : l' = l
  · subst hl
    obtain ⟨howner, hheld⟩ := (h l').out hout
    have honly : ∀ u, s.Out u (.waiting l') → u = t := by
      intro u hu
      have := ((h l').out hu).1
      rw [howner, some.injEq] at this
      exact this.symm
    have hpc : ∀ v c', (s.resumed t .user).pc v ≠ .qready l' c' := by
      intro v c' hv
      obtain ⟨u, hu, hnot⟩ := (h l').hand (qready_of_goto (by simp) hv)
      exact hnot (honly u hu ▸ hrun)
    refine ⟨fun hnone => ?_, fun hu => .inl ?_, fun hu => ?_, fun hv => absurd hv (hpc _ _),
      fun hv => absurd hv (hpc _ _)⟩
    · simp [qlocked, howner] at hnone
    · simp only [qlocked, update_self, hheld, howner, some.injEq] at hu ⊢
      rw [hu]
    · obtain ⟨hu, hne⟩ := (out_resumed (s := s) rfl).mp hu
      exact absurd (honly _ hu) hne
  · exact ((h l').resumed hout (by simpa using Ne.symm hl) rfl (by simp)).congr
      ⟨rfl, rfl, rfl⟩ rfl (update_of_ne hl _ _)

end

end QLock

/-! ## `RWLock`s -/

section RWLock

variable {l : ω}

theorem outs_goto (hp : p.waitsOn = (s.pc t).waitsOn) (q : Threadlist κ ω ρ) :
    (s.goto t p).outs q = s.outs q := by
  refine countP_congr fun u _ => ?_
  by_cases hu : u = t
  · subst hu
    simp only [goto, update_self, hp]
  · simp only [goto, update_of_ne hu _ _]

theorem outs_add (hlists : Lists s) (ht : (s.pc t).waitsOn = none) (q q' : Threadlist κ ω ρ) :
    ((s.addthread q' t).goto t p).outs q = s.outs q := by
  refine countP_congr fun u hu => ?_
  have hne : u ≠ t := by
    rintro rfl
    exact hlists.not_ready ht hu
  simp only [goto, addthread, update_of_ne hne _ _]

theorem outs_threadready (hu : s.Out u q) (q' : Threadlist κ ω ρ) :
    (s._threadready u).outs q' = s.outs q' + if q = q' then 1 else 0 := by
  simp only [outs, _threadready, countP_append, countP_singleton, hu.1,
    some.injEq, decide_eq_true_eq]
  rfl

theorem outs_resumed (hlists : Lists s) (hrun : t ∈ s.runqueue) (hout : s.Out t q)
    (q' : Threadlist κ ω ρ) : (s.resumed t p).outs q' + (if q = q' then 1 else 0) = s.outs q' := by
  have hcongr : (s.resumed t p).outs q' =
      (s.runqueue.erase t).countP fun u => (s.pc u).waitsOn = some q' := by
    refine countP_congr fun u hu => ?_
    have hne : u ≠ t := (hlists.ready_nodup.mem_erase_iff.mp hu).1
    simp only [resumed, goto, update_of_ne hne _ _]
  rw [hcongr, outs, (perm_cons_erase hrun).countP_eq, countP_cons, hout.1]
  simp only [some.injEq, decide_eq_true_eq]

section

variable (h : RWInv s l)
include h

/-- What has to stay for an `RWLock` that a step is not about. -/
theorem RWInv.frame (hreaders : s'.readers l = s.readers l) (hwriter : s'.writer l = s.writer l)
    (hrheld : s'.rheld l = s.rheld l) (hwheld : s'.wheld l = s.wheld l)
    (hrlist : s'.list (.rwaiting l) = s.list (.rwaiting l))
    (hwlist : s'.list (.wwaiting l) = s.list (.wwaiting l))
    (hwout : ∀ u, s'.Out u (.wwaiting l) ↔ s.Out u (.wwaiting l))
    (hrout : ∀ u, s'.Out u (.rwaiting l) → s.Out u (.rwaiting l) ∧ (u ∈ s.runqueue →
      u ∈ s'.runqueue)) (hcount : s'.outs (.rwaiting l) = s.outs (.rwaiting l)) : RWInv s' l where
  free := by
    rw [hwriter, hwheld]
    exact h.free
  owned := by
    intro u hu
    rw [hwriter] at hu
    rw [hreaders, hwheld, hwout]
    exact h.owned hu
  wout := by
    intro u hu
    rw [hwriter, hwheld]
    exact h.wout ((hwout u).mp hu)
  rout := by
    intro u hu
    exact (hrout u hu).2 (h.rout (hrout u hu).1)
  count := by
    rw [hreaders, hrheld, hcount]
    exact h.count
  rwaits := by
    rw [hrlist, hwlist, hwriter]
    exact h.rwaits
  wwaits := by
    rw [hwlist, hwriter, hreaders]
    exact h.wwaits

theorem RWInv.congr (hs : SameThreads s s') (hreaders : s'.readers l = s.readers l)
    (hwriter : s'.writer l = s.writer l) (hrheld : s'.rheld l = s.rheld l)
    (hwheld : s'.wheld l = s.wheld l) : RWInv s' l := by
  refine h.frame hreaders hwriter hrheld hwheld (by rw [hs.list]) (by rw [hs.list])
    (fun _ => hs.out) (fun _ hu => ⟨hs.out.mp hu, by rw [hs.runqueue]; exact id⟩) ?_
  simp only [outs, hs.pc, hs.runqueue]

theorem RWInv.goto (hp : p.waitsOn = (s.pc t).waitsOn) : RWInv (s.goto t p) l :=
  h.frame rfl rfl rfl rfl rfl rfl (fun _ => out_goto hp) (fun _ hu => ⟨(out_goto hp).mp hu, id⟩)
    (outs_goto hp _)

theorem RWInv.add (hlists : Lists s) (ht : (s.pc t).waitsOn = none) (hp : p.waitsOn = some q)
    (hr : q = .rwaiting l → s.writer l ≠ none ∨ s.list (.wwaiting l) ≠ [])
    (hw : q = .wwaiting l → s.writer l ≠ none ∨ 0 < s.readers l) :
    RWInv ((s.addthread q t).goto t p) l where
  free := h.free
  owned := by
    intro u hu
    rw [out_add ht hp]
    exact h.owned hu
  wout := fun hu => h.wout ((out_add ht hp).mp hu)
  rout := fun hu => h.rout ((out_add ht hp).mp hu)
  count := by
    rw [outs_add hlists ht]
    exact h.count
  rwaits := by
    simp only [Sys.goto, Sys.addthread]
    by_cases hq : q = .wwaiting l
    · intro _
      right
      rw [hq, update_self]
      simp
    · rw [update_of_ne (Ne.symm hq) _ _]
      by_cases hq' : q = .rwaiting l
      · exact fun _ => hr hq'
      · rw [update_of_ne (Ne.symm hq') _ _]
        exact h.rwaits
  wwaits := by
    simp only [Sys.goto, Sys.addthread]
    by_cases hq : q = .wwaiting l
    · exact fun _ => hw hq
    · rw [update_of_ne (Ne.symm hq) _ _]
      exact h.wwaits

theorem RWInv.del (hlists : Lists s) (hu : u ∈ s.list q) (hr : q ≠ .rwaiting l)
    (hw : q ≠ .wwaiting l) : RWInv (s.delthread q u) l := by
  refine h.frame rfl rfl rfl rfl (update_of_ne hr.symm _ _) (update_of_ne hw.symm _ _) (fun v => ?_)
    (fun v hv => ⟨?_, id⟩) rfl
  · rw [out_del hlists hu]
    simp [hw.symm]
  · rw [out_del hlists hu] at hv
    simpa [hr.symm] using hv

theorem RWInv.threadready (hu : s.Out u q) (hr : q ≠ .rwaiting l) : RWInv (s._threadready u) l := by
  refine h.frame rfl rfl rfl rfl rfl rfl (fun v => Iff.rfl)
    (fun v hv => ⟨hv, mem_append_left _⟩) ?_
  rw [outs_threadready hu, if_neg hr, Nat.add_zero]

theorem RWInv.resumed (hlists : Lists s) (hrun : t ∈ s.runqueue) (hout : s.Out t q)
    (hr : q ≠ .rwaiting l) (hw : q ≠ .wwaiting l) (hp : p.waitsOn = none) :
    RWInv (s.resumed t p) l := by
  refine h.frame rfl rfl rfl rfl rfl rfl (fun v => ?_) (fun v hv => ?_) ?_
  · rw [out_resumed hp]
    refine ⟨And.left, fun hv => ⟨hv, ?_⟩⟩
    rintro rfl
    exact hw (hout.unique hv)
  · obtain ⟨hv, hne⟩ := (out_resumed hp).mp hv
    exact ⟨hv, fun hmem => (mem_erase_of_ne hne).mpr hmem⟩
  · have := outs_resumed (p := p) hlists hrun hout (.rwaiting l)
    rwa [if_neg hr, Nat.add_zero] at this

/-- Whoever holds an `RWLock` for writing is the writer, and there are no readers. -/
theorem RWInv.wheld (ht : t ∈ s.wheld l) :
    s.writer l = some t ∧ s.wheld l = [t] ∧ s.readers l = 0 := by
  cases hwriter : s.writer l with
  | none =>
    rw [h.free hwriter] at ht
    cases ht
  | some u =>
    obtain ⟨hreaders, hheld | ⟨hheld, -⟩⟩ := h.owned hwriter
    · rw [hheld, mem_singleton] at ht
      rw [hheld, ht]
      exact ⟨rfl, rfl, hreaders⟩
    · rw [hheld] at ht
      cases ht

theorem RWInv.readers_nonneg : (s.rheld l).length ≤ s.readers l := by
  rw [h.count]
  omega

end

/-- `rlock` gets the lock at once. -/
theorem RWInv.rlock (h : ∀ l, RWInv s l) {l : ω} (hwriter : s.writer l = none)
    (hwlist : s.list (.wwaiting l) = []) (ht : (s.pc t).waitsOn = none) (l' : ω) :
    RWInv ({ s with readers := update s.readers l (s.readers l + 1) }.rlocked t l) l' := by
  have hgo : RWInv (s.goto t .user) l' := (h l').goto ht.symm
  by_cases hl : l' = l
  · subst hl
    refine ⟨hgo.free, fun hu => ?_, hgo.wout, hgo.rout, ?_, hgo.rwaits, fun hne => ?_⟩
    · exact absurd (hwriter.symm.trans hu) (by simp)
    · have hcount := hgo.count
      simp only [rlocked, update_self, length_cons]
      change s.readers l' + 1 = _ + ((s.goto t .user).outs (.rwaiting l') : Int)
      change s.readers l' = (s.rheld l').length + _ at hcount
      omega
    · exact absurd hwlist hne
  · exact hgo.congr ⟨rfl, rfl, rfl⟩ (update_of_ne hl _ _) rfl (update_of_ne hl _ _) rfl

/-- `wlock` gets the lock at once. -/
theorem RWInv.wlock (h : ∀ l, RWInv s l) {l : ω} (hwriter : s.writer l = none)
    (hreaders : s.readers l = 0) (ht : (s.pc t).waitsOn = none) (l' : ω) :
    RWInv ({ s with writer := update s.writer l (some t) }.wlocked t l) l' := by
  have hgo : RWInv (s.goto t .user) l' := (h l').goto ht.symm
  by_cases hl : l' = l
  · subst hl
    have hsome : ({ s with writer := update s.writer l' (some t) }.wlocked t l').writer l' =
        some t := update_self _ _ _
    refine ⟨fun hnone => ?_, fun hu => ⟨hreaders, .inl ?_⟩, fun hu => ?_, hgo.rout, hgo.count,
      fun _ => ?_, fun _ => ?_⟩
    · rw [hsome] at hnone
      cases hnone
    · rw [hsome, some.injEq] at hu
      simp [wlocked, (h l').free hwriter, hu]
    · have := (hgo.wout hu).1
      exact absurd (hwriter.symm.trans this) (by simp)
    · rw [hsome]
      simp
    · rw [hsome]
      simp
  · exact hgo.congr ⟨rfl, rfl, rfl⟩ rfl (update_of_ne hl _ _) rfl (update_of_ne hl _ _)

/-- An `RWLock` without a writer, of which those who wait may not know yet. -/
structure Unowned (s : Sys θ κ ω ρ) (l : ω) : Prop where
  writer : s.writer l = none
  wheld : s.wheld l = []
  wout : ∀ u, ¬s.Out u (.wwaiting l)
  rout : ∀ {u}, s.Out u (.rwaiting l) → u ∈ s.runqueue
  count : s.readers l = (s.rheld l).length + s.outs (.rwaiting l)

/-- If readers wait, it is for a writer, and if writers wait, it is for readers. -/
theorem Unowned.rwinv (h : Unowned s l) (hr : s.list (.rwaiting l) ≠ [] → s.list (.wwaiting l) ≠ [])
    (hw : s.list (.wwaiting l) ≠ [] → 0 < s.readers l) : RWInv s l where
  free _ := h.wheld
  owned hu := absurd (h.writer.symm.trans hu) (by simp)
  wout hu := absurd hu (h.wout _)
  rout := h.rout
  count := h.count
  rwaits hne := .inr (hr hne)
  wwaits hne := .inr (hw hne)

/-- One round of the loop of `threadwunlock`. -/
theorem Unowned.wakereader (h : Unowned s l) (hlists : Lists s) (hu : u ∈ s.list (.rwaiting l)) :
    Unowned ({ s.delthread (.rwaiting l) u with
      readers := update s.readers l (s.readers l + 1) }._threadready u) l := by
  have hself : (s.delthread (.rwaiting l) u).Out u (.rwaiting l) :=
    (out_del hlists hu).mpr (.inr ⟨rfl, rfl⟩)
  refine ⟨h.writer, h.wheld, fun v hv => ?_, fun hv => ?_, ?_⟩
  · exact h.wout v (((out_del hlists hu).mp hv).resolve_right (by simp))
  · rcases (out_del hlists hu).mp hv with hv | ⟨rfl, -⟩
    · exact mem_append_left _ (h.rout hv)
    · exact mem_append_right _ (.head _)
  · have hcount := h.count
    have houts := outs_threadready hself (.rwaiting l)
    rw [if_pos rfl] at houts
    simp only [_threadready, update_self]
    change s.readers l + 1 = _ + (((s.delthread (.rwaiting l) u)._threadready u).outs _ : Int)
    rw [houts]
    change _ = _ + ((s.outs (.rwaiting l) + 1 : Nat) : Int)
    simp only [delthread]
    omega

/-- The first writer that waits gets the lock. -/
theorem Unowned.handwriter (h : Unowned s l) (hlists : Lists s) (hu : u ∈ s.list (.wwaiting l))
    (hreaders : s.readers l = 0) (ht : (s.pc t).waitsOn = none) :
    RWInv (({ s with writer := update s.writer l (some u) }.delthread (.wwaiting l) u).goto t
      (.wready u)) l := by
  have hout : ∀ v q, ((s.delthread (.wwaiting l) u).goto t (.wready u)).Out v q ↔
      s.Out v q ∨ v = u ∧ q = .wwaiting l := by
    intro v q
    rw [out_goto (s := s.delthread (.wwaiting l) u) (p := .wready u) ht.symm, out_del hlists hu]
  have hself := (hout u (.wwaiting l)).mpr (.inr ⟨rfl, rfl⟩)
  refine ⟨fun hnone => ?_, fun hv => ⟨hreaders, .inr ⟨h.wheld, ?_⟩⟩, fun hv => ⟨?_, h.wheld⟩,
    fun hv => ?_, ?_, fun _ => .inl ?_, fun _ => .inl ?_⟩
  · simp [goto, delthread] at hnone
  · simp only [goto, delthread, update_self, some.injEq] at hv
    exact hv ▸ hself
  · obtain ⟨rfl, -⟩ := ((hout _ _).mp hv).resolve_left (h.wout _)
    simp [goto, delthread]
  · exact h.rout (((hout _ _).mp hv).resolve_right (by simp))
  · have hcount :=
      outs_goto (s := s.delthread (.wwaiting l) u) (p := .wready u) ht.symm (.rwaiting l)
    exact h.count.trans (by rw [show s.outs _ = _ from hcount.symm]; rfl)
  · simp [goto, delthread]
  · simp [goto, delthread]

theorem RWInv.runlock (h : RWInv s l) (ht : t ∈ s.rheld l) :
    Unowned { s with
      rheld := update s.rheld l ((s.rheld l).erase t)
      readers := update s.readers l (s.readers l - 1) } l ∧
    0 < s.readers l ∧ (s.list (.rwaiting l) ≠ [] → s.list (.wwaiting l) ≠ []) := by
  have hpos : 0 < (s.rheld l).length := length_pos_of_mem ht
  have hreaders := h.readers_nonneg
  have hwriter : s.writer l = none := by
    cases hwriter : s.writer l with
    | none => rfl
    | some u =>
      have := (h.owned hwriter).1
      omega
  refine ⟨⟨hwriter, h.free hwriter, fun u hu => ?_, h.rout, ?_⟩, by omega, fun hne => ?_⟩
  · have := (h.wout hu).1
    exact absurd (hwriter.symm.trans this) (by simp)
  · have hcount := h.count
    simp only [update_self, length_erase_of_mem ht]
    change s.readers l - 1 = _ + (s.outs (.rwaiting l) : Int)
    omega
  · exact (h.rwaits hne).resolve_left (by simp [hwriter])

theorem RWInv.wunlock (h : RWInv s l) (ht : t ∈ s.wheld l) :
    Unowned { s with
      wheld := update s.wheld l ((s.wheld l).erase t)
      writer := update s.writer l none } l := by
  obtain ⟨hwriter, hheld, hreaders⟩ := h.wheld ht
  refine ⟨update_self _ _ _, by simp [hheld], fun u hu => ?_, h.rout, h.count⟩
  have := (h.wout hu).2
  rw [hheld] at this
  cases this

/-- A reader that was made ready runs again, and holds the lock. -/
theorem RWInv.resume_reader (h : ∀ l, RWInv s l) (hlists : Lists s) {l : ω}
    (hout : s.Out t (.rwaiting l)) (hrun : t ∈ s.runqueue) (l' : ω) :
    RWInv ({ s with runqueue := s.runqueue.erase t }.rlocked t l) l' := by
  by_cases hl : l' = l
  · subst hl
    have hiff : ∀ v q, (s.resumed t .user).Out v q ↔ s.Out v q ∧ v ≠ t := fun v q =>
      out_resumed rfl
    have hne : ∀ v, s.Out v (.wwaiting l') → v ≠ t := by
      rintro v hv rfl
      exact absurd (hout.unique hv) (by simp)
    refine ⟨(h l').free, fun hu => ?_, fun hu => (h l').wout ((hiff _ _).mp hu).1, fun hu => ?_, ?_,
      (h l').rwaits, (h l').wwaits⟩
    · obtain ⟨hr, hheld | ⟨hheld, ho⟩⟩ := (h l').owned hu
      · exact ⟨hr, .inl hheld⟩
      · exact ⟨hr, .inr ⟨hheld, (hiff _ _).mpr ⟨ho, hne _ ho⟩⟩⟩
    · obtain ⟨hu, hne⟩ := (hiff _ _).mp hu
      exact (mem_erase_of_ne hne).mpr ((h l').rout hu)
    · have hcount := (h l').count
      have houts := outs_resumed (p := .user) hlists hrun hout (.rwaiting l')
      rw [if_pos rfl] at houts
      simp only [rlocked, update_self, length_cons]
      change s.readers l' = _ + ((s.resumed t .user).outs (.rwaiting l') : Int)
      omega
  · exact ((h l').resumed hlists hrun hout (by simpa using Ne.symm hl) (by simp) rfl).congr
      ⟨rfl, rfl, rfl⟩ rfl rfl (update_of_ne hl _ _) rfl

/-- The new writer runs again, and holds the lock. -/
theorem RWInv.resume_writer (h : ∀ l, RWInv s l) (hlists : Lists s) {l : ω}
    (hout : s.Out t (.wwaiting l)) (hrun : t ∈ s.runqueue) (l' : ω) :
    RWInv ({ s with runqueue := s.runqueue.erase t }.wlocked t l) l' := by
  by_cases hl : l' = l
  · subst hl
    obtain ⟨hwriter, hheld⟩ := (h l').wout hout
    have hiff : ∀ v q, (s.resumed t .user).Out v q ↔ s.Out v q ∧ v ≠ t := fun v q =>
      out_resumed rfl
    refine ⟨fun hnone => absurd (hwriter.symm.trans hnone) (by simp), fun hu => ?_, fun hu => ?_,
      fun hu => ?_, ?_, (h l').rwaits, (h l').wwaits⟩
    · refine ⟨((h l').owned hu).1, .inl ?_⟩
      have hut := hwriter.symm.trans hu
      rw [some.injEq] at hut
      simp [wlocked, hheld, hut]
    · obtain ⟨hu, hne⟩ := (hiff _ _).mp hu
      have := hwriter.symm.trans ((h l').wout hu).1
      rw [some.injEq] at this
      exact absurd this.symm hne
    · obtain ⟨hu, hne⟩ := (hiff _ _).mp hu
      exact (mem_erase_of_ne hne).mpr ((h l').rout hu)
    · have houts := outs_resumed (p := .user) hlists hrun hout (.rwaiting l')
      rw [if_neg (by simp), Nat.add_zero] at houts
      exact (h l').count.trans (by rw [← houts]; rfl)
  · exact ((h l').resumed hlists hrun hout (by simp) (by simpa using Ne.symm hl) rfl).congr
      ⟨rfl, rfl, rfl⟩ rfl rfl rfl (update_of_ne hl _ _)

end RWLock

/-! ## Writers that are made ready -/

section Hands

theorem wready_of_goto (hp : ∀ u, p ≠ .wready u) (h : (s.goto t p).pc v = .wready u) :
    s.pc v = .wready u := by
  obtain ⟨-, hu⟩ | ⟨-, h⟩ := pc_of_goto h
  · exact absurd hu (hp u)
  · exact h

section

variable (h : Hands s)
include h

theorem Hands.frame (hpc : ∀ v u, s'.pc v = .wready u → s.pc v = .wready u)
    (hout : ∀ u l, s.Out u (.wwaiting l) → u ∉ s.runqueue → s'.Out u (.wwaiting l))
    (hrun : ∀ v u l, s'.pc v = .wready u → s.Out u (.wwaiting l) → u ∉ s.runqueue →
      u ∉ s'.runqueue) :
    Hands s' where
  hand := by
    intro v u hv
    obtain ⟨hnot, l, hl⟩ := h.hand (hpc v u hv)
    exact ⟨hrun v u l hv hl hnot, l, hout u l hl hnot⟩
  one := fun hv hv' => h.one (hpc _ _ hv) (hpc _ _ hv')

theorem Hands.congr (hs : SameThreads s s') : Hands s' :=
  h.frame (by simp [hs.pc]) (fun _ _ hl _ => hs.out.mpr hl) (by simp [hs.runqueue])

theorem Hands.goto (hp : p.waitsOn = (s.pc t).waitsOn) (hready : ∀ u, p ≠ .wready u) :
    Hands (s.goto t p) :=
  h.frame (fun _ _ => wready_of_goto hready) (fun _ _ hl _ => (out_goto hp).mpr hl)
    fun _ _ _ _ _ => id

theorem Hands.add (ht : (s.pc t).waitsOn = none) (hp : p.waitsOn = some q)
    (hready : ∀ u, p ≠ .wready u) : Hands ((s.addthread q t).goto t p) :=
  h.frame (fun _ _ hv => wready_of_goto (s := s.addthread q t) hready hv)
    (fun _ _ hl _ => (out_add ht hp).mpr hl) fun _ _ _ _ _ => id

theorem Hands.del (hlists : Lists s) (hu : u ∈ s.list q) : Hands (s.delthread q u) :=
  h.frame (fun _ _ => id) (fun _ _ hl _ => (out_del hlists hu).mpr (.inl hl)) fun _ _ _ _ _ => id

theorem Hands.threadready (hu : s.Out u q) (hq : ∀ l, q ≠ .wwaiting l) :
    Hands (s._threadready u) := by
  refine h.frame (fun _ _ => id) (fun _ _ hl _ => hl) fun v u' l _ hl hnot => ?_
  simp only [_threadready, mem_append, mem_singleton, not_or]
  refine ⟨hnot, ?_⟩
  rintro rfl
  exact hq l (hu.unique hl)

theorem Hands.resumed (hrun : t ∈ s.runqueue) (hp : p.waitsOn = none)
    (hready : ∀ u, p ≠ .wready u) :
    Hands (s.resumed t p) := by
  refine h.frame (fun _ _ hv => wready_of_goto hready hv) (fun u l hl hnot => ?_)
    fun v u l _ _ hnot hmem => hnot (mem_of_mem_erase hmem)
  refine (out_resumed hp).mpr ⟨hl, ?_⟩
  rintro rfl
  exact hnot hrun

/-- A writer gets the lock, and the thread that has unlocked is going to make it ready. -/
theorem Hands.handwriter (hlists : Lists s) {l : ω} (hu : u ∈ s.list (.wwaiting l))
    (ht : (s.pc t).waitsOn = none) : Hands ((s.delthread (.wwaiting l) u).goto t (.wready u)) := by
  have hout : ∀ v q, s.Out v q → ((s.delthread (.wwaiting l) u).goto t (.wready u)).Out v q := by
    intro v q hv
    exact (out_goto (s := s.delthread (.wwaiting l) u) (p := .wready u) ht.symm).mpr
      ((out_del hlists hu).mpr (.inl hv))
  have hnot : ∀ v, s.pc v ≠ .wready u := by
    intro v hv
    obtain ⟨-, l', hl'⟩ := h.hand hv
    have hq := some.inj (hl'.1.symm.trans (hlists.listed hu))
    exact hl'.2 (hq ▸ hu)
  have hpc : ∀ v u', ((s.delthread (.wwaiting l) u).goto t (.wready u)).pc v = .wready u' →
      v = t ∧ u' = u ∨ s.pc v = .wready u' := by
    intro v u' hv
    obtain ⟨rfl, ⟨⟩⟩ | ⟨-, hv⟩ := pc_of_goto hv
    · exact .inl ⟨rfl, rfl⟩
    · exact .inr hv
  constructor
  · intro v u' hv
    rcases hpc v u' hv with ⟨-, rfl⟩ | hv
    · refine ⟨hlists.not_ready_of_mem hu, l, ?_⟩
      exact (out_goto (s := s.delthread (.wwaiting l) u') (p := .wready u') ht.symm).mpr
        ((out_del hlists hu).mpr (.inr ⟨rfl, rfl⟩))
    · obtain ⟨hrun, l', hl'⟩ := h.hand hv
      exact ⟨hrun, l', hout u' _ hl'⟩
  · intro v v' u' hv hv'
    rcases hpc v u' hv with ⟨rfl, rfl⟩ | hold
    · rcases hpc v' u' hv' with ⟨rfl, -⟩ | hold'
      · rfl
      · exact absurd hold' (hnot v')
    · rcases hpc v' u' hv' with ⟨-, rfl⟩ | hold'
      · exact absurd hold (hnot v)
      · exact h.one hold hold'

/-- The new writer is made ready. -/
theorem Hands.ready_writer (hpc : s.pc t = .wready u) :
    Hands ((s._threadready u).goto t .user) := by
  have hwait : (Pc.user : Pc θ κ ω ρ).waitsOn = ((s._threadready u).pc t).waitsOn := by
    change none = (s.pc t).waitsOn
    rw [hpc]
    rfl
  have hold : ∀ v u', ((s._threadready u).goto t .user).pc v = .wready u' →
      s.pc v = .wready u' := fun v u' hv => wready_of_goto (s := s._threadready u) (by simp) hv
  refine h.frame hold (fun u' l hl _ => (out_goto hwait).mpr hl) fun v u' l hv hl hnot => ?_
  simp only [Sys.goto, Sys._threadready, mem_append, mem_singleton, not_or]
  refine ⟨hnot, ?_⟩
  rintro rfl
  obtain rfl : v = t := h.one (hold v u' hv) hpc
  rw [goto_pc_self] at hv
  cases hv

end

end Hands

end Plan9Port.Thread
