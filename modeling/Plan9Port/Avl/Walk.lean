import Plan9Port.Avl.Ops

/-!
# Walks over a tree that changes

A walk stands on a node of the tree, or has not started, or has come to the end. Deleting the node
a walk stands on takes the walk back to the node before. Inserting a node with the key of the node
a walk stands on takes that node out of the tree and leaves the walk where it is, on a node that is
not in the tree any more; nothing else does. Without it, a walk that only moves forward returns all
the keys that stay in the tree, in order.

Calling `avlnext` or `avlprev` once more at the end of the walk aborts.
-/

namespace Plan9Port.Avl

open AvlTree Avlwalk State List
open Option hiding map_map
open Option (map_some some_inj)

variable {ν κ : Type} [DecidableEq ν] [LinearOrder κ]

/-! ## The calls -/

/-- The walk at an address. -/
def State.walk? (st : State ν) (addr : Nat) : Option (Avlwalk ν) :=
  st.walks.find? (·.addr = addr)

/-- The walk at `w.addr` becomes `w`. -/
def State.setWalk (st : State ν) (w : Avlwalk ν) : State ν :=
  { st with walks := st.walks.map fun v => if v.addr = w.addr then w else v }

/-- `avlwalk`, for the record that `malloc` has found at an address not in use. -/
def avlwalk (addr : Nat) (st : State ν) : Option (State ν) :=
  if (st.walk? addr).isSome then none
  else some { st with walks := ⟨addr, false, false, none⟩ :: st.walks }

/-- `for(a = w->tree->root; a && a->n[i]; a = a->n[i])`. -/
def endmost (st : State ν) (fuel : Nat) (i : Bool) : Option (Option ν) :=
  match st.root with
  | none => some none
  | some a => do
    let x ← outermost st i fuel a
    return some x

/-- A walk goes on. -/
def Avlwalk.next (fuel : Nat) (st : State ν) (w : Avlwalk ν) : Option (Avlwalk ν) :=
  if w.started = false then do
    let a ← endmost st fuel false
    return { w with node := a, started := true }
  else do
    let a ← findsuccessor st fuel w.node
    if a = w.node then none
    else return { w with node := a }

/-- A walk goes back. -/
def Avlwalk.prev (fuel : Nat) (st : State ν) (w : Avlwalk ν) : Option (Avlwalk ν) :=
  if w.started = false then do
    let a ← endmost st fuel true
    return { w with node := a, started := true }
  else if w.moved then return { w with moved := false }
  else do
    let a ← findpredecessor st fuel w.node
    if a = w.node then none
    else return { w with node := a }

/-- The next node. -/
def avlnext (fuel : Nat) (addr : Nat) (st : State ν) : Option (State ν × Option ν) := do
  let w ← st.walk? addr
  let w ← w.next fuel st
  return (st.setWalk w, w.node)

/-- The previous node. -/
def avlprev (fuel : Nat) (addr : Nat) (st : State ν) : Option (State ν × Option ν) := do
  let w ← st.walk? addr
  let w ← w.prev fuel st
  return (st.setWalk w, w.node)

/-- A walk is freed. -/
def endwalk (addr : Nat) (st : State ν) : Option (State ν) :=
  if (st.walk? addr).isNone then none
  else some { st with walks := st.walks.eraseP (·.addr = addr) }

/-- The calls. -/
inductive Call (ν : Type) where
  | insertavl (new : ν)
  | deleteavl (key : ν)
  | avlwalk (addr : Nat)
  | avlnext (addr : Nat)
  | avlprev (addr : Nat)
  | endwalk (addr : Nat)
deriving DecidableEq

/-- A call: the state after it, and the node that it gives back. -/
def exec (cmp : ν → ν → Int) (fuel : Nat) : Call ν → State ν → Option (State ν × Option ν)
  | .insertavl new, st => Avl.insertavl cmp fuel new st
  | .deleteavl key, st => Avl.deleteavl cmp fuel key st
  | .avlwalk addr, st => (Avl.avlwalk addr st).map (·, none)
  | .avlnext addr, st => Avl.avlnext fuel addr st
  | .avlprev addr, st => Avl.avlprev fuel addr st
  | .endwalk addr, st => (Avl.endwalk addr st).map (·, none)

/-- A call that was made. -/
structure Step (ν : Type) where
  before : State ν
  call : Call ν
  out : Option ν
  after : State ν

/-- The steps of a sequence of calls. -/
inductive Run (cmp : ν → ν → Int) (fuel : Nat) : State ν → List (Step ν) → State ν → Prop
  | nil (st : State ν) : Run cmp fuel st [] st
  | cons {st st' st'' : State ν} {c : Call ν} {out : Option ν} {steps : List (Step ν)} :
    exec cmp fuel c st = some (st', out) → Run cmp fuel st' steps st'' →
      Run cmp fuel st (⟨st, c, out, st'⟩ :: steps) st''

/-! ## Where walks stand -/

/-- The tree that a state holds, and each walk at one of its nodes, or at none. -/
structure Standing (key : ν → κ) (st : State ν) (t : AvlTree ν) : Prop where
  tree : SearchTree key st t
  nodup : (st.walks.map Avlwalk.addr).Nodup
  unstarted : ∀ w ∈ st.walks, w.started = false → w.node = none
  node : ∀ w ∈ st.walks, ∀ a, w.node = some a → a ∈ t.inorder

/-- The condition on a step: a node that is inserted does not take the place of another one that a
walk stands on. -/
def Keeps (key : ν → κ) (st : State ν) : Call ν → Prop
  | .insertavl new => ∀ w ∈ st.walks, ∀ a, w.node = some a → key a = key new → a = new
  | _ => True

/-- The calls that can be made: the walk is open, and not at its end already. -/
def Allowed (st : State ν) : Call ν → Prop
  | .insertavl _ => True
  | .deleteavl _ => True
  | .avlwalk addr => st.walk? addr = none
  | .avlnext addr => ∃ w, st.walk? addr = some w ∧ (w.started = true → w.node ≠ none)
  | .avlprev addr => ∃ w, st.walk? addr = some w ∧
      (w.started = true → w.moved = false → w.node ≠ none)
  | .endwalk addr => st.walk? addr ≠ none

omit [LinearOrder κ] [DecidableEq ν] in
/-- The pointers determine the tree. -/
theorem Rep.unique {cell : ν → Avl ν} {p : Option ν} {t t' : AvlTree ν} (h : Rep cell p t)
    (h' : Rep cell p t') (hptr : ptr t = ptr t') : t = t' := by
  induction t generalizing p t' with
  | nil => cases t' with
    | nil => rfl
    | node => cases hptr
  | node l a b r ihl ihr => cases t' with
    | nil => cases hptr
    | node l' a' b' r' =>
      cases hptr
      obtain ⟨-, hl, hr, hb, hrl, hrr⟩ := h
      obtain ⟨-, hl', hr', hb', hrl', hrr'⟩ := h'
      rw [ihl hrl hrl' (hl.symm.trans hl'), ihr hrr hrr' (hr.symm.trans hr'), ← hb, hb']

omit [LinearOrder κ] [DecidableEq ν] in
theorem Holds.unique {st : State ν} {t t' : AvlTree ν} (h : Holds st .root none t)
    (h' : Holds st .root none t') : t = t' :=
  h.rep.unique h'.rep (h.load.symm.trans h'.load)

variable {addr fuel : Nat} {v w : Avlwalk ν} {st : State ν} {t : AvlTree ν}

section Find

omit [DecidableEq ν]

theorem State.walk?_mem (h : st.walk? addr = some w) : w ∈ st.walks ∧ w.addr = addr :=
  ⟨mem_of_find?_eq_some h, by simpa using find?_some h⟩

/-- No two walks have one address, so that a walk is the one at its address. -/
theorem State.walk?_of_mem (hn : (st.walks.map Avlwalk.addr).Nodup) (hw : w ∈ st.walks) :
    st.walk? w.addr = some w := by
  rcases hfind : st.walk? w.addr with _ | v
  · exact absurd (find?_eq_none.mp hfind w hw) (by simp)
  · obtain ⟨hv, haddr⟩ := walk?_mem hfind
    rw [inj_on_of_nodup_map hn hv hw haddr]

theorem State.mem_setWalk_self (hv : v ∈ st.walks) (haddr : v.addr = w.addr) :
    w ∈ (st.setWalk w).walks :=
  mem_map.mpr ⟨v, hv, if_pos haddr⟩

theorem State.mem_setWalk_of_ne (hv : v ∈ st.walks) (haddr : v.addr ≠ w.addr) :
    v ∈ (st.setWalk w).walks :=
  mem_map.mpr ⟨v, hv, if_neg haddr⟩

theorem State.map_addr_setWalk (st : State ν) (w : Avlwalk ν) :
    (st.setWalk w).walks.map Avlwalk.addr = st.walks.map Avlwalk.addr := by
  rw [setWalk, map_map]
  refine map_congr_left fun v _ => ?_
  by_cases h : v.addr = w.addr <;> simp [h]

theorem State.mem_setWalk (h : v ∈ (st.setWalk w).walks) : v = w ∨ v ∈ st.walks := by
  obtain ⟨u, hu, rfl⟩ := mem_map.mp h
  split_ifs
  · exact Or.inl rfl
  · exact Or.inr hu

end Find

/-! ## What the calls on a walk do -/

section

variable (h : Holds st .root none t) (hfuel : t.inorder.length < fuel)
include h hfuel

theorem endmost_spec : endmost st fuel false = some t.inorder.head? := by
  have hroot : st.root = ptr t := h.load
  rcases hx : t.inorder with _ | ⟨x, xs⟩
  · obtain rfl : t = .nil := by
      cases t with
      | nil => rfl
      | node => simp at hx
    simp [endmost, hroot, ptr]
  · rcases t with _ | ⟨l, a, b, r⟩
    · cases hx
    · have hout := outermost_spec h.rep rfl hx hfuel
      simp only [endmost, hroot, ptr, hout]
      rfl

theorem endmost_spec_last : endmost st fuel true = some t.inorder.getLast? := by
  have hmirror := endmost_spec h.mirror (by rwa [inorder_mirror, length_reverse] : _ < fuel)
  rw [inorder_mirror, head?_reverse] at hmirror
  rw [← hmirror]
  have hroot : st.mirror.root = st.root := rfl
  simp only [endmost, hroot, outermost_mirror, Bool.not_false]

end

variable {xs : List ν}

omit [LinearOrder κ] in
theorem next?_mem {x y : ν} (h : next? xs x = some y) : y ∈ xs :=
  (dropWhile_sublist _).mem (mem_of_getElem? h)

omit [LinearOrder κ] in
theorem prev?_mem {x y : ν} (h : prev? xs x = some y) : y ∈ xs := mem_reverse.mp (next?_mem h)

omit [LinearOrder κ] in
theorem next?_ne (hn : xs.Nodup) {x : ν} (hx : x ∈ xs) : next? xs x ≠ some x := by
  obtain ⟨ys, zs, rfl⟩ := append_of_mem hx
  rw [nodup_append, nodup_cons] at hn
  rw [next?_append fun hmem => hn.2.2 x hmem x (.head _) rfl]
  intro hhead
  exact hn.2.1.1 (mem_of_mem_head? hhead)

omit [LinearOrder κ] in
theorem prev?_ne (hn : xs.Nodup) {x : ν} (hx : x ∈ xs) : prev? xs x ≠ some x :=
  next?_ne (nodup_reverse.mpr hn) (mem_reverse.mpr hx)

variable {out : Option ν} {w' : Avlwalk ν} {c : Call ν} {st' : State ν} {cmp : ν → ν → Int}
  {key : ν → κ}

section Standing

section

variable (h : Standing key st t) (hw : w ∈ st.walks) (hfuel : t.inorder.length < fuel)
include h hw hfuel

/-- `avlnext`: from the start to the first node, and from a node to the next. -/
theorem Standing.next :
    w.next fuel st =
      if w.started = false then some { w with node := t.inorder.head?, started := true }
      else w.node.map fun a => { w with node := next? t.inorder a } := by
  rw [Avlwalk.next]
  split_ifs with hstarted
  · rw [endmost_spec h.tree.holds hfuel]
    rfl
  rcases hnode : w.node with _ | a
  · rfl
  · have ha := h.node w hw a hnode
    simp only [findsuccessor_spec h.tree.holds ha hfuel, Lib.some_bind,
      if_neg (next?_ne h.tree.holds.nodup ha), map_some]
    rfl

theorem Standing.prev :
    w.prev fuel st =
      if w.started = false then some { w with node := t.inorder.getLast?, started := true }
      else if w.moved then some { w with moved := false }
      else w.node.map fun a => { w with node := prev? t.inorder a } := by
  rw [Avlwalk.prev]
  split_ifs with hstarted hmoved
  · rw [endmost_spec_last h.tree.holds hfuel]
    rfl
  · rfl
  rcases hnode : w.node with _ | a
  · rfl
  · have ha := h.node w hw a hnode
    simp only [findpredecessor_spec h.tree.holds ha hfuel, Lib.some_bind,
      if_neg (prev?_ne h.tree.holds.nodup ha), map_some]
    rfl

end

omit [DecidableEq ν] in
/-- A walk put in the place of another one. -/
theorem Standing.setWalk (h : Standing key st t) (hunstarted : w.started = false → w.node = none)
    (hnode : ∀ a, w.node = some a → a ∈ t.inorder) : Standing key (st.setWalk w) t := by
  refine ⟨⟨h.tree.holds.withWalks _, h.tree.balanced, h.tree.sorted⟩, ?_, fun v hv => ?_,
    fun v hv => ?_⟩
  · rw [st.map_addr_setWalk]
    exact h.nodup
  · rcases mem_setWalk hv with rfl | hv
    · exact hunstarted
    · exact h.unstarted v hv
  · rcases mem_setWalk hv with rfl | hv
    · exact hnode
    · exact h.node v hv

omit [DecidableEq ν] in
/-- A call that moves a walk has moved one that is there. -/
theorem walk?_bind_eq_some {move : Avlwalk ν → Option (Avlwalk ν)}
    (h : ((st.walk? addr).bind fun w => (move w).bind fun w' => some (st.setWalk w', w'.node)) =
      some (st', out)) :
    ∃ w ∈ st.walks, w.addr = addr ∧ ∃ w', move w = some w' ∧ st' = st.setWalk w' ∧
      out = w'.node := by
  obtain ⟨w, hfind, h⟩ := bind_eq_some_iff.mp h
  obtain ⟨hw, haddr⟩ := walk?_mem hfind
  obtain ⟨w', hmove, h⟩ := bind_eq_some_iff.mp h
  cases h
  exact ⟨w, hw, haddr, w', hmove, rfl, rfl⟩

theorem exec_avlwalk (h : exec cmp fuel (.avlwalk addr) st = some (st', out)) :
    st.walk? addr = none ∧ st' = { st with walks := ⟨addr, false, false, none⟩ :: st.walks } := by
  rcases hfind : st.walk? addr with _ | w
  · simp only [exec, avlwalk, hfind, isSome_none, Bool.false_eq_true, if_false,
      map_some, some_inj, Prod.mk.injEq] at h
    exact ⟨rfl, h.1.symm⟩
  · simp [exec, avlwalk, hfind] at h

theorem exec_endwalk (h : exec cmp fuel (.endwalk addr) st = some (st', out)) :
    st' = { st with walks := st.walks.eraseP (·.addr = addr) } := by
  rcases hfind : st.walk? addr with _ | w
  · simp [exec, endwalk, hfind] at h
  · simp only [exec, endwalk, hfind, isNone_some, Bool.false_eq_true, if_false,
      map_some, some_inj, Prod.mk.injEq] at h
    exact h.1.symm

/-! ## One step -/

section

variable (h : Standing key st t) (hw : w ∈ st.walks) (hfuel : t.inorder.length < fuel)
include h hw hfuel

/-- What `avlnext` and `avlprev` make of a walk is a walk that stands in the tree. -/
theorem Standing.next_stands (hnext : w.next fuel st = some w') :
    w'.addr = w.addr ∧ w'.started = true ∧ ∀ a, w'.node = some a → a ∈ t.inorder := by
  rw [h.next hw hfuel] at hnext
  split_ifs at hnext with hstarted
  · cases hnext
    exact ⟨rfl, rfl, fun a ha => mem_of_mem_head? ha⟩
  · obtain ⟨a, -, rfl⟩ := map_eq_some_iff.mp hnext
    exact ⟨rfl, by simpa using hstarted, fun b hb => next?_mem hb⟩

theorem Standing.prev_stands (hprev : w.prev fuel st = some w') :
    w'.addr = w.addr ∧ w'.started = true ∧ ∀ a, w'.node = some a → a ∈ t.inorder := by
  rw [h.prev hw hfuel] at hprev
  split_ifs at hprev with hstarted hmoved
  · cases hprev
    exact ⟨rfl, rfl, fun a ha => mem_of_mem_getLast? ha⟩
  · cases hprev
    exact ⟨rfl, by simpa using hstarted, h.node w hw⟩
  · obtain ⟨a, -, rfl⟩ := map_eq_some_iff.mp hprev
    exact ⟨rfl, by simpa using hstarted, fun b hb => prev?_mem hb⟩

end

omit [LinearOrder κ] in
theorem mem_retreatAll {found p : Option ν} {ws : List (Avlwalk ν)}
    (hv : v ∈ retreatAll found p ws) :
    (∃ w ∈ ws, (∃ a, found = some a ∧ w.node = some a) ∧
      v = { w with moved := true, node := p, started := w.started && p.isSome }) ∨
    (v ∈ ws ∧ ∀ a, found = some a → v.node ≠ some a) := by
  rcases found with _ | a
  · exact Or.inr ⟨hv, by simp⟩
  · obtain ⟨w, hw, rfl⟩ := mem_map.mp hv
    by_cases hnode : w.node = some a
    · exact Or.inl ⟨w, hw, ⟨a, rfl, hnode⟩, if_pos hnode⟩
    · rw [retreat, if_neg hnode]
      exact Or.inr ⟨hw, fun b hb => by rwa [← some_inj.mp hb]⟩

omit [LinearOrder κ] in
theorem map_addr_retreatAll (found p : Option ν) (ws : List (Avlwalk ν)) :
    (retreatAll found p ws).map Avlwalk.addr = ws.map Avlwalk.addr := by
  rcases found with _ | a
  · rfl
  · rw [retreatAll, map_map]
    refine map_congr_left fun w _ => ?_
    simp only [Function.comp_apply, Avlwalk.retreat]
    split_ifs <;> rfl

variable (hcmp : Compares cmp key)
include hcmp

variable (h : Standing key st t)
include h

theorem Standing.deleteavl {x : ν} {t' : AvlTree ν} (htree : SearchTree key st' t')
    (hwalks : st'.walks = retreatAll (at? (dir cmp x) t.inorder)
      (before (dir cmp x) t.inorder).getLast? st.walks)
    (hinorder : t'.inorder = before (dir cmp x) t.inorder ++ after (dir cmp x) t.inorder) :
    Standing key st' t' := by
  refine ⟨htree, ?_, fun v hv => ?_, fun v hv b hb => ?_⟩
  · rw [hwalks, map_addr_retreatAll]
    exact h.nodup
  · rw [hwalks] at hv
    intro hstarted
    rcases mem_retreatAll hv with ⟨w, hw, ⟨a, -, ha⟩, rfl⟩ | ⟨hv, -⟩
    · -- a walk that stood on a node had started, so that the node before is missing
      have hstart : w.started = true := by
        by_contra hnot
        have := h.unstarted w hw (by simpa using hnot)
        rw [ha] at this
        cases this
      simpa [hstart] using hstarted
    · exact h.unstarted v hv hstarted
  · rw [hwalks] at hv
    rw [hinorder, mem_append]
    rcases mem_retreatAll hv with ⟨w, hw, -, rfl⟩ | ⟨hv, hne⟩
    · exact Or.inl (mem_of_mem_getLast? hb)
    rw [hcmp.mem_before_or_after]
    refine ⟨h.node v hv b hb, fun hkey => ?_⟩
    rcases hat : at? (dir cmp x) t.inorder with _ | a
    · exact hcmp.at?_eq_none hat b (h.node v hv b hb) hkey
    · obtain ⟨ha, hakey⟩ := hcmp.at?_eq_some hat
      refine hne a hat ?_
      rw [hb, SearchTree.key_inj h.tree (h.node v hv b hb) ha (hkey.trans hakey.symm)]

/-- **One step.** Walks stand in the tree after the step, if it keeps the nodes they stand on. -/
theorem exec_standing (hkeeps : Keeps key st c) (hfuel : t.inorder.length < fuel)
    (hexec : exec cmp fuel c st = some (st', out)) :
    ∃ t', Standing key st' t' ∧ t'.inorder.length ≤ t.inorder.length + 1 := by
  cases c with
  | insertavl x =>
    obtain ⟨st1, t', hrun, htree, hwalks, hinorder⟩ := insertavl_spec hcmp h.tree x hfuel
    obtain ⟨rfl, -⟩ := Prod.mk.inj (some.inj (hrun.symm.trans hexec))
    refine ⟨t', ⟨htree, hwalks ▸ h.nodup, hwalks ▸ h.unstarted, fun w hw a ha => ?_⟩, ?_⟩
    · rw [hwalks] at hw
      rw [hinorder, mem_append, mem_cons, or_left_comm, hcmp.mem_before_or_after]
      by_cases hkey : key a = key x
      · exact Or.inl (hkeeps w hw a ha hkey)
      · exact Or.inr ⟨h.node w hw a ha, hkey⟩
    · have := length_before_after cmp t.inorder x
      rw [hinorder, length_append, length_cons]
      omega
  | deleteavl x =>
    obtain ⟨st1, t', hrun, htree, hwalks, hinorder⟩ := deleteavl_spec hcmp h.tree x hfuel
    obtain ⟨rfl, -⟩ := Prod.mk.inj (some.inj (hrun.symm.trans hexec))
    refine ⟨t', h.deleteavl hcmp htree hwalks hinorder, ?_⟩
    have := length_before_after cmp t.inorder x
    rw [hinorder, length_append]
    omega
  | avlwalk addr =>
    obtain ⟨hfree, rfl⟩ := exec_avlwalk hexec
    refine ⟨t, ⟨⟨h.tree.holds.withWalks _, h.tree.balanced, h.tree.sorted⟩, ?_, ?_, ?_⟩,
      Nat.le_succ _⟩
    · refine nodup_cons.mpr ⟨fun hmem => ?_, h.nodup⟩
      obtain ⟨w, hw, haddr⟩ := mem_map.mp hmem
      have := walk?_of_mem h.nodup hw
      rw [haddr, hfree] at this
      cases this
    · exact forall_mem_cons.mpr ⟨fun _ => rfl, h.unstarted⟩
    · refine forall_mem_cons.mpr ⟨fun a ha => ?_, h.node⟩
      cases ha
  | avlnext addr =>
    obtain ⟨w, hw, -, w', hnext, rfl, -⟩ := walk?_bind_eq_some hexec
    obtain ⟨-, hstarted, hnode⟩ := h.next_stands hw hfuel hnext
    exact ⟨t, h.setWalk (fun hnot => by simp [hstarted] at hnot) hnode, Nat.le_succ _⟩
  | avlprev addr =>
    obtain ⟨w, hw, -, w', hprev, rfl, -⟩ := walk?_bind_eq_some hexec
    obtain ⟨-, hstarted, hnode⟩ := h.prev_stands hw hfuel hprev
    exact ⟨t, h.setWalk (fun hnot => by simp [hstarted] at hnot) hnode, Nat.le_succ _⟩
  | endwalk addr =>
    obtain rfl := exec_endwalk hexec
    refine ⟨t, ⟨⟨h.tree.holds.withWalks _, h.tree.balanced, h.tree.sorted⟩, ?_, ?_, ?_⟩,
      Nat.le_succ _⟩
    · exact h.nodup.sublist (eraseP_sublist.map _)
    · exact fun w hw => h.unstarted w (mem_of_mem_eraseP hw)
    · exact fun w hw => h.node w (mem_of_mem_eraseP hw)

/-- No step fails, an abort at the end of a walk apart. -/
theorem exec_total (hallowed : Allowed st c) (hfuel : t.inorder.length < fuel) :
    ∃ r, exec cmp fuel c st = some r := by
  cases c with
  | insertavl x =>
    obtain ⟨st', t', hrun, -⟩ := insertavl_spec hcmp h.tree x hfuel
    exact ⟨_, hrun⟩
  | deleteavl x =>
    obtain ⟨st', t', hrun, -⟩ := deleteavl_spec hcmp h.tree x hfuel
    exact ⟨_, hrun⟩
  | avlwalk addr =>
    have hfree : st.walk? addr = none := hallowed
    exact ⟨_, by simp [exec, avlwalk, hfree]; rfl⟩
  | avlnext addr =>
    obtain ⟨w, hw, hnode⟩ := hallowed
    obtain ⟨w', hnext⟩ : ∃ w', w.next fuel st = some w' := by
      rw [h.next (walk?_mem hw).1 hfuel]
      split_ifs with hstarted
      · exact ⟨_, rfl⟩
      · obtain ⟨a, ha⟩ := ne_none_iff_exists'.mp (hnode (by simpa using hstarted))
        exact ⟨_, by rw [ha]; rfl⟩
    exact ⟨(st.setWalk w', w'.node), by simp [exec, avlnext, hw, hnext]⟩
  | avlprev addr =>
    obtain ⟨w, hw, hnode⟩ := hallowed
    obtain ⟨w', hprev⟩ : ∃ w', w.prev fuel st = some w' := by
      rw [h.prev (walk?_mem hw).1 hfuel]
      split_ifs with hstarted hmoved
      · exact ⟨_, rfl⟩
      · exact ⟨_, rfl⟩
      · obtain ⟨a, ha⟩ := ne_none_iff_exists'.mp
          (hnode (by simpa using hstarted) (by simpa using hmoved))
        exact ⟨_, by rw [ha]; rfl⟩
    exact ⟨(st.setWalk w', w'.node), by simp [exec, avlprev, hw, hprev]⟩
  | endwalk addr =>
    obtain ⟨w, hw⟩ := ne_none_iff_exists'.mp hallowed
    exact ⟨_, by simp [exec, endwalk, hw]; rfl⟩

end Standing

/-! ## What a walk returns -/

/-- The key is in the tree. -/
def HasKey (key : ν → κ) (st : State ν) (k : κ) : Prop :=
  ∃ t, Holds st .root none t ∧ ∃ a ∈ t.inorder, key a = k

/-- The key that a step returns from a walk. -/
def Step.returned (key : ν → κ) (addr : Nat) (s : Step ν) : Option κ :=
  if s.call = .avlnext addr then s.out.map key else none

/-- The keys that a walk has returned. -/
def returned (key : ν → κ) (addr : Nat) (steps : List (Step ν)) : List κ :=
  steps.filterMap (Step.returned key addr)

/-- The walk has come to the key, or further. -/
def Avlwalk.Passed (key : ν → κ) (w : Avlwalk ν) (k : κ) : Prop :=
  w.started = true ∧ ∀ a, w.node = some a → k ≤ key a

/-- A walk that has returned the keys `R`, as far as the keys in `S` are concerned: they came in
order, and they are all those that the walk has passed. -/
structure Tour (key : ν → κ) (R : List κ) (S : κ → Prop) (w : Avlwalk ν) : Prop where
  ordered : R.Pairwise fun k k' => S k → S k' → k < k'
  seen : ∀ k, S k → (k ∈ R ↔ w.Passed key k)

variable {steps : List (Step ν)}

section Tour

variable {R : List κ} {S : κ → Prop}

omit [DecidableEq ν] in
theorem Tour.mono (h : Tour key R S w) {S' : κ → Prop} (hS : ∀ k, S' k → S k) : Tour key R S' w :=
  ⟨h.ordered.imp fun hlt hk hk' => hlt (hS _ hk) (hS _ hk'), fun k hk => h.seen k (hS k hk)⟩

omit [DecidableEq ν] in
omit [LinearOrder κ] in
theorem HasKey.exists (ht : Holds st .root none t) {k : κ} (hk : HasKey key st k) :
    ∃ a ∈ t.inorder, key a = k := by
  obtain ⟨t', ht', ha⟩ := hk
  rwa [ht.unique ht']

omit [DecidableEq ν] in
/-- A walk that returns one more key, which is the next one. -/
theorem Tour.snoc (h : Tour key R S w)
    (hpassed : ∀ k, S k → (w'.Passed key k ↔ w.Passed key k ∨ some k = w'.node.map key))
    (hnew : ∀ k, S k → some k = w'.node.map key → ¬ w.Passed key k) :
    Tour key (R ++ (w'.node.map key).toList) S w' := by
  refine ⟨pairwise_append.mpr ⟨h.ordered, ?_, ?_⟩, fun k hk => ?_⟩
  · rcases w'.node.map key with _ | k
    · exact Pairwise.nil
    · exact pairwise_singleton _ _
  · intro r hr k hk hSr hSk
    have hnode : some k = w'.node.map key := (mem_toList.mp hk).symm
    -- the key that came before has been passed, and the new one had not been
    have hr' : w.Passed key r := (h.seen r hSr).mp hr
    have hk' : w'.Passed key r := (hpassed r hSr).mpr (Or.inl hr')
    obtain ⟨a, ha, rfl⟩ := map_eq_some_iff.mp hnode.symm
    refine lt_of_le_of_ne (hk'.2 a ha) fun heq => ?_
    subst heq
    exact hnew _ hSk hnode hr'
  · rw [mem_append, h.seen k hk, hpassed k hk, mem_toList, eq_comm (a := some k)]

/-- `avlnext` on the walk itself. -/
theorem Tour.next (h : Tour key R S w) (hst : Standing key st t) (hw : w ∈ st.walks)
    (hS : ∀ k, S k → HasKey key st k) (hfuel : t.inorder.length < fuel)
    (hnext : w.next fuel st = some w') : Tour key (R ++ (w'.node.map key).toList) S w' := by
  have hsorted := hst.tree.sorted
  have hstarted := (hst.next_stands hw hfuel hnext).2.1
  rw [hst.next hw hfuel] at hnext
  split_ifs at hnext with hw'
  · -- from the start to the first node
    cases hnext
    have hnot : ∀ k, ¬ w.Passed key k := fun k hk => by
      have := hk.1
      rw [hw'] at this
      cases this
    refine h.snoc (fun k hk => ?_) fun k _ _ => hnot k
    obtain ⟨y, hy, rfl⟩ := (hS k hk).exists hst.tree.holds
    rw [or_iff_right (hnot _)]
    rcases hx : t.inorder with _ | ⟨x, xs⟩
    · rw [hx] at hy
      cases hy
    rw [hx] at hy hsorted
    simp only [Passed, head?_cons, map_some, some_inj, true_and]
    constructor
    · intro hle
      rcases mem_cons.mp hy with rfl | hy
      · rfl
      · exact absurd (hle x rfl) (not_le.mpr ((pairwise_cons.mp hsorted).1 y hy))
    · rintro heq a rfl
      exact heq.le
  · -- from a node to the next
    obtain ⟨a, ha, rfl⟩ := map_eq_some_iff.mp hnext
    change w.started = true at hstarted
    obtain ⟨xs, ys, hxs⟩ := append_of_mem (hst.node w hw a ha)
    have hnodup := hst.tree.holds.nodup
    rw [hxs, nodup_append, nodup_cons] at hnodup
    rw [hxs, next?_append fun hmem => hnodup.2.2 a hmem a (.head _) rfl]
    rw [hxs, pairwise_append, pairwise_cons] at hsorted
    obtain ⟨-, ⟨hafter, hys⟩, hbefore⟩ := hsorted
    have hpassed : ∀ k, w.Passed key k ↔ k ≤ key a := fun k => by
      simp only [Passed, ha, some_inj, forall_eq']
      exact and_iff_right hstarted
    refine h.snoc (fun k hk => ?_) fun k _ hk => ?_
    · obtain ⟨y, hy, rfl⟩ := (hS k hk).exists hst.tree.holds
      rw [hpassed]
      rw [hxs, mem_append, mem_cons] at hy
      rcases ys with _ | ⟨b, ys⟩
      · -- the end: nothing comes after the node
        simp only [Passed, head?_nil, map_none, reduceCtorEq, or_false,
          IsEmpty.forall_iff, implies_true, and_true, hstarted, true_iff]
        rcases hy with hy | rfl | hy
        · exact (hbefore y hy a (.head _)).le
        · exact le_refl _
        · cases hy
      · simp only [Passed, head?_cons, map_some, some_inj, forall_eq', hstarted, true_and]
        have hab := hafter b (.head _)
        constructor
        · intro hle
          rcases hy with hy | rfl | hy
          · exact Or.inl (hbefore y hy a (.head _)).le
          · exact Or.inl (le_refl _)
          · rcases mem_cons.mp hy with rfl | hy
            · exact Or.inr rfl
            · exact absurd hle (not_le.mpr ((pairwise_cons.mp hys).1 y hy))
        · rintro (hle | heq)
          · exact hle.trans hab.le
          · exact heq.le
    · rw [hpassed]
      obtain ⟨b, hb, rfl⟩ := map_eq_some_iff.mp hk.symm
      exact not_le.mpr (hafter b (mem_of_mem_head? hb))

omit [DecidableEq ν] in
/-- The walk goes back when its node is deleted, and has still passed the keys that stay. -/
theorem Tour.retreat (hcmp : Compares cmp key) (h : Tour key R S w) (hst : Standing key st t)
    (hw : w ∈ st.walks) {x a : ν} (ha : w.node = some a) (hkey : key a = key x)
    (hS : ∀ k, S k → ∃ y ∈ t.inorder, key y = k ∧ key y ≠ key x) :
    Tour key R S
      { w with moved := true, node := (before (dir cmp x) t.inorder).getLast?,
               started := w.started &&
                 (before (dir cmp x) t.inorder).getLast?.isSome } := by
  refine ⟨h.ordered, fun k hk => ?_⟩
  obtain ⟨y, hy, rfl, hne⟩ := hS k hk
  have hstarted : w.started = true := by
    by_contra hnot
    have := hst.unstarted w hw (by simpa using hnot)
    rw [ha] at this
    cases this
  have hold : w.Passed key (key y) ↔ key y < key x := by
    simp only [Passed, ha, hstarted, some_inj, forall_eq', true_and, hkey]
    exact ⟨fun hle => lt_of_le_of_ne hle hne, le_of_lt⟩
  rw [h.seen _ hk, hold]
  simp only [Passed, hstarted, Bool.true_and]
  have hmem : y ∈ before (dir cmp x) t.inorder ↔ y ∈ t.inorder ∧ key y < key x := hcmp.mem_before
  rcases hlast : (before (dir cmp x) t.inorder).getLast? with _ | b
  · rw [getLast?_eq_none_iff.mp hlast] at hmem
    simp only [isSome_none, Bool.false_eq_true, false_and, iff_false]
    exact fun hlt => absurd (hmem.mpr ⟨hy, hlt⟩) (by simp)
  obtain ⟨zs, hzs⟩ := getLast?_eq_some_iff.mp hlast
  have hsorted := hst.tree.sorted.filter (0 < dir cmp x ·)
  change (before (dir cmp x) t.inorder).Pairwise _ at hsorted
  rw [hzs, pairwise_append] at hsorted
  have hb : b ∈ before (dir cmp x) t.inorder := mem_of_mem_getLast? hlast
  simp only [isSome_some, some_inj, forall_eq', true_and]
  constructor
  · intro hlt
    have hmem' := hmem.mpr ⟨hy, hlt⟩
    rw [hzs, mem_append, mem_singleton] at hmem'
    rcases hmem' with hmem' | rfl
    · exact (hsorted.2.2 y hmem' b (mem_singleton.mpr rfl)).le
    · exact le_refl _
  · intro hle
    exact lt_of_le_of_lt hle (hcmp.mem_before.mp hb).2

variable (hcmp : Compares cmp key)
include hcmp

/-- **What a walk has returned, one step further.** The keys that count are those that are still in
the tree. -/
theorem Tour.exec (h : Tour key R S w) (hst : Standing key st t) (hw : w ∈ st.walks)
    (hS : ∀ k, S k → HasKey key st k) (hfuel : t.inorder.length < fuel)
    (hprev : c ≠ .avlprev w.addr) (hend : c ≠ .endwalk w.addr)
    (hexec : exec cmp fuel c st = some (st', out)) :
    ∃ w' ∈ st'.walks, w'.addr = w.addr ∧
      Tour key (R ++ (Step.returned key w.addr ⟨st, c, out, st'⟩).toList)
        (fun k => S k ∧ HasKey key st' k) w' ∧
      (c = .avlnext w.addr → w'.started = true ∧ w'.node = out) := by
  -- a step that is not a call on this walk returns nothing from it
  have hother : c ≠ .avlnext w.addr → ∀ w' ∈ st'.walks, w'.addr = w.addr →
      Tour key R (fun k => S k ∧ HasKey key st' k) w' →
      ∃ w' ∈ st'.walks, w'.addr = w.addr ∧
        Tour key (R ++ (Step.returned key w.addr ⟨st, c, out, st'⟩).toList)
          (fun k => S k ∧ HasKey key st' k) w' ∧
        (c = .avlnext w.addr → w'.started = true ∧ w'.node = out) := by
    intro hne w' hw' haddr htour
    refine ⟨w', hw', haddr, ?_, fun heq => absurd heq hne⟩
    simpa only [Step.returned, if_neg hne, toList_none, append_nil] using htour
  have hmono : Tour key R (fun k => S k ∧ HasKey key st' k) w := h.mono fun k hk => hk.1
  cases c with
  | insertavl x =>
    obtain ⟨st1, t', hrun, -, hwalks, -⟩ := insertavl_spec hcmp hst.tree x hfuel
    obtain ⟨rfl, -⟩ := Prod.mk.inj (some.inj (hrun.symm.trans hexec))
    exact hother (by simp) w (hwalks ▸ hw) rfl hmono
  | deleteavl x =>
    obtain ⟨st1, t', hrun, htree, hwalks, hinorder⟩ := deleteavl_spec hcmp hst.tree x hfuel
    obtain ⟨rfl, -⟩ := Prod.mk.inj (some.inj (hrun.symm.trans hexec))
    rcases hat : at? (dir cmp x) t.inorder with _ | a
    · rw [hat] at hwalks
      exact hother (by simp) w (hwalks ▸ hw) rfl hmono
    rw [hat] at hwalks
    have hmem : Avlwalk.retreat a (before (dir cmp x) t.inorder).getLast? w ∈
        st1.walks := by
      rw [hwalks]
      exact mem_map_of_mem hw
    rw [Avlwalk.retreat] at hmem
    split_ifs at hmem with hnode
    · refine hother (by simp) _ hmem rfl (Tour.retreat hcmp hmono hst hw hnode
        (hcmp.at?_eq_some hat).2 fun k hk => ?_)
      obtain ⟨y, hy, hyk⟩ := hk.2.exists htree.holds
      rw [hinorder, mem_append, hcmp.mem_before_or_after] at hy
      exact ⟨y, hy.1, hyk, hy.2⟩
    · exact hother (by simp) w hmem rfl hmono
  | avlwalk addr =>
    obtain ⟨-, rfl⟩ := exec_avlwalk hexec
    exact hother (by simp) w (.tail _ hw) rfl hmono
  | avlnext addr =>
    obtain ⟨v, hv, rfl, v', hnext, rfl, rfl⟩ := walk?_bind_eq_some hexec
    obtain ⟨haddr, hstarted, -⟩ := hst.next_stands hv hfuel hnext
    by_cases hvw : v.addr = w.addr
    · obtain rfl := inj_on_of_nodup_map hst.nodup hv hw hvw
      refine ⟨v', mem_setWalk_self hv haddr.symm, haddr, ?_, fun _ => ⟨hstarted, rfl⟩⟩
      rw [Step.returned, if_pos rfl]
      exact (h.next hst hv hS hfuel hnext).mono fun k hk => hk.1
    · refine hother (by simpa using hvw) w (mem_setWalk_of_ne hw ?_) rfl hmono
      rw [haddr]
      exact Ne.symm hvw
  | avlprev addr =>
    obtain ⟨v, hv, rfl, v', hstep, rfl, -⟩ := walk?_bind_eq_some hexec
    have haddr := (hst.prev_stands hv hfuel hstep).1
    refine hother (by simp) w (mem_setWalk_of_ne hw ?_) rfl hmono
    rw [haddr]
    exact fun heq => hprev (by rw [heq])
  | endwalk addr =>
    obtain rfl := exec_endwalk hexec
    refine hother (by simp) w ((mem_eraseP_of_neg ?_).mpr hw) rfl hmono
    simpa using fun heq => hend (by rw [heq])

/-- **What a walk has returned after a run** in which it only moves forward. A key that is in the
tree all the time has been returned once the walk has passed it or has come to the end. -/
theorem Tour.run (hrun : Run cmp fuel st steps st') (h : Tour key R S w) (hst : Standing key st t)
    (hw : w ∈ st.walks) (hS : ∀ k, S k → HasKey key st k)
    (hfuel : t.inorder.length + steps.length < fuel)
    (hkeeps : ∀ s ∈ steps, Keeps key s.before s.call)
    (hcalls : ∀ s ∈ steps, s.call ≠ .avlprev w.addr ∧ s.call ≠ .endwalk w.addr) :
    (∃ w' ∈ st'.walks, Tour key (R ++ returned key w.addr steps)
      (fun k => S k ∧ ∀ s ∈ steps, HasKey key s.after k) w') ∧
    ∀ s ∈ steps, s.call = .avlnext w.addr → ∀ k, S k → (∀ s ∈ steps, HasKey key s.after k) →
      (∀ a, s.out = some a → k ≤ key a) → k ∈ R ++ returned key w.addr steps := by
  induction hrun generalizing t w R S with
  | nil st =>
    refine ⟨⟨w, hw, ?_⟩, by simp⟩
    rw [returned, filterMap_nil, append_nil]
    exact h.mono fun k hk => hk.1
  | @cons st st1 st' c out steps hexec hrun ih =>
    rw [length_cons] at hfuel
    obtain ⟨hprev, hend⟩ := hcalls _ (.head _)
    obtain ⟨w1, hw1, haddr, htour, hout⟩ := Tour.exec hcmp h hst hw hS (by omega) hprev hend hexec
    obtain ⟨t1, hst1, hlen⟩ := exec_standing hcmp hst (hkeeps _ (.head _)) (by omega) hexec
    have hreturned : R ++ returned key w.addr (⟨st, c, out, st1⟩ :: steps) =
        R ++ (Step.returned key w.addr ⟨st, c, out, st1⟩).toList ++ returned key w1.addr steps := by
      rw [haddr, append_assoc, returned, filterMap_cons]
      rcases Step.returned key w.addr ⟨st, c, out, st1⟩ with _ | k <;> rfl
    obtain ⟨⟨w', hw', htour'⟩, hdone⟩ := ih htour hst1 hw1 (fun k hk => hk.2) (by omega)
      (fun s hs => hkeeps s (.tail _ hs))
      (fun s hs => haddr ▸ hcalls s (.tail _ hs))
    rw [hreturned]
    refine ⟨⟨w', hw', htour'.mono fun k hk => ?_⟩, fun s hs hcall k hk hall hle => ?_⟩
    · exact ⟨⟨hk.1, hk.2 _ (.head _)⟩, fun s hs => hk.2 s (.tail _ hs)⟩
    have hk1 : S k ∧ HasKey key st1 k := ⟨hk, hall _ (.head _)⟩
    have hall' : ∀ s ∈ steps, HasKey key s.after k := fun s hs =>
      hall s (.tail _ hs)
    rcases mem_cons.mp hs with rfl | hs
    · obtain ⟨hstarted, hnode⟩ := hout hcall
      refine mem_append_left _ ((htour.seen k hk1).mpr ⟨hstarted, fun a ha => ?_⟩)
      rw [hnode] at ha
      exact hle a ha
    · exact hdone s hs (haddr ▸ hcall) k hk1 hall' hle

end Tour

/-! ## Every run -/

/-- Each walk that has started stands on a node of the tree, or on none. -/
def NodesInTree (st : State ν) : Prop :=
  ∃ t, Holds st .root none t ∧
    ∀ w ∈ st.walks, w.started = true → ∀ a, w.node = some a → a ∈ t.inorder

/-- A walk, opened in the state `st`, returns the keys that are in the tree throughout each once and
in order: each time it moves, it has returned all those that it has passed, and at the end all. -/
structure InOrder (key : ν → κ) (addr : Nat) (st : State ν) (steps : List (Step ν)) : Prop where
  ordered : (returned key addr steps).Pairwise fun k k' =>
    (HasKey key st k ∧ ∀ s ∈ steps, HasKey key s.after k) →
    (HasKey key st k' ∧ ∀ s ∈ steps, HasKey key s.after k') → k < k'
  complete : ∀ s ∈ steps, s.call = .avlnext addr → ∀ k, HasKey key st k →
    (∀ s ∈ steps, HasKey key s.after k) → (∀ a, s.out = some a → k ≤ key a) →
      k ∈ returned key addr steps

section Every

theorem Run.append {pre post : List (Step ν)} (h : Run cmp fuel st (pre ++ post) st') :
    ∃ st1, Run cmp fuel st pre st1 ∧ Run cmp fuel st1 post st' := by
  induction pre generalizing st with
  | nil => exact ⟨st, .nil st, h⟩
  | cons s pre ih =>
    cases h with
    | cons hexec hrun =>
      obtain ⟨st1, hpre, hpost⟩ := ih hrun
      exact ⟨st1, .cons hexec hpre, hpost⟩

variable (hcmp : Compares cmp key)
include hcmp

/-- An insertion that puts another node in the place of one that a walk stands on leaves the walk
outside the tree. -/
theorem keeps_of_nodesInTree (h : Standing key st t) (hfuel : t.inorder.length < fuel)
    (hexec : exec cmp fuel c st = some (st', out)) (hnodes : NodesInTree st') : Keeps key st c := by
  cases c with
  | insertavl x =>
    intro w hw a ha hkey
    obtain ⟨st1, t', hrun, htree, hwalks, hinorder⟩ := insertavl_spec hcmp h.tree x hfuel
    obtain ⟨rfl, -⟩ := Prod.mk.inj (some.inj (hrun.symm.trans hexec))
    obtain ⟨t'', ht'', hstands⟩ := hnodes
    obtain rfl := htree.holds.unique ht''
    have hstarted : w.started = true := by
      by_contra hnot
      have := h.unstarted w hw (by simpa using hnot)
      rw [ha] at this
      cases this
    have hx : x ∈ t'.inorder := by
      rw [hinorder]
      simp
    exact htree.key_inj (hstands w (hwalks ▸ hw) hstarted a ha) hx hkey
  | _ => trivial

section

variable (hrun : Run cmp fuel st steps st') (h : Standing key st t)
  (hfuel : t.inorder.length + steps.length < fuel)
include hrun h hfuel

theorem Run.standing (hkeeps : ∀ s ∈ steps, Keeps key s.before s.call) :
    ∃ t', Standing key st' t' ∧ t'.inorder.length ≤ t.inorder.length + steps.length := by
  induction hrun generalizing t with
  | nil st => exact ⟨t, h, le_rfl⟩
  | @cons st st1 st' c out steps hexec hrun ih =>
    rw [length_cons] at hfuel
    obtain ⟨t1, hst1, hlen1⟩ := exec_standing hcmp h (hkeeps _ (.head _)) (by omega) hexec
    obtain ⟨t', hst', hlen'⟩ := ih hst1 (by omega) fun s hs => hkeeps s (.tail _ hs)
    rw [length_cons]
    exact ⟨t', hst', by omega⟩

theorem Run.keeps (hnodes : ∀ s ∈ steps, NodesInTree s.after) :
    ∀ s ∈ steps, Keeps key s.before s.call := by
  induction hrun generalizing t with
  | nil st => exact fun s hs => absurd hs (not_mem_nil)
  | @cons st st1 st' c out steps hexec hrun ih =>
    rw [length_cons] at hfuel
    have hkeeps := keeps_of_nodesInTree hcmp h (by omega) hexec (hnodes _ (.head _))
    obtain ⟨t1, hst1, hlen1⟩ := exec_standing hcmp h hkeeps (by omega) hexec
    have hrest := ih hst1 (by omega) fun s hs => hnodes s (.tail _ hs)
    exact forall_mem_cons.mpr ⟨hkeeps, hrest⟩

end

omit [DecidableEq ν] hcmp in
theorem standing_nil (hroot : st.root = none) (hwalks : st.walks = []) :
    Standing key st .nil :=
  ⟨searchTree_nil hroot key, by simp [hwalks], by simp [hwalks], by simp [hwalks]⟩

omit [DecidableEq ν] hcmp in
theorem Standing.nodesInTree (h : Standing key st t) : NodesInTree st :=
  ⟨t, h.tree.holds, fun w hw _ => h.node w hw⟩

/-- **Every run.** In a run from the empty tree, the walks stand in the tree in every state, the
walks that only move forward return the keys that stay in order, and no call fails other than at
the end of a walk, if and only if no node is inserted in the place of another one on which a walk
stands. -/
theorem walks_standing_iff (hroot : st.root = none) (hwalks : st.walks = [])
    (hrun : Run cmp fuel st steps st') (hfuel : steps.length < fuel) :
    ((∀ s ∈ steps, NodesInTree s.after) ∧
      (∀ pre s post addr, steps = pre ++ s :: post → s.call = .avlwalk addr →
        (∀ s' ∈ post, s'.call ≠ .avlprev addr ∧ s'.call ≠ .endwalk addr) →
        InOrder key addr s.after post) ∧
      ∀ c, Allowed st' c → ∃ r, exec cmp fuel c st' = some r) ↔
    ∀ s ∈ steps, Keeps key s.before s.call := by
  have hnil : Standing key st .nil := standing_nil hroot hwalks
  have hfuel' : (nil : AvlTree ν).inorder.length + steps.length < fuel := by simpa using hfuel
  constructor
  · rintro ⟨hnodes, -⟩
    exact Run.keeps hcmp hrun hnil hfuel' hnodes
  intro hkeeps
  -- the state after any of the steps, and the run from there
  have hsplit : ∀ pre s post, steps = pre ++ s :: post → ∃ t, Standing key s.after t ∧
      t.inorder.length + post.length < fuel ∧ Run cmp fuel s.after post st' ∧
      ∃ st1, exec cmp fuel s.call st1 = some (s.after, s.out) := by
    rintro pre s post rfl
    obtain ⟨st1, hpre, hpost⟩ := hrun.append
    cases hpost with
    | @cons _ st2 _ c out _ hexec hpost =>
      simp only [length_append, length_cons] at hfuel
      obtain ⟨t1, hst1, hlen1⟩ := hpre.standing hcmp hnil
        (by simp only [inorder_nil, length_nil]; omega)
        fun s hs => hkeeps s (mem_append_left _ hs)
      simp only [inorder_nil, length_nil] at hlen1
      obtain ⟨t2, hst2, hlen2⟩ := exec_standing hcmp hst1
        (hkeeps _ (mem_append_right _ (.head _))) (by omega) hexec
      exact ⟨t2, hst2, by omega, hpost, st1, hexec⟩
  refine ⟨fun s hs => ?_, fun pre s post addr hsteps hcall hcalls => ?_, fun c hc => ?_⟩
  · obtain ⟨pre, post, hsteps⟩ := append_of_mem hs
    obtain ⟨t, ht, -⟩ := hsplit pre s post hsteps
    exact ht.nodesInTree
  · obtain ⟨t, ht, hlen, hpost, st1, hexec⟩ := hsplit pre s post hsteps
    rw [hcall] at hexec
    obtain ⟨-, hafter⟩ := exec_avlwalk hexec
    have hw : (⟨addr, false, false, none⟩ : Avlwalk ν) ∈ s.after.walks := by
      rw [hafter]
      exact .head _
    have htour : Tour key [] (HasKey key s.after) (⟨addr, false, false, none⟩ : Avlwalk ν) :=
      ⟨Pairwise.nil, fun k _ => by simp [Passed]⟩
    obtain ⟨⟨w', -, htour'⟩, hdone⟩ := Tour.run hcmp hpost htour ht hw (fun k hk => hk) hlen
      (fun s' hs' => hkeeps s' (by rw [hsteps]; simp [hs'])) hcalls
    exact ⟨htour'.ordered, hdone⟩
  · obtain ⟨t', ht', hlen'⟩ := hrun.standing hcmp hnil hfuel' hkeeps
    refine exec_total hcmp ht' hc ?_
    simp only [inorder_nil, length_nil] at hlen'
    omega

end Every

/-- Numbers compared by their halves, so that there are two nodes with each key. -/
def byHalf (a b : Nat) : Int := (a / 2 : Nat) - (b / 2 : Nat)

theorem byHalf_compares : Compares byHalf fun a => a / 2 :=
  ⟨fun a b => by simp only [byHalf]; omega, fun a b => by simp only [byHalf]; omega⟩

/-- A walk over two nodes, the second of which is inserted after the walk has started. -/
theorem walks_standing_iff_two :
    ∃ steps st', Run byHalf 9 ⟨none, fun _ => ⟨none, fun _ => none, 0⟩, []⟩ steps st' ∧
      steps.map Step.call = [.insertavl 2, .avlwalk 0, .avlnext 0, .insertavl 4, .avlnext 0] ∧
      (∀ s ∈ steps, Keeps (fun a => a / 2) s.before s.call) ∧
      (∀ s ∈ steps, NodesInTree s.after) := by
  obtain ⟨steps, st', hrun, hcalls, hkeeps⟩ : ∃ steps st',
      Run byHalf 9 ⟨none, fun _ => ⟨none, fun _ => none, 0⟩, []⟩ steps st' ∧
      steps.map Step.call = [.insertavl 2, .avlwalk 0, .avlnext 0, .insertavl 4, .avlnext 0] ∧
      ∀ s ∈ steps, Keeps (fun a => a / 2) s.before s.call := by
    refine ⟨_, _, .cons rfl (.cons rfl (.cons rfl (.cons rfl (.cons rfl (.nil _))))), rfl, ?_⟩
    refine forall_mem_cons.mpr ⟨fun w hw => absurd hw not_mem_nil,
      forall_mem_cons.mpr ⟨trivial, forall_mem_cons.mpr ⟨trivial,
        forall_mem_cons.mpr ⟨fun w hw a ha hkey => ?_, forall_mem_cons.mpr
          ⟨trivial, fun _ hs => absurd hs not_mem_nil⟩⟩⟩⟩⟩
    obtain rfl := mem_singleton.mp hw
    cases ha
    exact absurd hkey (by decide)
  have hlength : steps.length = 5 := by simpa using congrArg length hcalls
  refine ⟨steps, st', hrun, hcalls, hkeeps, ?_⟩
  exact ((walks_standing_iff byHalf_compares rfl rfl hrun (by omega)).mpr hkeeps).1

/-- A walk that stands on node 2 when node 3 takes its place: node 3, with the same key, is what the
walk returns next, after node 6 has made the tree turn. -/
theorem walk_left_behind :
    ∃ steps st', Run byHalf 9 ⟨none, fun _ => ⟨none, fun _ => none, 0⟩, []⟩ steps st' ∧
      steps.map Step.call = [.insertavl 2, .insertavl 4, .avlwalk 0, .avlnext 0, .insertavl 3,
        .insertavl 6, .avlnext 0] ∧
      returned (fun a => a / 2) 0 steps = [1, 1] ∧ ¬ ∀ s ∈ steps, NodesInTree s.after := by
  refine ⟨_, _, .cons rfl (.cons rfl (.cons rfl (.cons rfl (.cons rfl (.cons rfl (.cons rfl
    (.nil _))))))), rfl, rfl, ?_⟩
  intro h
  obtain ⟨t, ht, hnode⟩ := h _ (.tail _ (mem_cons_of_mem _
    (.tail _ (.tail _ (.head _)))))
  -- the tree is then node 3 with node 4 on its right
  obtain rfl : t = .node .nil 3 1 (.node .nil 4 0 .nil) := ht.unique
    ⟨rfl, ⟨rfl, rfl, rfl, rfl, trivial, rfl, rfl, rfl, rfl, trivial, trivial⟩, by decide, trivial⟩
  exact absurd (hnode _ (.head _) rfl 2 rfl) (by decide)

end Plan9Port.Avl
