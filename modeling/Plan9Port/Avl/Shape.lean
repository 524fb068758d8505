import Mathlib.Data.List.Nodup
import Plan9Port.Avl.Nodes

/-!
# Trees in memory

The nodes below a pointer form a tree, with every parent pointer right. Each function of
`avl.c` that changes a subtree does to its tree what the operation of `AvlTree` does, changes the
pointer to it accordingly, and nothing else outside the subtree's nodes.

## Main results

* `balance_refines`, `insertAt_refines`, `successor_refines`, `deleteAt_refines`
-/

namespace Plan9Port.Avl

open AvlTree State Nat List
open Option (bind_some some_inj)

variable {ν : Type} [DecidableEq ν]

/-- The pointer to a tree. -/
def ptr : AvlTree ν → Option ν
  | .nil => none
  | .node _ a _ _ => some a

/-- The nodes of a tree, linked as they are to be, below the parent `p`. -/
def Rep (cell : ν → Avl ν) : Option ν → AvlTree ν → Prop
  | _, .nil => True
  | p, .node l a b r =>
    (cell a).p = p ∧ (cell a).n false = ptr l ∧ (cell a).n true = ptr r ∧ (cell a).bal = b ∧
      Rep cell (some a) l ∧ Rep cell (some a) r

variable {p : Option ν} {t : AvlTree ν}

omit [DecidableEq ν] in
theorem Rep.congr {cell cell' : ν → Avl ν} (h : Rep cell p t)
    (heq : ∀ a ∈ t.inorder, cell' a = cell a) : Rep cell' p t := by
  induction t generalizing p with
  | nil => trivial
  | node l a b r ihl ihr =>
    obtain ⟨hp, hl, hr, hb, hrl, hrr⟩ := h
    have ha : cell' a = cell a := heq a (by simp)
    refine ⟨ha ▸ hp, ha ▸ hl, ha ▸ hr, ha ▸ hb, ihl hrl ?_, ihr hrr ?_⟩
    · intro x hx
      exact heq x (by simp [hx])
    · intro x hx
      exact heq x (by simp [hx])

variable {a : ν}

namespace State

variable (st : State ν)
include st

section

variable (f : Avl ν → Avl ν)
include f

@[simp] theorem cell_modify_self (a : ν) : (st.modify a f).cell a = f (st.cell a) := by
  simp [modify]

theorem cell_modify_of_ne {b : ν} (h : b ≠ a) : (st.modify a f).cell b = st.cell b := by
  simp [modify, h]

theorem cell_modify (a b : ν) :
    (st.modify a f).cell b = if b = a then f (st.cell a) else st.cell b := by
  by_cases h : b = a
  · rw [if_pos h, h, cell_modify_self]
  · rw [if_neg h, cell_modify_of_ne st f h]

@[simp] theorem root_modify (a : ν) :
    (st.modify a f).root = st.root := rfl

@[simp] theorem walks_modify (a : ν) :
    (st.modify a f).walks = st.walks := rfl

end

@[simp] theorem walks_store (tp : Slot ν) (v : Option ν) : (st.store tp v).walks = st.walks := by
  cases tp <;> rfl

@[simp] theorem load_store (tp : Slot ν) (v : Option ν) : (st.store tp v).load tp = v := by
  cases tp with
  | root => rfl
  | child a i => simp [store, load, setN]

end State

/-- The node that a slot is in is none of `xs`. -/
def Slot.Outside (tp : Slot ν) (xs : List ν) : Prop :=
  match tp with
  | .root => True
  | .child a _ => a ∉ xs

variable {tp : Slot ν} {xs : List ν}

theorem State.cell_store_of_mem (st : State ν) (v : Option ν) (h : tp.Outside xs) {b : ν}
    (hb : b ∈ xs) : (st.store tp v).cell b = st.cell b := by
  cases tp with
  | root => rfl
  | child a i =>
    have hne : b ≠ a := by
      rintro rfl
      exact h hb
    rw [store, setN, cell_modify_of_ne st _ hne]

/-- The subtree a slot points to. -/
structure Holds (st : State ν) (tp : Slot ν) (p : Option ν) (t : AvlTree ν) : Prop where
  load : st.load tp = ptr t
  rep : Rep st.cell p t
  nodup : t.inorder.Nodup
  outside : tp.Outside t.inorder

/-- From `st` to `st'` the slot gets the value `v` and some of the nodes `xs` change, and nothing
else does. -/
structure Frame (st st' : State ν) (tp : Slot ν) (v : Option ν) (xs : List ν) : Prop where
  cell : ∀ b ∉ xs, st'.cell b = (st.store tp v).cell b
  root : st'.root = (st.store tp v).root
  walks : st'.walks = st.walks

/-- From `st` to `st'` the subtree of a slot becomes `t'`, within the nodes `xs`. -/
structure Becomes (st st' : State ν) (tp : Slot ν) (p : Option ν) (t' : AvlTree ν) (xs : List ν) :
    Prop where
  holds : Holds st' tp p t'
  frame : Frame st st' tp (ptr t') xs
  mem : ∀ y ∈ t'.inorder, y ∈ xs

variable {st st₁ : State ν} {v q : Option ν} {ys zs : List ν} {i : Bool} {b b' : Int} {c : ν}
  {l r m s o t' l' r' s' : AvlTree ν}

/-- What a slot outside the subtree holds is the value it got. -/
theorem Frame.load {st' : State ν} (h : Frame st st' tp v xs) (hout : tp.Outside xs) :
    st'.load tp = v := by
  rw [← st.load_store tp v]
  cases tp with
  | root => exact h.root
  | child a i => rw [load, load, h.cell a hout]

/-! ## Rotations -/

/-- A subtree hung below another node: only its root changes. -/
theorem Rep.setP? (h : Rep st.cell p t) (hnodup : t.inorder.Nodup) (q : Option ν) :
    Rep (st.setP? (ptr t) q).cell q t := by
  cases t with
  | nil => trivial
  | node l a b r =>
    obtain ⟨-, hl, hr, hb, hrl, hrr⟩ := h
    rw [inorder_node, nodup_middle, nodup_cons, mem_append, not_or] at hnodup
    have hne : ∀ x, x ≠ a → (st.setP a q).cell x = st.cell x := fun x hx => by
      rw [setP, cell_modify_of_ne st _ hx]
    refine ⟨?_, ?_, ?_, ?_, hrl.congr fun x hx => hne x ?_, hrr.congr fun x hx => hne x ?_⟩
    · simp [ptr, setP?, setP]
    · simpa [ptr, setP?, setP] using hl
    · simpa [ptr, setP?, setP] using hr
    · simpa [ptr, setP?, setP] using hb
    · exact fun h => hnodup.1.1 (h ▸ hx)
    · exact fun h => hnodup.1.2 (h ▸ hx)

theorem State.cell_setP?_of_notMem (st : State ν) (q : Option ν) {b : ν} (h : b ∉ t.inorder) :
    (st.setP? (ptr t) q).cell b = st.cell b := by
  cases t with
  | nil => rfl
  | node l a x r =>
    have hne : b ≠ a := by
      rintro rfl
      simp at h
    rw [ptr, setP?, setP, cell_modify_of_ne st _ hne]

/-- The nodes of a tree with a child of its root. -/
structure Apart (l : AvlTree ν) (a : ν) (m : AvlTree ν) (c : ν) (r : AvlTree ν) : Prop where
  ne : a ≠ c
  notMem_l : a ∉ l.inorder ∧ c ∉ l.inorder
  notMem_m : a ∉ m.inorder ∧ c ∉ m.inorder
  notMem_r : a ∉ r.inorder ∧ c ∉ r.inorder
  l_m : ∀ x ∈ l.inorder, x ∉ m.inorder
  m_r : ∀ x ∈ m.inorder, x ∉ r.inorder
  nodup_m : m.inorder.Nodup

/-- What both rotations do to the memory: `c` goes to the top with `a` on its side `i`, and the
subtree `m` between them is hung below `a` on the other side. -/
def rotate (i : Bool) (a c : ν) (m : Option ν) (tp : Slot ν) (p : Option ν) (ab cb : Int)
    (st : State ν) : State ν :=
  (((((((st.setN a (!i) m).setP? m (some a)).setN c i (some a)).setP a (some c)).store tp
    (some c)).setP c p).setBal a ab).setBal c cb

/-- The cells after a rotation. -/
theorem cell_rotate (i : Bool) (p : Option ν) (ab cb : Int) (st : State ν) (hout : tp.Outside xs)
    (ha : a ∈ xs) (hc : c ∈ xs) (hac : a ≠ c) (ham : a ∉ m.inorder) (hcm : c ∉ m.inorder) :
    (rotate i a c (ptr m) tp p ab cb st).cell a =
        ⟨some c, Function.update (st.cell a).n (!i) (ptr m), ab⟩ ∧
      (rotate i a c (ptr m) tp p ab cb st).cell c =
        ⟨p, Function.update (st.cell c).n i (some a), cb⟩ ∧
      (∀ x ∈ xs, x ≠ a → x ≠ c →
        (rotate i a c (ptr m) tp p ab cb st).cell x = (st.setP? (ptr m) (some a)).cell x) ∧
      (∀ x ∉ xs, (∀ y ∈ m.inorder, y ∈ xs) →
        (rotate i a c (ptr m) tp p ab cb st).cell x = (st.store tp (some c)).cell x) := by
  have hstore : ∀ (st : State ν) (v : Option ν), ∀ x ∈ xs,
      (st.store tp v).cell x = st.cell x := fun st v x hx => st.cell_store_of_mem v hout hx
  refine ⟨?_, ?_, ?_, ?_⟩
  · simp [rotate, setBal, setP, setN, cell_modify, hstore _ _ a ha, hac,
      cell_setP?_of_notMem _ _ ham]
  · simp [rotate, setBal, setP, setN, cell_modify, hstore _ _ c hc,
      hac.symm, cell_setP?_of_notMem _ _ hcm]
  · intro x hx hxa hxc
    simp only [rotate, setBal, setP, setN, cell_modify, hstore _ _ x hx, hxa, hxc, if_false]
    cases m with
    | nil => simp [ptr, setP?, cell_modify, hxa]
    | node ml b mb mr =>
      have hba : b ≠ a := by
        rintro rfl
        simp at ham
      simp [ptr, setP?, setP, cell_modify, hxa, hba]
  · intro x hx hm
    have hxa : x ≠ a := fun h => hx (h ▸ ha)
    have hxc : x ≠ c := fun h => hx (h ▸ hc)
    have hxm : x ∉ m.inorder := fun h => hx (hm x h)
    cases tp with
    | root =>
      simp [rotate, setBal, setP, setN, cell_modify, store, hxa, hxc, cell_setP?_of_notMem _ _ hxm]
    | child d j =>
      by_cases hxd : x = d
      · subst hxd
        simp [rotate, setBal, setP, setN, cell_modify, store, hxa,
          hxc, cell_setP?_of_notMem _ _ hxm]
      · simp [rotate, setBal, setP, setN, cell_modify, store, hxa,
          hxc, hxd, cell_setP?_of_notMem _ _ hxm]

theorem root_setP? (st : State ν) (m p : Option ν) : (st.setP? m p).root = st.root := by
  cases m <;> rfl

theorem walks_setP? (st : State ν) (m p : Option ν) : (st.setP? m p).walks = st.walks := by
  cases m <;> rfl

theorem root_rotate (i : Bool) (a c : ν) (m : Option ν) (tp : Slot ν) (p : Option ν) (ab cb : Int)
    (st : State ν) :
    (rotate i a c m tp p ab cb st).root = (st.store tp (some c)).root ∧
      (rotate i a c m tp p ab cb st).walks = st.walks := by
  cases tp <;>
    simp [rotate, setBal, setP, setN, store, root_setP?, walks_setP?]

/-! ## One level up -/

theorem State.store_load (st : State ν) (tp : Slot ν) : st.store tp (st.load tp) = st := by
  cases tp with
  | root => rfl
  | child a i => simp [store, load, setN, modify]

theorem Frame.refl (h : st.load tp = v) (xs : List ν) : Frame st st tp v xs := by
  subst h
  refine ⟨fun b _ => ?_, ?_, rfl⟩
  · rw [st.store_load tp]
  · rw [st.store_load tp]

theorem Frame.trans {st2 : State ν} {v' : Option ν} (h1 : Frame st st₁ tp v xs)
    (h2 : Frame st₁ st2 tp v' ys) (hx : ∀ b ∈ xs, b ∈ zs) (hy : ∀ b ∈ ys, b ∈ zs) :
    Frame st st2 tp v' zs := by
  have hstore : ∀ b ∉ zs, (st₁.store tp v').cell b = (st.store tp v').cell b := by
    intro b hb
    have hcell := h1.cell b fun h => hb (hx b h)
    cases tp with
    | root => exact hcell
    | child d i =>
      by_cases hbd : b = d
      · subst hbd
        simp only [store, setN, cell_modify_self] at hcell ⊢
        rw [hcell]
        simp
      · simp only [store, setN, cell_modify_of_ne _ _ hbd] at hcell ⊢
        exact hcell
  refine ⟨fun b hb => ?_, ?_, h2.walks.trans h1.walks⟩
  · rw [h2.cell b fun h => hb (hy b h), hstore b hb]
  · rw [h2.root]
    cases tp with
    | root => rfl
    | child d i => exact h1.root

/-- A node changed that is one of `xs`. -/
theorem Frame.modify (h : st.load tp = v) (ha : a ∈ xs) (f : Avl ν → Avl ν) :
    Frame st (st.modify a f) tp v xs := by
  subst h
  refine ⟨fun b hb => ?_, ?_, rfl⟩
  · have hne : b ≠ a := fun h => hb (h ▸ ha)
    rw [st.store_load tp, cell_modify_of_ne st f hne]
  · rw [st.store_load tp]
    rfl

/-- The tree with `s` on the side `i` of its root, and `o` on the other one. -/
def join (i : Bool) (s : AvlTree ν) (a : ν) (b : Int) (o : AvlTree ν) : AvlTree ν :=
  match i with
  | false => .node s a b o
  | true => .node o a b s

omit [DecidableEq ν] in
theorem ptr_join (i : Bool) : ptr (join i s a b o) = some a := by
  cases i <;> rfl

omit [DecidableEq ν] in
theorem mem_join {y : ν} : y ∈ (join i s a b o).inorder ↔ y ∈ s.inorder ∨ y ∈ a :: o.inorder := by
  cases i
  · simp [join]
  · simp [join]
    tauto

omit [DecidableEq ν] in
theorem nodup_join : (join i s a b o).inorder.Nodup ↔
    (a ∉ s.inorder ∧ a ∉ o.inorder ∧ ∀ y ∈ s.inorder, y ∉ o.inorder) ∧ s.inorder.Nodup ∧
      o.inorder.Nodup := by
  cases i <;> simp only [join, inorder_node, nodup_append, nodup_cons] <;> grind

omit [DecidableEq ν] in
theorem rep_join {cell : ν → Avl ν} : Rep cell p (join i s a b o) ↔
    (cell a).p = p ∧ (cell a).n i = ptr s ∧ (cell a).n (!i) = ptr o ∧ (cell a).bal = b ∧
      Rep cell (some a) s ∧ Rep cell (some a) o := by
  cases i
  · rfl
  · simp [join, Rep]
    tauto

omit [DecidableEq ν] in
/-- The subtree on the side `i`. -/
theorem Holds.child (i : Bool) (h : Holds st tp p (join i s a b o)) :
    Holds st (.child a i) (some a) s := by
  obtain ⟨-, hn, -, -, hs, -⟩ := rep_join.mp h.rep
  obtain ⟨⟨ha, -⟩, hnodup, -⟩ := nodup_join.mp h.nodup
  exact ⟨hn, hs, hnodup, ha⟩

section

variable (hload : st.load tp = some a) (hf : Frame st st₁ (.child a i) v xs)
include hload hf

/-- The frame of a subtree's operation is one of the whole tree's. -/
theorem Frame.up (ha : a ∈ zs) (hx : ∀ y ∈ xs, y ∈ zs) : Frame st st₁ tp (some a) zs := by
  have hid : st.store tp (some a) = st := by rw [← hload, st.store_load tp]
  refine ⟨fun y hy => ?_, ?_, hf.walks⟩
  · have hne : y ≠ a := fun h => hy (h ▸ ha)
    rw [hid, hf.cell y fun h => hy (hx y h), store, setN, cell_modify_of_ne st _ hne]
  · rw [hid, hf.root]
    rfl

/-- The slot of a tree whose subtree has been changed. -/
theorem Frame.load_up (hout : tp.Outside (a :: xs)) : st₁.load tp = some a := by
  have hup : Frame st st₁ tp (some a) (a :: xs) :=
    hf.up hload (.head _) fun y hy => mem_cons_of_mem a hy
  exact hup.load hout

end

omit [DecidableEq ν] in
theorem Slot.Outside.mono (h : tp.Outside ys) (hsub : ∀ x ∈ xs, x ∈ ys) : tp.Outside xs := by
  cases tp with
  | root => trivial
  | child d i => exact fun hd => h (hsub d hd)

omit [DecidableEq ν] in
theorem Slot.Outside.of_or (hx : tp.Outside xs) (hy : tp.Outside ys)
    (hsub : ∀ z ∈ zs, z ∈ xs ∨ z ∈ ys) : tp.Outside zs := by
  cases tp with
  | root => trivial
  | child d i => exact fun hd => (hsub d hd).elim hx hy

theorem Frame.cell_child (hf : Frame st st₁ (.child a i) v xs) (ha : a ∉ xs) :
    st₁.cell a = { st.cell a with n := Function.update (st.cell a).n i v } := by
  rw [hf.cell a ha]
  simp [store, setN]

/-- The other subtree stays as it is. -/
theorem Frame.rep_other (hf : Frame st st₁ (.child a i) v xs) (hs : Rep st.cell q s)
    (ha : a ∉ s.inorder) (hxs : ∀ y ∈ s.inorder, y ∉ xs) : Rep st₁.cell q s := by
  refine hs.congr fun y hy => ?_
  have hne : y ≠ a := fun h => ha (h ▸ hy)
  rw [hf.cell y (hxs y hy), store, setN, cell_modify_of_ne st _ hne]

/-- A tree with a subtree that has been changed within the nodes `xs`. -/
theorem Holds.replace (h : Holds st tp p (join i s a b o))
    (h1 : Becomes st st₁ (.child a i) (some a) s' xs) (ha : a ∉ xs) (ho : ∀ y ∈ o.inorder, y ∉ xs)
    (hout : tp.Outside xs) : Holds st₁ tp p (join i s' a b o) := by
  obtain ⟨h1, hf, hxs⟩ := h1
  obtain ⟨hap, hn, hn', hab, -, hro⟩ := rep_join.mp h.rep
  obtain ⟨⟨-, hao, -⟩, -, hnodup⟩ := nodup_join.mp h.nodup
  have hmem : ∀ {y}, y ∈ a :: o.inorder → y ∈ (join i s a b o).inorder := (mem_join.mpr <| .inr ·)
  have hcell := hf.cell_child ha
  refine ⟨?_, rep_join.mpr ⟨?_, ?_, ?_, ?_, h1.rep, hf.rep_other hro hao ho⟩,
    nodup_join.mpr ⟨⟨fun hx => ha (hxs a hx), hao, fun y hy hy' => ho y hy' (hxs y hy)⟩, h1.nodup,
      hnodup⟩, hout.of_or h.outside fun y hy => (mem_join.mp hy).imp (hxs y) hmem⟩
  · rw [ptr_join]
    refine hf.load_up (h.load.trans (ptr_join i)) (hout.of_or h.outside fun y hy => ?_)
    rcases mem_cons.mp hy with rfl | hy
    · exact .inr (hmem (.head _))
    · exact .inl hy
  · rw [hcell]; exact hap
  · rw [hcell]; simp
  · rw [hcell]; simpa using hn'
  · rw [hcell]; exact hab

/-- A new balance at the root. -/
theorem Holds.setBal (h : Holds st tp p (join i s a b o)) (b' : Int) :
    Holds (st.setBal a b') tp p (join i s a b' o) := by
  obtain ⟨hap, hn, hn', -, hrs, hro⟩ := rep_join.mp h.rep
  obtain ⟨⟨has, hao, hso⟩, hnodup⟩ := nodup_join.mp h.nodup
  have hkeep : ∀ y, y ≠ a → (st.setBal a b').cell y = st.cell y := fun y hy => by
    rw [State.setBal, State.cell_modify_of_ne st _ hy]
  refine ⟨?_, rep_join.mpr ⟨?_, ?_, ?_, ?_, ?_, ?_⟩, nodup_join.mpr ⟨⟨has, hao, hso⟩, hnodup⟩,
    h.outside.mono fun y hy => mem_join.mpr (mem_join.mp hy)⟩
  · rw [ptr_join, ← ptr_join i]
    exact (Frame.modify h.load (mem_join.mpr (.inr (.head _))) _ :
      Frame st _ tp _ (join i s a b o).inorder).load h.outside
  · simpa [State.setBal] using hap
  · simpa [State.setBal] using hn
  · simpa [State.setBal] using hn'
  · simp [State.setBal]
  · exact hrs.congr fun y hy => hkeep y fun h => has (h ▸ hy)
  · exact hro.congr fun y hy => hkeep y fun h => hao (h ▸ hy)

omit [DecidableEq ν] in
theorem apart_of_nodup {d : Int} (h : (join i s a b (join i m c d o)).inorder.Nodup) :
    Apart s a m c o := by
  obtain ⟨⟨has, ha, hs⟩, -, h⟩ := nodup_join.mp h
  obtain ⟨⟨hcm, hco, hmo⟩, hm, -⟩ := nodup_join.mp h
  simp only [mem_join, mem_cons, not_or] at ha hs
  exact ⟨ha.2.1, ⟨has, fun hc => (hs c hc).2.1 rfl⟩, ⟨ha.1, hcm⟩, ⟨ha.2.2, hco⟩,
    fun x hx => (hs x hx).1, hmo, hm⟩

/-- A rotation: the two nodes, the subtree between them and everything else. -/
theorem Holds.rotate {d : Int} (h : Holds st tp p (join i s a b (join i m c d o))) (ab cb : Int) :
    Becomes st (rotate i a c (ptr m) tp p ab cb st) tp p (join i (join i s a ab m) c cb o)
      (join i s a b (join i m c d o)).inorder ∧
    (join i (join i s a ab m) c cb o).inorder = (join i s a b (join i m c d o)).inorder := by
  have hin : (join i (join i s a ab m) c cb o).inorder =
      (join i s a b (join i m c d o)).inorder := by
    cases i <;> simp [join]
  obtain ⟨hne, hs, hm, ho, hsm, hmo, hnodup⟩ := apart_of_nodup h.nodup
  obtain ⟨-, hn, -, -, hrs, hrep⟩ := rep_join.mp h.rep
  obtain ⟨-, -, hn', -, hrm, hro⟩ := rep_join.mp hrep
  have hsub : ∀ y ∈ m.inorder, y ∈ (join i s a b (join i m c d o)).inorder :=
    fun y hy => by simp [mem_join, hy]
  obtain ⟨hca, hcc, hcell, hoff⟩ := cell_rotate i p ab cb st h.outside (by simp [mem_join])
    (by simp [mem_join]) hne hm.1 hm.2
  obtain ⟨hroot, hwalks⟩ := root_rotate i a c (ptr m) tp p ab cb st
  have hframe : Frame st (Avl.rotate i a c (ptr m) tp p ab cb st) tp (some c) _ :=
    ⟨fun y hy => hoff y hy hsub, hroot, hwalks⟩
  -- the subtrees outside stay as they are
  have hkeep : ∀ {q u}, Rep st.cell q u → (∀ y ∈ u.inorder, y ∈ s.inorder ∨ y ∈ o.inorder) →
      a ∉ u.inorder → c ∉ u.inorder → (∀ y ∈ u.inorder, y ∉ m.inorder) →
      Rep (Avl.rotate i a c (ptr m) tp p ab cb st).cell q u := by
    intro q u hu hsub ha hc hum
    refine hu.congr fun y hy => ?_
    rw [hcell y (by simp [mem_join]; grind) (fun h => ha (h ▸ hy)) (fun h => hc (h ▸ hy)),
      cell_setP?_of_notMem st _ (hum y hy)]
  refine ⟨⟨⟨?_, ?_, hin ▸ h.nodup, hin ▸ h.outside⟩, ?_, fun y hy => hin ▸ hy⟩, hin⟩
  · rw [ptr_join]
    exact hframe.load h.outside
  · refine rep_join.mpr ⟨by rw [hcc], ?_, ?_, by rw [hcc],
      rep_join.mpr ⟨by rw [hca], ?_, ?_, by rw [hca], ?_, ?_⟩, ?_⟩
    · simp [hcc, ptr_join]
    · simpa [hcc] using hn'
    · simpa [hca] using hn
    · simp [hca]
    · exact hkeep hrs (fun y hy => .inl hy) hs.1 hs.2 hsm
    · refine (hrm.setP? hnodup (some a)).congr fun y hy => hcell y (hsub y hy) ?_ ?_
      · exact fun h => hm.1 (h ▸ hy)
      · exact fun h => hm.2 (h ▸ hy)
    · exact hkeep hro (fun y hy => .inr hy) ho.1 ho.2 fun y hy hm => hmo y hm hy
  · rw [ptr_join]
    exact hframe

/-! ## The functions -/

theorem singleleft_refines (h : Holds st tp p t) (hrot : t.rotateLeft = some t') :
    ∃ st', singleleft tp p st = some st' ∧ Becomes st st' tp p t' t.inorder ∧
      t'.inorder = t.inorder := by
  rcases t with _ | ⟨l, a, b, _ | ⟨m, c, r2, r⟩⟩
  · cases hrot
  · cases hrot
  have hload : st.load tp = some a := h.load
  obtain ⟨-, -, har, hab, -, -, hcm, -, hcb, -⟩ := h.rep
  cases hrot
  refine ⟨_, ?_, h.rotate (i := false) _ _⟩
  simp only [singleleft, hload, Lib.some_bind, har, ptr, hcb, hab, hcm]
  rfl

theorem singleright_refines (h : Holds st tp p t) (hrot : t.rotateRight = some t') :
    ∃ st', singleright tp p st = some st' ∧ Becomes st st' tp p t' t.inorder ∧
      t'.inorder = t.inorder := by
  rcases t with _ | ⟨_ | ⟨l, c, cb, m⟩, a, b, r⟩
  · cases hrot
  · cases hrot
  have hload : st.load tp = some a := h.load
  obtain ⟨-, hal, -, hab, ⟨-, -, hcm, hcb, -⟩, -⟩ := h.rep
  cases hrot
  refine ⟨_, ?_, h.rotate (i := true) _ _⟩
  simp only [singleright, hload, Lib.some_bind, hal, ptr, hcb, hab, hcm]
  rfl

omit [DecidableEq ν] in
/-- The nodes of a subtree, seen from the tree. -/
theorem nodup_level (h : (node l a b r).inorder.Nodup) :
    a ∉ l.inorder ∧ a ∉ r.inorder ∧ ∀ y ∈ l.inorder, y ∉ r.inorder :=
  ((nodup_join (i := false)).mp h).1

/-- Two rotations, the first one at a child. -/
theorem Holds.double {f g : State ν → Option (State ν)} (h : Holds st tp p (join i s a b o))
    (h1 : ∃ st', f st = some st' ∧ Becomes st st' (.child a i) (some a) s' s.inorder ∧
      s'.inorder = s.inorder)
    (h2 : ∀ {st}, Holds st tp p (join i s' a b o) → ∃ st', g st = some st' ∧
      Becomes st st' tp p t' (join i s' a b o).inorder ∧ t'.inorder = (join i s' a b o).inorder) :
    ∃ st', (f st).bind g = some st' ∧ Becomes st st' tp p t' (join i s a b o).inorder ∧
      t'.inorder = (join i s a b o).inorder := by
  obtain ⟨st₁, hrun1, hbec1, hin1⟩ := h1
  obtain ⟨⟨has, -, hso⟩, -⟩ := nodup_join.mp h.nodup
  have hsub : ∀ y ∈ s.inorder, y ∈ (join i s a b o).inorder := fun y hy => mem_join.mpr (.inl hy)
  obtain ⟨st2, hrun2, ⟨hholds2, hframe2, -⟩, hin2⟩ := h2 <| h.replace hbec1 has
    (fun y hy hy' => hso y hy' hy) (h.outside.mono hsub)
  have hin : (join i s' a b o).inorder = (join i s a b o).inorder := by
    cases i <;> simp [join, hin1]
  have hin' := hin2.trans hin
  refine ⟨st2, by rw [hrun1, bind_some, hrun2], ⟨hholds2, ?_, fun y hy => hin' ▸ hy⟩, hin'⟩
  exact (hbec1.frame.up (h.load.trans (ptr_join i)) (mem_join.mpr (.inr (.head _)))
    hsub).trans hframe2 (fun y hy => hy) fun y hy => hin ▸ hy

theorem balance_refines (h : Holds st tp p t) (hre : t.rebalance = some t') :
    ∃ st', balance tp p st = some st' ∧ Becomes st st' tp p t' t.inorder ∧
      t'.inorder = t.inorder := by
  rcases t with _ | ⟨l, a, b, r⟩
  · cases hre
  have hload : st.load tp = some a := h.load
  have hbal : (st.cell a).bal = b := h.rep.2.2.2.1
  simp only [balance, hload, Option.bind_eq_bind, bind_some, hbal]
  simp only [rebalance] at hre
  by_cases hlow : b = -2
  · rw [if_pos hlow] at hre ⊢
    rcases l with _ | ⟨ll, c, lb, lr⟩
    · cases hre
    have hn : (st.cell a).n false = some c := h.rep.2.1
    have hcb : (st.cell c).bal = lb := (h.child false).rep.2.2.2.1
    simp only [hn, bind_some, hcb]
    simp only at hre
    split_ifs at hre ⊢ with h1 h2
    · exact singleright_refines h hre
    · obtain ⟨l', hrotl, hrotr⟩ := Option.bind_eq_some_iff.mp hre
      simp only [doubleleftright, hload, Lib.some_bind]
      exact h.double (i := false) (singleleft_refines (h.child false) hrotl)
        (singleright_refines · hrotr)
  rw [if_neg hlow] at hre ⊢
  by_cases hhigh : b = 2
  · rw [if_pos hhigh] at hre ⊢
    rcases r with _ | ⟨rl, c, rb, rr⟩
    · cases hre
    have hn : (st.cell a).n true = some c := h.rep.2.2.1
    have hcb : (st.cell c).bal = rb := (h.child true).rep.2.2.2.1
    simp only [hn, bind_some, hcb]
    simp only at hre
    split_ifs at hre ⊢ with h1 h2
    · exact singleleft_refines h hre
    · obtain ⟨r', hrotr, hrotl⟩ := Option.bind_eq_some_iff.mp hre
      simp only [doublerightleft, hload, Lib.some_bind]
      exact h.double (i := true) (singleright_refines (h.child true) hrotr)
        (singleleft_refines · hrotl)
  · rw [if_neg hhigh] at hre ⊢
    cases hre
    exact ⟨st, rfl, ⟨h, Frame.refl hload _, fun _ => id⟩, rfl⟩

theorem canoncmp_cases (x : Int) : canoncmp x = -1 ∨ canoncmp x = 0 ∨ canoncmp x = 1 := by
  unfold canoncmp
  split_ifs <;> simp

omit [DecidableEq ν] in
/-- The balance that is read through a slot. -/
theorem Holds.load_bal (h : Holds st tp p t) (hne : t.inorder ≠ []) :
    ∃ x, st.load tp = some x ∧ (st.cell x).bal = t.bal := by
  rcases t with _ | ⟨l, a, b, r⟩
  · exact absurd rfl hne
  · exact ⟨a, h.load, h.rep.2.2.2.1⟩

variable {x : ν}

/-- A new node takes the place of the one at the top of a subtree, or is that node. -/
theorem install_spec (h : Holds st tp p (.node l a b r)) (hxl : x ∉ l.inorder) (hxr : x ∉ r.inorder)
    (hout : tp.Outside (x :: (node l a b r).inorder)) :
    ∃ st', (let st := st.store tp (some x)
        let st := st.modify x fun _ => st.cell a
        let st := st.setP? ((st.cell x).n false) (some x)
        st.setP? ((st.cell x).n true) (some x)) = st' ∧
      Becomes st st' tp p (.node l x b r) (x :: (node l a b r).inorder) := by
  obtain ⟨hal, har, hlr⟩ := nodup_level h.nodup
  obtain ⟨hload, ⟨hap, hln, hrn, hab, hrl, hrr⟩, hnodup, -⟩ := h
  have hstore : ∀ y ∈ x :: (node l a b r).inorder,
      (st.store tp (some x)).cell y = st.cell y := fun y hy => st.cell_store_of_mem _ hout hy
  have hx2 : ((st.store tp (some x)).modify x fun _ => (st.store tp (some x)).cell a).cell x =
      st.cell a := by
    rw [cell_modify_self]
    exact hstore a (by simp)
  have hkeep2 : ∀ y, y ≠ x →
      ((st.store tp (some x)).modify x fun _ => (st.store tp (some x)).cell a).cell y =
        (st.store tp (some x)).cell y := fun y hy => cell_modify_of_ne _ _ hy
  have hroot2 : ((st.store tp (some x)).modify x fun _ => (st.store tp (some x)).cell a).root =
    (st.store tp (some x)).root := rfl
  have hwalks2 : ((st.store tp (some x)).modify x fun _ => (st.store tp (some x)).cell a).walks =
    st.walks := st.walks_store tp _
  simp only
  generalize ((st.store tp (some x)).modify x fun _ => (st.store tp (some x)).cell a) = st2 at *
  have hln2 : (st2.cell x).n false = ptr l := by rw [hx2, hln]
  rw [hln2]
  have hkeep3 : ∀ y ∉ l.inorder, (st2.setP? (ptr l) (some x)).cell y = st2.cell y :=
    fun y hy => st2.cell_setP?_of_notMem _ hy
  have hrl2 : Rep st2.cell (some a) l := hrl.congr fun y hy => by
    rw [hkeep2 y fun h => hxl (h ▸ hy)]
    exact hstore y (by simp [hy])
  have hrl3 := hrl2.setP? (List.Nodup.of_append_left hnodup) (some x)
  have hroot3 := root_setP? st2 (ptr l) (some x)
  have hwalks3 := walks_setP? st2 (ptr l) (some x)
  generalize st2.setP? (ptr l) (some x) = st3 at *
  have hrn3 : (st3.cell x).n true = ptr r := by rw [hkeep3 x hxl, hx2, hrn]
  rw [hrn3]
  have hkeep4 : ∀ y ∉ r.inorder, (st3.setP? (ptr r) (some x)).cell y = st3.cell y :=
    fun y hy => st3.cell_setP?_of_notMem _ hy
  have hrr3 : Rep st3.cell (some a) r := hrr.congr fun y hy => by
    rw [hkeep3 y fun h => hlr y h hy, hkeep2 y fun h => hxr (h ▸ hy)]
    exact hstore y (by simp [hy])
  have hrr4 := hrr3.setP? (nodup_cons.mp (List.Nodup.of_append_right hnodup)).2 (some x)
  have hroot4 := root_setP? st3 (ptr r) (some x)
  have hwalks4 := walks_setP? st3 (ptr r) (some x)
  generalize st3.setP? (ptr r) (some x) = st4 at *
  have hx4 : st4.cell x = st.cell a := by rw [hkeep4 x hxr, hkeep3 x hxl, hx2]
  have hframe : Frame st st4 tp (some x) (x :: (node l a b r).inorder) := by
    refine ⟨fun y hy => ?_, by rw [hroot4, hroot3, hroot2], by rw [hwalks4, hwalks3, hwalks2]⟩
    simp only [inorder_node, mem_cons, mem_append, not_or] at hy
    rw [hkeep4 y hy.2.2.2, hkeep3 y hy.2.1, hkeep2 y hy.1]
  have hmem : ∀ y ∈ (node l x b r).inorder, y ∈ x :: (node l a b r).inorder := by
    intro y hy
    simp only [inorder_node, mem_append, mem_cons] at hy ⊢
    tauto
  refine ⟨st4, rfl, ⟨hframe.load hout, ⟨?_, ?_, ?_, ?_, ?_, hrr4⟩, ?_, hout.mono hmem⟩, hframe,
    hmem⟩
  · rw [hx4, hap]
  · rw [hx4, hln]
  · rw [hx4, hrn]
  · rw [hx4, hab]
  · exact hrl3.congr fun y hy => hkeep4 y (hlr y hy)
  · rw [inorder_node, nodup_middle, nodup_cons] at hnodup ⊢
    exact ⟨by simp [hxl, hxr], hnodup.2⟩

/-- Where to go from `x`, to insert or find `r`. -/
def dir (cmp : ν → ν → Int) (r x : ν) : Int := canoncmp (cmp r x)

/-- What `dir` is for the side `i`. -/
def sgn (i : Bool) : Int := if i then 1 else -1

theorem side_sgn (i : Bool) : side (sgn i) = i := by
  cases i <;> decide

theorem sgn_ne_zero (i : Bool) : sgn i ≠ 0 := by
  cases i <;> decide

theorem bind_bind_eq_some {α β γ δ : Type} {p : Option δ} {o : δ → Option α} {f : δ → α → β}
    {g : δ → α → γ} {x : α} {y : β} {z : γ}
    (h : (p.bind fun r => (o r).bind fun t => some (t, f r t, g r t)) = some (x, y, z)) :
    ∃ r, p = some r ∧ o r = some x ∧ f r x = y ∧ g r x = z := by
  obtain ⟨r, hr, h⟩ := Option.bind_eq_some_iff.mp h
  obtain ⟨t, ht, h⟩ := Option.bind_eq_some_iff.mp h
  cases h
  exact ⟨r, hr, ht, rfl, rfl⟩

/-- The way back up from a subtree in which the nodes `xs` may have changed. -/
theorem Holds.up (h : Holds st tp p (join i s a b o))
    (h1 : Becomes st st₁ (.child a i) (some a) s' xs) (ha : a ∉ xs) (ho : ∀ y ∈ o.inorder, y ∉ xs)
    (hre : (join i s' a b' o).rebalance = some t) (hout : tp.Outside zs) (hsub : ∀ y ∈ xs, y ∈ zs)
    (hzs : ∀ y ∈ a :: o.inorder, y ∈ zs) :
    ∃ st', balance tp p (st₁.setBal a b') = some st' ∧ Becomes st st' tp p t zs ∧
      t.inorder = (join i s' a b' o).inorder ∧
      ∃ x, st'.load tp = some x ∧ (st'.cell x).bal = t.bal := by
  have hholds := h.replace h1 ha ho (hout.mono hsub)
  obtain ⟨st2, hrun, ⟨hholds2, hframe2, -⟩, hin⟩ := balance_refines (hholds.setBal b') hre
  have hz : ∀ y ∈ (join i s' a b' o).inorder, y ∈ zs := fun y hy =>
    (mem_join.mp hy).elim (fun hy => hsub y (h1.mem y hy)) (hzs y)
  have ha := hzs a (.head _)
  have hmod : Frame st₁ (st₁.setBal a b') tp (some a) zs :=
    Frame.modify (hholds.load.trans (ptr_join i)) ha _
  refine ⟨st2, hrun, ⟨hholds2, ?_, hin ▸ hz⟩, hin, hholds2.load_bal ?_⟩
  · exact ((h1.frame.up (h.load.trans (ptr_join i)) ha hsub).trans hmod (fun y hy => hy)
      fun y hy => hy).trans hframe2 (fun y hy => hy) hz
  · rw [hin]
    exact ne_nil_of_mem (mem_join.mpr (.inr (.head _)))

variable {d : Int} {fuel loops : Nat} {old : Option ν} {ws : List (Avlwalk ν)}

/-- The node is inserted into the subtree on the side `i`. -/
theorem insertAt_child (cmp : ν → ν → Int) (hi : dir cmp x a = sgn i)
    (h : Holds st tp p (join i s a b o)) (hxo : x ∉ o.inorder) (hax : a ≠ x)
    (hout : tp.Outside (x :: (join i s a b o).inorder))
    (hins : ∃ st₁, insertAt cmp fuel (.child a i) (some a) x st = some (st₁, d, old) ∧
      Becomes st st₁ (.child a i) (some a) s' (x :: s.inorder))
    (hre : (join i s' a (b + sgn i * d) o).rebalance = some t) :
    ∃ st', insertAt cmp (fuel + 1) tp p x st =
        some (st', if b = 0 ∧ t.bal ≠ 0 then 1 else 0, old) ∧
      Becomes st st' tp p t (x :: (join i s a b o).inorder) := by
  obtain ⟨⟨has, -, hso⟩, -⟩ := nodup_join.mp h.nodup
  obtain ⟨st₁, hrun, hbec1⟩ := hins
  obtain ⟨st2, hrun2, hbec2, -, z, hz, hzb⟩ := h.up hbec1 (by simp [hax, has])
    (fun y hy hy' => by
      rcases mem_cons.mp hy' with rfl | hy'
      · exact hxo hy
      · exact hso y hy' hy)
    hre hout (fun y hy => (mem_cons.mp hy).elim (· ▸ mem_cons_self) fun hy =>
      mem_cons_of_mem x (mem_join.mpr (.inl hy)))
    fun y hy => mem_cons_of_mem x (mem_join.mpr (.inr hy))
  refine ⟨st2, ?_, hbec2⟩
  change canoncmp (cmp x a) = sgn i at hi
  simp only [insertAt, h.load, ptr_join, (rep_join.mp h.rep).2.2.2.1, hi, ne_eq, sgn_ne_zero,
    not_false_eq_true, if_true, side_sgn, hrun, Lib.some_bind, hrun2, hz, hzb]
  rfl

theorem insertAt_refines (cmp : ν → ν → Int) (hself : dir cmp x x = 0)
    (hdir : AvlTree.Directed (dir cmp x) t.inorder) (h : Holds st tp p t)
    (hout : tp.Outside (x :: t.inorder)) (hins : t.insert (dir cmp x) x = some (t', d, old))
    (hfuel : t.inorder.length < fuel) :
    ∃ st', insertAt cmp fuel tp p x st = some (st', d, old) ∧
      Becomes st st' tp p t' (x :: t.inorder) := by
  induction t generalizing st tp p t' d old fuel with
  | nil =>
    obtain _ | fuel := fuel
    · omega
    simp only [AvlTree.insert, some_inj, Prod.mk.injEq] at hins
    obtain ⟨rfl, rfl, rfl⟩ := hins
    have hload : st.load tp = none := h.load
    have hcell : ((st.modify x fun _ => ⟨p, fun _ => none, 0⟩).store tp (some x)).cell x =
        ⟨p, fun _ => none, 0⟩ := by
      rw [cell_store_of_mem _ _ hout (.head _), cell_modify_self]
    refine ⟨(st.modify x fun _ => ⟨p, fun _ => none, 0⟩).store tp (some x), ?_, ?_, ?_, by simp⟩
    · simp only [insertAt, hload]
    · refine ⟨load_store _ tp _, ⟨?_, ?_, ?_, ?_, trivial, trivial⟩, by simp, hout⟩
      · rw [hcell]
      · rw [hcell]; rfl
      · rw [hcell]; rfl
      · rw [hcell]
    · refine ⟨fun y hy => ?_, ?_, walks_store _ _ _⟩
      · have hne : y ≠ x := fun h => hy (h ▸ mem_cons_self)
        cases tp with
        | root => simp [store, cell_modify, hne]
        | child c i =>
          have hcx : c ≠ x := fun h => hout (h ▸ mem_cons_self)
          simp [ptr, store, setN, cell_modify, hne, hcx]
      · cases tp <;> rfl
  | node l a b r ihl ihr =>
    obtain _ | fuel := fuel
    · omega
    obtain ⟨hal, har, hlr⟩ := nodup_level h.nodup
    rw [AvlTree.inorder_node] at hdir
    simp only [AvlTree.inorder_node, length_append, length_cons] at hfuel
    simp only [AvlTree.insert] at hins
    rcases canoncmp_cases (cmp x a) with hneg | hzero | hpos
    · -- to the left
      change dir cmp x a = -1 at hneg
      rw [if_pos (by omega : dir cmp x a < 0)] at hins
      obtain ⟨⟨l', d', old'⟩, hinsl, hreb, rfl, rfl⟩ := bind_bind_eq_some hins
      have hax : a ≠ x := by
        rintro rfl
        omega
      refine insertAt_child (i := false) cmp hneg h (fun hx => ?_) hax hout
        (ihl hdir.left (h.child false) (by simp [Slot.Outside, hax, hal]) hinsl (by omega)) ?_
      · have := hdir.neg_of_nonpos (by omega) x hx
        omega
      · rw [show b + sgn false * d' = b - d' by simp [sgn]; omega]
        exact hreb
    · change dir cmp x a = 0 at hzero
      rw [if_neg (by omega), if_neg (by omega)] at hins
      simp only [some_inj, Prod.mk.injEq] at hins
      obtain ⟨rfl, rfl, rfl⟩ := hins
      have hxl : x ∉ l.inorder := fun hx => by
        have := hdir.pos_of_nonneg hzero.ge x hx
        omega
      have hxr : x ∉ r.inorder := fun hx => by
        have := hdir.neg_of_nonpos hzero.le x hx
        omega
      obtain ⟨st', hst', hbec⟩ := install_spec h hxl hxr hout
      refine ⟨st', ?_, hbec⟩
      change canoncmp (cmp x a) = 0 at hzero
      simp only [insertAt, h.load, ptr, hzero, ne_eq, not_true_eq_false, if_false, ← hst']
      rfl
    · -- to the right
      change dir cmp x a = 1 at hpos
      rw [if_neg (by omega), if_pos (by omega : dir cmp x a > 0)] at hins
      obtain ⟨⟨r', d', old'⟩, hinsr, hreb, rfl, rfl⟩ := bind_bind_eq_some hins
      have hax : a ≠ x := by
        rintro rfl
        omega
      refine insertAt_child (i := true) cmp hpos h (fun hx => ?_) hax hout
        (ihr hdir.right (h.child true) (by simp [Slot.Outside, hax, har]) hinsr (by omega)) ?_
      · have := hdir.pos_of_nonneg (by omega) x hx
        omega
      · rw [show b + sgn true * d' = b + d' by simp [sgn]]
        exact hreb

/-- A node is taken out by hanging one of its subtrees in its place. -/
theorem splice_spec (hrep : Rep st.cell q s) (hnodup : s.inorder.Nodup) (hout : tp.Outside xs)
    (hsub : ∀ y ∈ s.inorder, y ∈ xs) :
    Becomes st ((st.store tp (ptr s)).setP? (ptr s) p) tp p s xs := by
  have hrep1 : Rep (st.store tp (ptr s)).cell q s :=
    hrep.congr fun y hy => st.cell_store_of_mem _ hout (hsub y hy)
  have hframe : Frame st ((st.store tp (ptr s)).setP? (ptr s) p) tp (ptr s) xs := by
    refine ⟨fun y hy => ?_, root_setP? _ _ _, ?_⟩
    · exact cell_setP?_of_notMem _ _ fun h => hy (hsub y h)
    · rw [walks_setP?, walks_store]
  exact ⟨⟨hframe.load hout, hrep1.setP? hnodup p, hnodup, hout.mono hsub⟩, hframe, hsub⟩

theorem successor_refines (h : Holds st tp p t) {m : ν} (hdel : t.deleteMin = some (t', m, d))
    (hfuel : t.inorder.length < fuel) :
    ∃ st', successor fuel tp p st = some (st', m, d) ∧ Becomes st st' tp p t' t.inorder ∧
      t.inorder = m :: t'.inorder := by
  induction t generalizing st tp p t' m d fuel with
  | nil => cases hdel
  | node l a b r ihl _ =>
    obtain _ | fuel := fuel
    · omega
    obtain ⟨hal, har, hlr⟩ := nodup_level h.nodup
    have hload : st.load tp = some a := h.load
    have hbal : (st.cell a).bal = b := h.rep.2.2.2.1
    have hnl : (st.cell a).n false = ptr l := h.rep.2.1
    have hnr : (st.cell a).n true = ptr r := h.rep.2.2.1
    simp only [successor, hload, Option.bind_eq_bind, bind_some, hbal, hnl, hnr]
    rcases l with _ | ⟨ll, la, lb, lr⟩
    · simp only [deleteMin, some_inj, Prod.mk.injEq] at hdel
      obtain ⟨rfl, rfl, rfl⟩ := hdel
      have hr := h.child true
      exact ⟨_, rfl, splice_spec hr.rep hr.nodup h.outside fun y hy => by simp [hy], rfl⟩
    · simp only [deleteMin] at hdel
      obtain ⟨⟨l', m', d'⟩, hdell, hreb, rfl, rfl⟩ := bind_bind_eq_some hdel
      have hlen : (node ll la lb lr).inorder.length < fuel := by
        rw [inorder_node _ a, length_append] at hfuel
        simp only [length_cons] at hfuel
        omega
      obtain ⟨st₁, hrun, hbec1, hin1⟩ := ihl (h.child false) hdell hlen
      obtain ⟨st2, hrun2, hbec2, hin, z, hz, hzb⟩ := h.up (i := false) hbec1 hal
        (fun y hy hy' => hlr y hy' hy) hreb h.outside (fun y hy => mem_append_left _ hy)
        fun y hy => mem_append_right _ hy
      refine ⟨st2, ?_, hbec2, ?_⟩
      · rw [if_neg (by simp [ptr])]
        simp only [hrun, bind_some, hrun2, hz, hzb]
        rfl
      · rw [hin, join, inorder_node, hin1]
        rfl

omit [DecidableEq ν] in
theorem Holds.withWalks (h : Holds st tp p t) (ws : List (Avlwalk ν)) :
    Holds { st with walks := ws } tp p t := by
  refine ⟨?_, h.rep, h.nodup, h.outside⟩
  rw [← h.load]
  cases tp <;> rfl

/-- The successor, unlinked, is put in the place of a node with two children. -/
theorem replace_eq_install {m : ν} (hma : m ≠ a) (hout : tp.Outside [m, a])
    (hp : (st.cell a).p = p) :
    (let st := st.setBal m (st.cell a).bal;
      let st := st.setN m false ((st.cell a).n false);
      let st := st.setN m true ((st.cell a).n true);
      (st.store tp (some m)).setP m p) =
    (let st := st.store tp (some m); st.modify m fun _ => st.cell a) := by
  have hstore : ∀ (st : State ν), (st.store tp (some m)).cell m = st.cell m := fun st =>
    st.cell_store_of_mem _ hout (by simp)
  have hstore' : ∀ (st : State ν), (st.store tp (some m)).cell a = st.cell a := fun st =>
    st.cell_store_of_mem _ hout (by simp)
  have hroot : ∀ (st : State ν) f, ((st.modify m f).store tp (some m)).root =
      (st.store tp (some m)).root := fun st f => by cases tp <;> rfl
  have hcell : ∀ (st : State ν) f y, y ≠ m → ((st.modify m f).store tp (some m)).cell y =
      (st.store tp (some m)).cell y := by
    intro st f y hy
    cases tp with
    | root => simp [store, cell_modify, hy]
    | child d i =>
      have hdm : d ≠ m := fun h => hout (by simp [h])
      simp [store, setN, cell_modify, hy, hdm]
  have hn : ∀ (f : Bool → Option ν), Function.update
      (Function.update f false ((st.cell a).n false)) true ((st.cell a).n true) =
        (st.cell a).n := by
    intro f
    funext i
    cases i <;> simp
  simp only [setBal, setN, setP, cell_modify_of_ne _ _ hma.symm]
  have hext : ∀ s s' : State ν, s.root = s'.root → s.walks = s'.walks →
      (∀ y, s.cell y = s'.cell y) → s = s' := by
    rintro ⟨r, c, w⟩ ⟨r', c', w'⟩ h1 h2 h3
    obtain rfl : r = r' := h1
    obtain rfl : w = w' := h2
    obtain rfl : c = c' := funext h3
    rfl
  refine hext _ _ ?_ ?_ fun y => ?_
  · simp only [root_modify, hroot]
  · simp only [walks_modify, walks_store]
  by_cases hy : y = m
  · subst hy
    simp only [cell_modify_self, hstore, hstore', hn]
    rw [← hp]
  · rw [cell_modify_of_ne _ _ hy, hcell _ _ y hy, hcell _ _ y hy, hcell _ _ y hy,
      cell_modify_of_ne _ _ hy]

/-- A node with two children is taken out. -/
theorem deleteInner_refines (h : Holds st tp p (.node l a b r)) {m : ν}
    (hdel : r.deleteMin = some (r', m, d)) (hre : (node l m (b + d) r').rebalance = some t')
    (hfuel : r.inorder.length < fuel) :
    ∃ st₁ st', successor fuel (.child a true) (some a) st = some (st₁, m, d) ∧
      (let st := st₁.setBal a (b + d);
        let st := st.setBal m (st.cell a).bal;
        let st := st.setN m false ((st.cell a).n false);
        let st := st.setN m true ((st.cell a).n true);
        let st := (st.store tp (some m)).setP m p;
        let st := st.setP? ((st.cell m).n false) (some m);
        let st := st.setP? ((st.cell m).n true) (some m);
        balance tp p st) = some st' ∧
      Becomes st st' tp p t' (l.inorder ++ a :: r.inorder) ∧
      ∃ x, st'.load tp = some x ∧ (st'.cell x).bal = t'.bal := by
  obtain ⟨hal, har, hlr⟩ := nodup_level h.nodup
  have hload : st.load tp = some a := h.load
  obtain ⟨st₁, hrun, hbec1, hin1⟩ := successor_refines (h.child true) hdel hfuel
  have hmr : m ∈ r.inorder := by
    rw [hin1]
    exact .head _
  have hma : m ≠ a := by
    rintro rfl
    exact har hmr
  have hml : m ∉ l.inorder := fun hx => hlr m hx hmr
  have hmr' : m ∉ r'.inorder := by
    have := (h.child true).nodup
    rw [hin1, nodup_cons] at this
    exact this.1
  have hsub : ∀ y ∈ r.inorder, y ∈ l.inorder ++ a :: r.inorder := fun y hy =>
    mem_append_right _ (mem_cons_of_mem a hy)
  have hholds := h.replace (i := true) hbec1 har hlr (h.outside.mono hsub)
  have hholds2 := hholds.setBal (b + d)
  have hframe2 : Frame st (st₁.setBal a (b + d)) tp (some a) (l.inorder ++ a :: r.inorder) :=
    (hbec1.frame.up hload (by simp) hsub).trans (Frame.modify hholds.load (by simp) _)
      (fun y hy => hy) fun y (hy : y ∈ l.inorder ++ a :: r.inorder) => hy
  have hsub' : ∀ y ∈ m :: (node l a (b + d) r').inorder,
      y ∈ l.inorder ++ a :: r.inorder := fun y hy => by
    rw [inorder_node, mem_cons, mem_append, mem_cons] at hy
    rcases hy with rfl | hy | rfl | hy
    · exact hsub y hmr
    · exact mem_append_left _ hy
    · simp
    · exact hsub y (hbec1.mem y hy)
  have hout' : tp.Outside (m :: (node l a (b + d) r').inorder) := h.outside.mono hsub'
  have hout2 : tp.Outside [m, a] := hout'.mono fun y hy => by
    simp only [mem_cons, not_mem_nil, or_false] at hy
    rcases hy with rfl | rfl <;> simp
  have hinst := replace_eq_install hma hout2 hholds2.rep.1
  obtain ⟨st3, hst3, hholds3, hframe3, hmem3⟩ := install_spec hholds2 hml hmr' hout'
  obtain ⟨st4, hrun4, ⟨hholds4, hframe4, -⟩, hin4⟩ := balance_refines hholds3 hre
  have hsub4 := fun y hy => hsub' y (hmem3 y hy)
  refine ⟨st₁, st4, hrun, ?_, ⟨hholds4, ?_, ?_⟩, hholds4.load_bal (by rw [hin4]; simp)⟩
  · simp only at hinst hst3 ⊢
    rw [hinst, hst3, hrun4]
  · exact (hframe2.trans hframe3 (fun y hy => hy) hsub').trans hframe4 (fun y hy => hy) hsub4
  · rw [hin4]
    exact hsub4

/-- The state a deletion starts from, once its hook has run: the walks are `ws` if there is a node
to delete. -/
def hooked (st : State ν) (found : Option ν) (ws : List (Avlwalk ν)) : State ν :=
  { st with walks := if found.isSome then ws else st.walks }

omit [DecidableEq ν] in
theorem Holds.hooked (h : Holds st tp p t) (found : Option ν) (ws : List (Avlwalk ν)) :
    Holds (hooked st found ws) tp p t :=
  h.withWalks _

/-- The node is deleted from the subtree on the side `i`. -/
theorem deleteAt_child (cmp : ν → ν → Int) (hi : dir cmp x a = sgn i)
    (h : Holds st tp p (join i s a b o)) {found : Option ν}
    (hdel : ∃ st₁, deleteAt cmp loops fuel (.child a i) (some a) x st = some (st₁, d, old) ∧
      Becomes (hooked st found ws) st₁ (.child a i) (some a) s' s.inorder)
    (hre : (join i s' a (b + sgn i * d) o).rebalance = some t) :
    ∃ st', deleteAt cmp loops (fuel + 1) tp p x st =
        some (st', if b ≠ 0 ∧ t.bal = 0 then -1 else 0, old) ∧
      Becomes (hooked st found ws) st' tp p t (join i s a b o).inorder := by
  obtain ⟨⟨has, -, hso⟩, -⟩ := nodup_join.mp h.nodup
  obtain ⟨st₁, hrun, hbec1⟩ := hdel
  obtain ⟨st2, hrun2, hbec2, -, z, hz, hzb⟩ := (h.hooked found ws).up hbec1 has
    (fun y hy hy' => hso y hy' hy) hre h.outside (fun y hy => mem_join.mpr (.inl hy))
    fun y hy => mem_join.mpr (.inr hy)
  refine ⟨st2, ?_, hbec2⟩
  change canoncmp (cmp x a) = sgn i at hi
  simp only [deleteAt, h.load, ptr_join, (rep_join.mp h.rep).2.2.2.1, hi, ne_eq, sgn_ne_zero,
    not_false_eq_true, if_true, side_sgn, hrun, Lib.some_bind, hrun2, hz, hzb]
  rfl

theorem deleteAt_refines (cmp : ν → ν → Int) (hdir : Directed (dir cmp x) t.inorder)
    (h : Holds st tp p t)
    (hhook : ∀ a, at? (dir cmp x) t.inorder = some a →
      walkdel loops a st = some { st with walks := ws })
    (hdel : t.delete (dir cmp x) = some (t', d, old)) (hfuel : t.inorder.length < fuel) :
    ∃ st', deleteAt cmp loops fuel tp p x st = some (st', d, old) ∧
      Becomes (hooked st (at? (dir cmp x) t.inorder) ws) st' tp p t' t.inorder := by
  induction t generalizing st tp p t' d old fuel with
  | nil =>
    obtain _ | fuel := fuel
    · omega
    simp only [delete, some_inj, Prod.mk.injEq] at hdel
    obtain ⟨rfl, rfl, rfl⟩ := hdel
    have hload : st.load tp = none := h.load
    exact ⟨st, by simp only [deleteAt, hload], h, Frame.refl hload _, fun y hy => hy⟩
  | node l a b r ihl ihr =>
    obtain _ | fuel := fuel
    · omega
    rw [inorder_node] at hdir hhook hfuel ⊢
    simp only [length_append, length_cons] at hfuel
    simp only [delete] at hdel
    rcases canoncmp_cases (cmp x a) with hneg | hzero | hpos
    · -- to the left
      change dir cmp x a = -1 at hneg
      obtain ⟨-, -, hat⟩ := cut_left hdir (by omega : dir cmp x a < 0)
      rw [hat] at hhook ⊢
      rw [if_pos (by omega : dir cmp x a < 0)] at hdel
      obtain ⟨⟨l', d', old'⟩, hdell, hreb, rfl, rfl⟩ := bind_bind_eq_some hdel
      refine deleteAt_child (i := false) cmp hneg h
        (ihl hdir.left (h.child false) hhook hdell (by omega)) ?_
      rw [show b + sgn false * d' = b - d' by simp [sgn]; omega]
      exact hreb
    · -- the node itself
      change dir cmp x a = 0 at hzero
      obtain ⟨-, -, hat⟩ := cut_here hdir hzero
      rw [hat] at hhook ⊢
      rw [if_neg (by omega), if_neg (by omega)] at hdel
      change canoncmp (cmp x a) = 0 at hzero
      have hload : st.load tp = some a := h.load
      have hbal : (st.cell a).bal = b := h.rep.2.2.2.1
      simp only [deleteAt, hload, hbal, hzero, ne_eq, not_true_eq_false, if_false, hhook a rfl,
        Option.bind_eq_bind, bind_some]
      have h0 := h.hooked (some a) ws
      change ∃ st', (if ((hooked st (some a) ws).cell a).n false = none then _ else _) = _ ∧ _
      have hnil : ptr (.nil : AvlTree ν) = none := rfl
      have hnl : ((hooked st (some a) ws).cell a).n false = ptr l := h.rep.2.1
      have hnr : ((hooked st (some a) ws).cell a).n true = ptr r := h.rep.2.2.1
      rw [hnl]
      rcases l with _ | ⟨ll, la, lb, lr⟩
      · simp only [some_inj, Prod.mk.injEq] at hdel
        obtain ⟨rfl, rfl, rfl⟩ := hdel
        have hsub : ∀ y ∈ r.inorder, y ∈ [] ++ a :: r.inorder := fun y hy => by simp [hy]
        refine ⟨_, ?_, splice_spec (h0.child true).rep (h0.child true).nodup h.outside hsub⟩
        rw [if_pos hnil, ← hnr]
        rfl
      rw [if_neg (by simp [ptr])]
      change ∃ st', (if ((hooked st (some a) ws).cell a).n true = none then _ else _) = _ ∧ _
      rw [hnr]
      rcases r with _ | ⟨rl, ra, rb, rr⟩
      · simp only [some_inj, Prod.mk.injEq] at hdel
        obtain ⟨rfl, rfl, rfl⟩ := hdel
        have hsub : ∀ y ∈ (node ll la lb lr).inorder,
            y ∈ (node ll la lb lr).inorder ++ a :: (nil : AvlTree ν).inorder :=
          fun y hy => mem_append_left _ hy
        refine ⟨_, ?_, splice_spec (h0.child false).rep (h0.child false).nodup h.outside hsub⟩
        rw [if_pos hnil, ← hnl]
        rfl
      rw [if_neg (by simp [ptr])]
      obtain ⟨⟨r', m, d'⟩, hdelr, hreb, rfl, rfl⟩ := bind_bind_eq_some hdel
      obtain ⟨st₁, st', hsucc, hrun, hbec, z, hz, hzb⟩ :=
        deleteInner_refines h0 hdelr hreb (by omega : (node rl ra rb rr).inorder.length < fuel)
      refine ⟨st', ?_, hbec⟩
      change (successor fuel (.child a true) (some a) (hooked st (some a) ws)).bind _ = _
      rw [hsucc, bind_some]
      simp only at hrun ⊢
      rw [hrun, bind_some, hz, bind_some, hzb]
      rfl
    · -- to the right
      change dir cmp x a = 1 at hpos
      obtain ⟨-, -, hat⟩ := cut_right hdir (by omega : 0 < dir cmp x a)
      rw [hat] at hhook ⊢
      rw [if_neg (by omega), if_pos (by omega : dir cmp x a > 0)] at hdel
      obtain ⟨⟨r', d', old'⟩, hdelr, hreb, rfl, rfl⟩ := bind_bind_eq_some hdel
      refine deleteAt_child (i := true) cmp hpos h
        (ihr hdir.right (h.child true) hhook hdelr (by omega)) ?_
      rw [show b + sgn true * d' = b + d' by simp [sgn]]
      exact hreb

end Plan9Port.Avl
