import Plan9Port.Avl.Neighbours

/-!
# Updates of a tree

The comparison orders the nodes by some key. The pointers of the nodes then form a balanced search
tree after any insertions and deletions, and a lookup finds what a map from keys to nodes holds.

## Main results

* `insertavl_spec`, `deleteavl_spec`: one update
* `runUpdates_searchTree`, `lookupavl_spec`: every run
-/

namespace Plan9Port.Avl

open AvlTree
open List hiding after

variable {ν κ : Type} [DecidableEq ν] [LinearOrder κ]

/-- `cmp` compares by the keys of the nodes. -/
structure Compares (cmp : ν → ν → Int) (key : ν → κ) : Prop where
  lt : ∀ a b, cmp a b < 0 ↔ key a < key b
  eq : ∀ a b, cmp a b = 0 ↔ key a = key b

/-- The tree at the root: a balanced search tree whose pointers, parents and balances are right. -/
structure SearchTree (key : ν → κ) (st : State ν) (t : AvlTree ν) : Prop where
  holds : Holds st .root none t
  balanced : t.Balanced
  sorted : t.inorder.Pairwise (key · < key ·)

variable {t : AvlTree ν} {st : State ν}

omit [DecidableEq ν] in
theorem SearchTree.key_inj {key : ν → κ} (h : SearchTree key st t) {a b : ν} (ha : a ∈ t.inorder)
    (hb : b ∈ t.inorder) (heq : key a = key b) : a = b := by
  have hnodup : (t.inorder.map key).Nodup := pairwise_map.mpr (h.sorted.imp fun hlt => ne_of_lt hlt)
  exact inj_on_of_nodup_map hnodup ha hb heq

variable {xs : List ν} {y x : ν} {fuel : Nat} {cmp : ν → ν → Int} {key : ν → κ} {m : κ → Option ν}

section Compares

variable (hcmp : Compares cmp key)
include hcmp

omit [DecidableEq ν] in
theorem Compares.dir_neg (x y : ν) : dir cmp x y < 0 ↔ key x < key y := by
  rw [← hcmp.lt, dir, canoncmp]
  split_ifs <;> omega

omit [DecidableEq ν] in
theorem Compares.dir_eq_zero (x y : ν) : dir cmp x y = 0 ↔ key x = key y := by
  rw [← hcmp.eq, dir, canoncmp]
  split_ifs <;> constructor <;> intro h <;> first | omega | exact h.elim

omit [DecidableEq ν] in
theorem Compares.dir_pos (x y : ν) : 0 < dir cmp x y ↔ key y < key x := by
  rw [← not_le, ← not_le, le_iff_lt_or_eq, le_iff_lt_or_eq, hcmp.dir_neg, hcmp.dir_eq_zero]

omit [DecidableEq ν] in
/-- A sorted list leads a search to its place. -/
theorem Compares.directed (hxs : xs.Pairwise (key · < key ·)) (x : ν) :
    Directed (dir cmp x) xs := by
  refine List.Pairwise.imp (fun {y z} hyz => ?_) hxs
  intro hle
  refine (hcmp.dir_neg x z).mpr ?_
  have hxy : key x ≤ key y := not_lt.mp fun hlt => by
    have := (hcmp.dir_pos x y).mpr hlt
    omega
  exact lt_of_le_of_lt hxy hyz

omit [DecidableEq ν] in
theorem Compares.mem_before :
    y ∈ before (dir cmp x) xs ↔ y ∈ xs ∧ key y < key x := by
  simp [before, hcmp.dir_pos]

omit [DecidableEq ν] in
theorem Compares.mem_after :
    y ∈ after (dir cmp x) xs ↔ y ∈ xs ∧ key x < key y := by
  simp [after, hcmp.dir_neg]

omit [DecidableEq ν] in
theorem Compares.at?_eq_some {a : ν} (h : at? (dir cmp x) xs = some a) :
    a ∈ xs ∧ key a = key x := by
  refine ⟨mem_of_find?_eq_some h, ?_⟩
  have := find?_some h
  rw [decide_eq_true_eq, hcmp.dir_eq_zero] at this
  exact this.symm

omit [DecidableEq ν] in
theorem Compares.at?_eq_none (h : at? (dir cmp x) xs = none) :
    ∀ y ∈ xs, key y ≠ key x := by
  intro y hy heq
  have := find?_eq_none.mp h y hy
  exact this (decide_eq_true ((hcmp.dir_eq_zero x y).mpr heq.symm))

omit [DecidableEq ν] in
/-- What is left of a sorted list without the key of `x`. -/
theorem Compares.mem_before_or_after :
    y ∈ before (dir cmp x) xs ∨ y ∈ after (dir cmp x) xs ↔ y ∈ xs ∧ key y ≠ key x := by
  rw [hcmp.mem_before, hcmp.mem_after, ← and_or_left, ne_iff_lt_or_gt]

omit [DecidableEq ν] in
theorem Compares.sorted_delete (hxs : xs.Pairwise (key · < key ·)) (x : ν) :
    (before (dir cmp x) xs ++ after (dir cmp x) xs).Pairwise (key · < key ·) := by
  refine pairwise_append.mpr ⟨hxs.filter _, hxs.filter _, fun y hy z hz => ?_⟩
  exact lt_trans (hcmp.mem_before.mp hy).2 (hcmp.mem_after.mp hz).2

omit [DecidableEq ν] in
theorem Compares.sorted_insert (hxs : xs.Pairwise (key · < key ·)) (x : ν) :
    (before (dir cmp x) xs ++ x :: after (dir cmp x) xs).Pairwise
      (key · < key ·) := by
  refine pairwise_append.mpr ⟨hxs.filter _, pairwise_cons.mpr
    ⟨fun z hz => (hcmp.mem_after.mp hz).2, hxs.filter _⟩, fun y hy z hz => ?_⟩
  rcases mem_cons.mp hz with rfl | hz
  · exact (hcmp.mem_before.mp hy).2
  · exact lt_trans (hcmp.mem_before.mp hy).2 (hcmp.mem_after.mp hz).2

omit [DecidableEq ν] [LinearOrder κ] hcmp in
variable (cmp) in
theorem length_before_after (xs : List ν) (x : ν) :
    (before (dir cmp x) xs).length + (after (dir cmp x) xs).length ≤ xs.length := by
  have hsub : after (dir cmp x) xs =
      (xs.filter (fun y => ! decide (0 < dir cmp x y))).filter (dir cmp x · < 0) := by
    rw [filter_filter]
    refine filter_congr fun y _ => ?_
    rw [Bool.eq_iff_iff]
    simp
    omega
  have hle := length_filter_le (dir cmp x · < 0)
    (xs.filter (fun y => ! decide (0 < dir cmp x y)))
  have hsum := length_eq_length_filter_add (l := xs) (fun y => decide (0 < dir cmp x y))
  rw [hsub, before]
  omega

/-! ## One update -/

theorem insertavl_spec (h : SearchTree key st t) (x : ν) (hfuel : t.inorder.length < fuel) :
    ∃ st' t', insertavl cmp fuel x st = some (st', at? (dir cmp x) t.inorder) ∧
      SearchTree key st' t' ∧ st'.walks = st.walks ∧
      t'.inorder = before (dir cmp x) t.inorder ++ x :: after (dir cmp x) t.inorder := by
  have hdir := hcmp.directed h.sorted x
  obtain ⟨t', d, hins, hbal, -, -, hinorder⟩ := insert_spec x h.balanced hdir
  have hself : dir cmp x x = 0 := (hcmp.dir_eq_zero x x).mpr rfl
  obtain ⟨st', hrun, hholds, hframe, -⟩ :=
    insertAt_refines cmp hself hdir h.holds trivial hins hfuel
  refine ⟨st', t', ?_, ⟨hholds, hbal, ?_⟩, hframe.walks, hinorder⟩
  · simp [insertavl, hrun]
  · rw [hinorder]
    exact hcmp.sorted_insert h.sorted x

end Compares

/-- What the hook does to a walk when `a` goes away and `p` is the node before it. -/
def Avlwalk.retreat (a : ν) (p : Option ν) (w : Avlwalk ν) : Avlwalk ν :=
  if w.node = some a then { w with moved := true, node := p, started := w.started && p.isSome }
  else w

/-- The walks after the deletion of the node `found`. -/
def retreatAll (found p : Option ν) (ws : List (Avlwalk ν)) : List (Avlwalk ν) :=
  match found with
  | none => ws
  | some a => ws.map (Avlwalk.retreat a p)

theorem deleteavl_spec (hcmp : Compares cmp key) (h : SearchTree key st t) (x : ν)
    (hfuel : t.inorder.length < fuel) :
    ∃ st' t', deleteavl cmp fuel x st = some (st', at? (dir cmp x) t.inorder) ∧
      SearchTree key st' t' ∧
      st'.walks = retreatAll (at? (dir cmp x) t.inorder)
        (before (dir cmp x) t.inorder).getLast? st.walks ∧
      t'.inorder = before (dir cmp x) t.inorder ++ after (dir cmp x) t.inorder := by
  have hdir := hcmp.directed h.sorted x
  obtain ⟨t', d, hdel, hbal, -, -, hinorder⟩ := delete_spec h.balanced hdir
  obtain ⟨ws, hws⟩ : ∃ ws, ws = retreatAll (at? (dir cmp x) t.inorder)
    (before (dir cmp x) t.inorder).getLast? st.walks := ⟨_, rfl⟩
  -- the hook finds the node before the one that goes away
  have hhook : ∀ a, at? (dir cmp x) t.inorder = some a →
      walkdel fuel a st = some { st with walks := ws } := by
    intro a ha
    obtain ⟨hmem, hkey⟩ := hcmp.at?_eq_some ha
    have hpred := findpredecessor_spec h.holds hmem hfuel
    obtain ⟨xs, ys, hxs⟩ := append_of_mem hmem
    have hnodup := h.holds.nodup
    rw [hxs, nodup_append, nodup_cons] at hnodup
    rw [hxs] at hdir
    obtain ⟨hbefore, -, -⟩ := cut_here hdir ((hcmp.dir_eq_zero x a).mpr hkey.symm)
    rw [hxs, prev?_append hnodup.2.1.1] at hpred
    rw [hws, ha, hxs, hbefore]
    simp only [walkdel, hpred, retreatAll]
    rfl
  obtain ⟨st', hrun, hholds, hframe, -⟩ := deleteAt_refines cmp hdir h.holds hhook hdel hfuel
  refine ⟨st', t', ?_, ⟨hholds, hbal, ?_⟩, ?_, hinorder⟩
  · simp [deleteavl, hrun]
  · rw [hinorder]
    exact hcmp.sorted_delete h.sorted x
  · rw [hframe.walks, hooked, hws]
    rcases at? (dir cmp x) t.inorder with _ | a <;> rfl

/-! ## Runs of updates -/

/-- The calls that change a tree. -/
inductive Update (ν : Type) where
  | insertavl (new : ν)
  | deleteavl (key : ν)

/-- What a call does. -/
def Update.exec (cmp : ν → ν → Int) (fuel : Nat) : Update ν → State ν → Option (State ν)
  | .insertavl new, st => (Avl.insertavl cmp fuel new st).map Prod.fst
  | .deleteavl key, st => (Avl.deleteavl cmp fuel key st).map Prod.fst

/-- What some calls do. -/
def runUpdates (cmp : ν → ν → Int) (fuel : Nat) : List (Update ν) → State ν → Option (State ν)
  | [], st => some st
  | u :: us, st => do
    let st ← u.exec cmp fuel st
    runUpdates cmp fuel us st

/-- What an update does to a map from keys to the nodes that are in the tree. -/
def Update.bind (key : ν → κ) : Update ν → (κ → Option ν) → κ → Option ν
  | .insertavl new, m => Function.update m (key new) (some new)
  | .deleteavl x, m => Function.update m (key x) none

/-- The node of each key after them. -/
def bindings (key : ν → κ) (us : List (Update ν)) (m : κ → Option ν) : κ → Option ν :=
  us.foldl (fun m u => u.bind key m) m

/-- The tree holds the nodes of the map. -/
def Represents (key : ν → κ) (t : AvlTree ν) (m : κ → Option ν) : Prop :=
  ∀ k a, m k = some a ↔ a ∈ t.inorder ∧ key a = k

theorem Update.exec_spec (hcmp : Compares cmp key) (u : Update ν) (h : SearchTree key st t)
    (hm : Represents key t m) (hfuel : t.inorder.length < fuel) :
    ∃ st' t', u.exec cmp fuel st = some st' ∧ SearchTree key st' t' ∧
      Represents key t' (u.bind key m) ∧ t'.inorder.length ≤ t.inorder.length + 1 := by
  cases u with
  | insertavl x =>
    obtain ⟨st', t', hrun, htree, -, hinorder⟩ := insertavl_spec hcmp h x hfuel
    refine ⟨st', t', by simp [Update.exec, hrun], htree, fun k a => ?_, ?_⟩
    · rw [hinorder, mem_append, mem_cons, or_left_comm, hcmp.mem_before_or_after, Update.bind]
      by_cases hk : k = key x
      · subst hk
        rw [Function.update_self, Option.some_inj]
        constructor
        · rintro rfl
          exact ⟨Or.inl rfl, rfl⟩
        · rintro ⟨rfl | ⟨-, hne⟩, heq⟩
          · rfl
          · exact absurd heq hne
      · rw [Function.update_of_ne hk, hm]
        constructor
        · rintro ⟨hmem, rfl⟩
          exact ⟨Or.inr ⟨hmem, hk⟩, rfl⟩
        · rintro ⟨rfl | ⟨hmem, -⟩, rfl⟩
          · exact absurd rfl hk
          · exact ⟨hmem, rfl⟩
    · have := length_before_after cmp t.inorder x
      rw [hinorder, length_append, length_cons]
      omega
  | deleteavl x =>
    obtain ⟨st', t', hrun, htree, -, hinorder⟩ := deleteavl_spec hcmp h x hfuel
    refine ⟨st', t', by simp [Update.exec, hrun], htree, fun k a => ?_, ?_⟩
    · rw [hinorder, mem_append, hcmp.mem_before_or_after, Update.bind]
      by_cases hk : k = key x
      · subst hk
        simp
      rw [Function.update_of_ne hk, hm]
      constructor
      · rintro ⟨hmem, rfl⟩
        exact ⟨⟨hmem, hk⟩, rfl⟩
      · rintro ⟨⟨hmem, -⟩, rfl⟩
        exact ⟨hmem, rfl⟩
    · have := length_before_after cmp t.inorder x
      rw [hinorder, length_append]
      omega

theorem runUpdates_spec (hcmp : Compares cmp key) (us : List (Update ν)) (h : SearchTree key st t)
    (hm : Represents key t m) (hfuel : t.inorder.length + us.length < fuel) :
    ∃ st' t', runUpdates cmp fuel us st = some st' ∧ SearchTree key st' t' ∧
      Represents key t' (bindings key us m) ∧
      t'.inorder.length ≤ t.inorder.length + us.length := by
  induction us generalizing st t m with
  | nil => exact ⟨st, t, rfl, h, hm, le_rfl⟩
  | cons u us ih =>
    rw [length_cons] at hfuel
    obtain ⟨st1, t1, hrun1, htree1, hm1, hlen1⟩ := u.exec_spec hcmp h hm (by omega : _ < fuel)
    obtain ⟨st2, t2, hrun2, htree2, hm2, hlen2⟩ := ih htree1 hm1 (by omega)
    refine ⟨st2, t2, by simp [runUpdates, hrun1, hrun2], htree2, hm2, ?_⟩
    rw [length_cons]
    omega

omit [DecidableEq ν] in
theorem searchTree_nil (hroot : st.root = none) (key : ν → κ) :
    SearchTree key st .nil :=
  ⟨⟨hroot, trivial, nodup_nil, trivial⟩, trivial, List.Pairwise.nil⟩

/-- **Every run of updates keeps a balanced search tree.** From the empty tree no update fails, and
what the tree holds at the end is what the updates leave bound; a search then meets no wrong parent
pointer and finds the node, or its neighbour. -/
theorem runUpdates_searchTree (hcmp : Compares cmp key) (us : List (Update ν)) {st : State ν}
    (hroot : st.root = none) {fuel : Nat} (hfuel : us.length < fuel) :
    ∃ st' t, runUpdates cmp fuel us st = some st' ∧ SearchTree key st' t ∧
      Represents key t (bindings key us fun _ => none) ∧
      ∀ x neighbor, searchavl cmp fuel x neighbor st' =
        some (found (dir cmp x) neighbor t.inorder) := by
  have hnil : Represents key .nil (fun _ => none) := fun k a => by simp
  obtain ⟨st', t, hrun, htree, hm, hlen⟩ := runUpdates_spec hcmp us (searchTree_nil hroot key) hnil
    (by simpa using hfuel : _ < fuel)
  refine ⟨st', t, hrun, htree, hm, fun x neighbor => ?_⟩
  refine searchavl_spec cmp htree.holds (hcmp.directed htree.sorted x) neighbor ?_
  simp only [inorder_nil, length_nil] at hlen
  omega

/-- Numbers that are their own keys, with a deletion and a key inserted twice. -/
theorem runUpdates_searchTree_numbers :
    ∃ st' t, runUpdates (fun a b : Nat => (a : Int) - b) 6
        [.insertavl 3, .insertavl 1, .insertavl 3, .insertavl 2, .deleteavl 1]
        ⟨none, fun _ => ⟨none, fun _ => none, 0⟩, []⟩ = some st' ∧
      SearchTree (id : Nat → Nat) st' t ∧
      Represents id t (bindings id
        [.insertavl 3, .insertavl 1, .insertavl 3, .insertavl 2, .deleteavl 1] fun _ => none) ∧
      ∀ x neighbor, searchavl (fun a b : Nat => (a : Int) - b) 6 x neighbor st' =
        some (found (dir (fun a b : Nat => (a : Int) - b) x) neighbor t.inorder) :=
  runUpdates_searchTree ⟨fun a b => by simp, fun a b => by simp [sub_eq_zero]⟩ _ rfl (by decide)

/-- **A lookup reads what the updates leave bound.** -/
theorem lookupavl_spec (hcmp : Compares cmp key) (us : List (Update ν)) (hroot : st.root = none)
    (hfuel : us.length < fuel) :
    (runUpdates cmp fuel us st).bind (lookupavl cmp fuel x) =
      some (bindings key us (fun _ => none) (key x)) := by
  obtain ⟨st', t, hrun, htree, hm, hlen⟩ := runUpdates_spec hcmp us (searchTree_nil hroot key)
    (m := fun _ => none) (by simp [Represents]) (by simpa using hfuel : _ < fuel)
  have hfound := searchavl_spec cmp htree.holds (hcmp.directed htree.sorted x) 0
    (hlen.trans_lt (by simpa using hfuel))
  rw [hrun, Option.bind_some, lookupavl, hfound, Option.some_inj, found, eq_comm]
  split
  case h_1 a hat => exact (hm _ a).mpr (hcmp.at?_eq_some hat)
  case h_2 hat =>
    refine Option.eq_none_iff_forall_ne_some.mpr fun a ha => ?_
    have hin := (hm _ a).mp ha
    exact hcmp.at?_eq_none hat a hin.1 hin.2

theorem lookupavl_spec_kept :
    (runUpdates Int.sub 4 [.insertavl 3, .insertavl 1, .deleteavl 3]
      ⟨none, fun _ => ⟨none, fun _ => none, 0⟩, []⟩).bind (lookupavl Int.sub 4 1) = some (some 1) :=
  lookupavl_spec (⟨fun _ _ => sub_neg, fun _ _ => sub_eq_zero⟩ : Compares _ id) _ rfl (by simp)

end Plan9Port.Avl
