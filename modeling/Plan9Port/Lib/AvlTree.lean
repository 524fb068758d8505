import Mathlib.Tactic.Linarith

/-!
# AVL trees with stored balances

Every node stores the height of its right subtree minus that of its left one. Rotations compute
the new balances from the old ones alone, and an insertion or a deletion tells its caller by how
much the height of the subtree has changed. Operations fail on a tree they cannot be done on.

## Main results

* `insert_spec`, `deleteMin_spec`, `delete_spec`: they succeed on a balanced tree and leave one,
  and the change of height is the one they report
-/

/-- Trees with balance factors. -/
inductive AvlTree (α : Type*) where
  | nil
  | node (l : AvlTree α) (a : α) (bal : Int) (r : AvlTree α)

namespace AvlTree

open List

open Option (bind_some bind_eq_bind)

variable {α : Type*} {dir : α → Int} {t : AvlTree α}

/-- The elements in order. -/
def inorder : AvlTree α → List α
  | nil => []
  | node l a _ r => l.inorder ++ a :: r.inorder

/-- The height. -/
def height : AvlTree α → Int
  | nil => 0
  | node l _ _ r => max l.height r.height + 1

/-- The balance at the root. -/
def bal : AvlTree α → Int
  | nil => 0
  | node _ _ b _ => b

/-- The stored balances are right, and none is off by more than one. -/
def Balanced : AvlTree α → Prop
  | nil => True
  | node l _ b r => l.Balanced ∧ r.Balanced ∧ b = r.height - l.height ∧ -1 ≤ b ∧ b ≤ 1

@[simp] theorem inorder_nil : (nil : AvlTree α).inorder = [] := rfl

section

variable (l : AvlTree α) (a : α) (b : Int) (r : AvlTree α)
include l a b r

@[simp] theorem inorder_node :
    (node l a b r).inorder = l.inorder ++ a :: r.inorder := rfl

@[simp] theorem bal_node : (node l a b r).bal = b := rfl

theorem height_node :
    (node l a b r).height = max l.height r.height + 1 := rfl

end

theorem height_nonneg (t : AvlTree α) : 0 ≤ t.height := by
  induction t with
  | nil => exact le_rfl
  | node l a b r ihl _ =>
    rw [height_node]
    omega

/-! ## Rotations -/

/-- A rotation to the left. -/
def rotateLeft : AvlTree α → Option (AvlTree α)
  | node l a b (node cl c r2 cr) =>
    let x := max r2 0 + 1 - b
    some (node (node l a (-x) cl) c (r2 - (max x 0 + 1)) cr)
  | _ => none

/-- A rotation to the right. -/
def rotateRight : AvlTree α → Option (AvlTree α)
  | node (node cl c cb cr) a b r =>
    let l2 := -cb
    let x := b + (max l2 0 + 1)
    some (node cl c (max x 0 + 1 - l2) (node cr a x r))
  | _ => none

/-- Restores a balance of -2 or 2. -/
def rebalance : AvlTree α → Option (AvlTree α)
  | nil => none
  | node l a b r =>
    if b = -2 then
      match l with
      | nil => none
      | node _ _ lb _ =>
        if lb ≤ 0 then rotateRight (node l a b r)
        else if lb = 1 then do
          let l' ← rotateLeft l
          rotateRight (node l' a b r)
        else none
    else if b = 2 then
      match r with
      | nil => none
      | node _ _ rb _ =>
        if rb ≥ 0 then rotateLeft (node l a b r)
        else if rb = -1 then do
          let r' ← rotateRight r
          rotateLeft (node l a b r')
        else none
    else some (node l a b r)

/-- The balance is right, and at most one step too far. -/
structure Leaning (l : AvlTree α) (b : Int) (r : AvlTree α) : Prop where
  left : l.Balanced
  right : r.Balanced
  eq : b = r.height - l.height
  ge : -2 ≤ b
  le : b ≤ 2

/-- `rebalance` restores the invariant and keeps the order. It lowers a tree that was off balance
by one, unless its new balance is not 0. -/
theorem rebalance_spec {l : AvlTree α} {b : Int} {r : AvlTree α} (h : Leaning l b r) (a : α) :
    ∃ t, rebalance (node l a b r) = some t ∧ t.Balanced ∧
      t.inorder = l.inorder ++ a :: r.inorder ∧
      t.height = max l.height r.height + 1 -
        (if (b = -2 ∨ b = 2) ∧ t.bal = 0 then 1 else 0) ∧
      (-1 ≤ b → b ≤ 1 → t.bal = b) ∧ (b = -2 → l.bal ≠ 0 → t.bal = 0) ∧
      (b = 2 → r.bal ≠ 0 → t.bal = 0) := by
  obtain ⟨hl, hr, hb, hge, hle⟩ := h
  by_cases hlow : b = -2
  · -- the left subtree is too high: its own balance says which rotation is due
    rcases l with _ | ⟨ll, la, lb, lr⟩
    · have := height_nonneg r
      simp only [height] at hb
      omega
    obtain ⟨hll, hlr, hlb, hlge, hlle⟩ := hl
    rw [height_node] at hb
    by_cases hlb0 : lb ≤ 0
    · refine ⟨node ll la (max (b + (max (-lb) 0 + 1)) 0 + 1 - -lb)
        (node lr a (b + (max (-lb) 0 + 1)) r), ?_, ?_, ?_, ?_, ?_, ?_, ?_⟩
      · simp only [rebalance, if_pos hlow, if_pos hlb0, rotateRight]
      · refine ⟨hll, ⟨hlr, hr, ?_, ?_, ?_⟩, ?_, ?_, ?_⟩ <;> (try rw [height_node]) <;> omega
      · simp
      · simp only [height_node, bal_node]
        split_ifs <;> omega
      · omega
      · simp only [bal_node]
        omega
      · simp only [bal_node]
        omega
    · have hlb1 : lb = 1 := by omega
      rcases lr with _ | ⟨ml, ma, mb, mr⟩
      · have := height_nonneg ll
        simp only [height] at hlb
        omega
      obtain ⟨hml, hmr, hmb, hmge, hmle⟩ := hlr
      rw [height_node] at hlb hb
      generalize hx : max mb 0 + 1 - lb = x
      generalize hl2 : -(mb - (max x 0 + 1)) = l2
      generalize hy : b + (max l2 0 + 1) = y
      refine ⟨node (node ll la (-x) ml) ma (max y 0 + 1 - l2) (node mr a y r), ?_, ?_, ?_, ?_, ?_,
        ?_, ?_⟩
      · simp only [rebalance, if_pos hlow, if_neg hlb0, if_pos hlb1, rotateLeft, rotateRight,
          bind_eq_bind, bind_some, hx, hl2, hy]
      · refine ⟨⟨hll, hml, ?_, ?_, ?_⟩, ⟨hmr, hr, ?_, ?_, ?_⟩, ?_, ?_, ?_⟩ <;>
          (try rw [height_node]) <;> (try rw [height_node]) <;> omega
      · simp
      · simp only [height_node, bal_node]
        split_ifs <;> omega
      · omega
      · simp only [bal_node]
        omega
      · simp only [bal_node]
        omega
  by_cases hhigh : b = 2
  · rcases r with _ | ⟨rl, ra, rb, rr⟩
    · have := height_nonneg l
      simp only [height] at hb
      omega
    obtain ⟨hrl, hrr, hrb, hrge, hrle⟩ := hr
    rw [height_node] at hb
    by_cases hrb0 : rb ≥ 0
    · refine ⟨node (node l a (-(max rb 0 + 1 - b)) rl) ra
        (rb - (max (max rb 0 + 1 - b) 0 + 1)) rr, ?_, ?_, ?_, ?_, ?_, ?_, ?_⟩
      · simp only [rebalance, if_neg hlow, if_pos hhigh, if_pos hrb0, rotateLeft]
      · refine ⟨⟨hl, hrl, ?_, ?_, ?_⟩, hrr, ?_, ?_, ?_⟩ <;> (try rw [height_node]) <;> omega
      · simp
      · simp only [height_node, bal_node]
        split_ifs <;> omega
      · omega
      · simp only [bal_node]
        omega
      · simp only [bal_node]
        omega
    · have hrb1 : rb = -1 := by omega
      rcases rl with _ | ⟨ml, ma, mb, mr⟩
      · have := height_nonneg rr
        simp only [height] at hrb
        omega
      obtain ⟨hml, hmr, hmb, hmge, hmle⟩ := hrl
      rw [height_node] at hrb hb
      generalize hx : rb + (max (-mb) 0 + 1) = x
      generalize hr2 : max x 0 + 1 - -mb = r2
      generalize hy : max r2 0 + 1 - b = y
      refine ⟨node (node l a (-y) ml) ma (r2 - (max y 0 + 1)) (node mr ra x rr), ?_, ?_, ?_, ?_,
        ?_, ?_, ?_⟩
      · simp only [rebalance, if_neg hlow, if_pos hhigh, if_neg hrb0, if_pos hrb1, rotateLeft,
          rotateRight, bind_eq_bind, bind_some, hx, hr2, hy]
      · refine ⟨⟨hl, hml, ?_, ?_, ?_⟩, ⟨hmr, hrr, ?_, ?_, ?_⟩, ?_, ?_, ?_⟩ <;>
          (try rw [height_node]) <;> (try rw [height_node]) <;> omega
      · simp
      · simp only [height_node, bal_node]
        split_ifs <;> omega
      · omega
      · simp only [bal_node]
        omega
      · simp only [bal_node]
        omega
  · refine ⟨node l a b r, ?_, ⟨hl, hr, hb, by omega, by omega⟩, rfl, ?_, fun _ _ => rfl,
      fun h => absurd h hlow, fun h => absurd h hhigh⟩
    · simp only [rebalance, if_neg hlow, if_neg hhigh]
    · rw [if_neg (by omega), height_node]
      omega

/-! ## Insertion -/

/-- Inserts `new`; `dir x` is negative if `new` is to the left of `x`, and 0 if it takes its place.
Also returned: the growth in height and the node that was replaced. -/
def insert (dir : α → Int) (new : α) : AvlTree α → Option (AvlTree α × Int × Option α)
  | nil => some (node nil new 0 nil, 1, none)
  | node l a b r =>
    if dir a < 0 then do
      let (l', d, old) ← insert dir new l
      let t ← rebalance (node l' a (b - d) r)
      return (t, if b = 0 ∧ t.bal ≠ 0 then 1 else 0, old)
    else if dir a > 0 then do
      let (r', d, old) ← insert dir new r
      let t ← rebalance (node l a (b + d) r')
      return (t, if b = 0 ∧ t.bal ≠ 0 then 1 else 0, old)
    else some (node l new b r, 0, some a)

/-- The nodes from some place on are to the right of where `dir` leads, and at most one is there. -/
def Directed (dir : α → Int) (xs : List α) : Prop :=
  xs.Pairwise fun x y => dir x ≤ 0 → dir y < 0

theorem Directed.left {xs ys : List α} (h : Directed dir (xs ++ ys)) : Directed dir xs :=
  (pairwise_append.mp h).1

section

variable {xs ys : List α} {a : α} (h : Directed dir (xs ++ a :: ys))
include h

theorem Directed.right : Directed dir ys := (pairwise_cons.mp (pairwise_append.mp h).2.1).2

theorem Directed.neg_of_nonpos (ha : dir a ≤ 0) : ∀ y ∈ ys, dir y < 0 := by
  intro y hy
  exact (pairwise_cons.mp (pairwise_append.mp h).2.1).1 y hy ha

theorem Directed.pos_of_nonneg (ha : 0 ≤ dir a) : ∀ x ∈ xs, 0 < dir x := by
  intro x hx
  by_contra hle
  have := (pairwise_append.mp h).2.2 x hx a (.head _) (Int.not_lt.mp hle)
  omega

end

/-- The nodes before and after the place where `dir` leads. -/
def before (dir : α → Int) (xs : List α) : List α := xs.filter (0 < dir ·)

/-- What is after it. -/
def after (dir : α → Int) (xs : List α) : List α := xs.filter (dir · < 0)

/-- The node at that place. -/
def at? (dir : α → Int) (xs : List α) : Option α := xs.find? (dir · = 0)

section Cut

variable {xs ys : List α} {a : α}

theorem before_eq_self (h : ∀ x ∈ xs, 0 < dir x) : before dir xs = xs :=
  filter_eq_self.mpr fun x hx => by simpa using h x hx

theorem before_eq_nil (h : ∀ x ∈ xs, dir x < 0) : before dir xs = [] :=
  filter_eq_nil_iff.mpr fun x hx => by simpa using (h x hx).le

theorem after_eq_self (h : ∀ x ∈ xs, dir x < 0) : after dir xs = xs :=
  filter_eq_self.mpr fun x hx => by simpa using h x hx

theorem after_eq_nil (h : ∀ x ∈ xs, 0 < dir x) : after dir xs = [] :=
  filter_eq_nil_iff.mpr fun x hx => by simpa using (h x hx).le

theorem at?_eq_none (h : ∀ x ∈ xs, dir x ≠ 0) : at? dir xs = none :=
  find?_eq_none.mpr fun x hx => by simpa using h x hx

section

variable (h : Directed dir (xs ++ a :: ys))
include h

/-- The three parts of a directed list, where `dir` leads to the left of `a`. -/
theorem cut_left (ha : dir a < 0) :
    before dir (xs ++ a :: ys) = before dir xs ∧
      after dir (xs ++ a :: ys) = after dir xs ++ a :: ys ∧
      at? dir (xs ++ a :: ys) = at? dir xs := by
  have hys := h.neg_of_nonpos ha.le
  have hnot : ¬ 0 < dir a := by omega
  refine ⟨?_, ?_, ?_⟩
  · have hnil := before_eq_nil hys
    simp only [before] at hnil ⊢
    simp [filter_append, hnot, hnil]
  · have hself := after_eq_self hys
    simp only [after] at hself ⊢
    simp [filter_append, ha, hself]
  · have hnone : at? dir ys = none := at?_eq_none fun y hy => (hys y hy).ne
    simp only [at?] at hnone ⊢
    simp [find?_append, ha.ne, hnone]

theorem cut_right (ha : 0 < dir a) :
    before dir (xs ++ a :: ys) = xs ++ a :: before dir ys ∧
      after dir (xs ++ a :: ys) = after dir ys ∧
      at? dir (xs ++ a :: ys) = at? dir ys := by
  have hxs := h.pos_of_nonneg ha.le
  have hnot : ¬ dir a < 0 := by omega
  refine ⟨?_, ?_, ?_⟩
  · have hself := before_eq_self hxs
    simp only [before] at hself ⊢
    simp [filter_append, ha, hself]
  · have hnil := after_eq_nil hxs
    simp only [after] at hnil ⊢
    simp [filter_append, hnot, hnil]
  · have hnone : at? dir xs = none := at?_eq_none fun x hx => (hxs x hx).ne'
    simp only [at?] at hnone ⊢
    simp [find?_append, ha.ne', hnone]

theorem cut_here (ha : dir a = 0) :
    before dir (xs ++ a :: ys) = xs ∧ after dir (xs ++ a :: ys) = ys ∧
      at? dir (xs ++ a :: ys) = some a := by
  have hxs := h.pos_of_nonneg ha.ge
  have hys := h.neg_of_nonpos ha.le
  refine ⟨?_, ?_, ?_⟩
  · have hself := before_eq_self hxs
    have hnil := before_eq_nil hys
    simp only [before] at hself hnil ⊢
    simp [filter_append, ha, hself, hnil]
  · have hself := after_eq_self hys
    have hnil := after_eq_nil hxs
    simp only [after] at hself hnil ⊢
    simp [filter_append, ha, hself, hnil]
  · have hnone : at? dir xs = none := at?_eq_none fun x hx => (hxs x hx).ne'
    simp only [at?] at hnone ⊢
    simp [find?_append, ha, hnone]

end

end Cut

/-- The height after one side has grown from `h` to `h + d`, the other side being `k` high: `β` is
the new balance, and `m` that of the side that has grown. -/
theorem height_grow {h k c d β m x : Int} (hk : 0 ≤ k) (hc : c = k - h)
    (hge : -1 ≤ c) (hle : c ≤ 1) (hd : d = 0 ∨ d = 1 ∧ (h = 0 ∨ m ≠ 0))
    (hx : x = max (h + d) k + 1 - (if (c - d = -2 ∨ c - d = 2) ∧ β = 0 then 1 else 0))
    (hmid : -1 ≤ c - d → (β = 0 ↔ c - d = 0)) (hlow : c - d = -2 → m ≠ 0 → β = 0) :
    x = max h k + 1 + (if c = 0 ∧ β ≠ 0 then 1 else 0) := by
  rw [hx]
  rcases hd with rfl | ⟨rfl, hnew⟩
  · split_ifs <;> omega
  · by_cases hm : c = -1
    · split_ifs <;> omega
    · split_ifs <;> omega

/-- The height after one side has shrunk. -/
theorem height_shrink {h k c d β x : Int} (hc : c = k - h) (hge : -1 ≤ c) (hle : c ≤ 1)
    (hd : d = 0 ∨ d = -1)
    (hx : x = max (h + d) k + 1 - (if (c - d = -2 ∨ c - d = 2) ∧ β = 0 then 1 else 0))
    (hmid : c - d ≤ 1 → (β = 0 ↔ c - d = 0)) :
    x = max h k + 1 + (if c ≠ 0 ∧ β = 0 then -1 else 0) := by
  rw [hx]
  rcases hd with rfl | rfl
  · split_ifs <;> omega
  · by_cases hm : c = 1
    · split_ifs <;> omega
    · split_ifs <;> omega

/-- Insertion into a balanced tree. -/
theorem insert_spec (new : α) (ht : t.Balanced) (hdir : Directed dir t.inorder) :
    ∃ t' d, insert dir new t = some (t', d, at? dir t.inorder) ∧ t'.Balanced ∧
      t'.height = t.height + d ∧ (d = 0 ∨ d = 1 ∧ (t.height = 0 ∨ t'.bal ≠ 0)) ∧
      t'.inorder = before dir t.inorder ++ new :: after dir t.inorder := by
  induction t with
  | nil => exact ⟨_, _, rfl, by simp [Balanced, height], rfl, Or.inr ⟨rfl, Or.inl rfl⟩, rfl⟩
  | node l a b r ihl ihr =>
    obtain ⟨hl, hr, hb, hge, hle⟩ := ht
    have hlnn := height_nonneg l
    have hrnn := height_nonneg r
    rw [inorder_node] at hdir ⊢
    rcases Int.lt_trichotomy (dir a) 0 with hneg | hzero | hpos
    · obtain ⟨hbefore, hafter, hat⟩ := cut_left hdir hneg
      obtain ⟨l', d, hins, hbal, hheight, hd, hin⟩ := ihl hl hdir.left
      obtain ⟨t, hre, htbal, htin, hth, hmid, hlow, -⟩ :=
        rebalance_spec (l := l') (b := b - d) (r := r) ⟨hbal, hr, by omega, by omega, by omega⟩ a
      refine ⟨t, if b = 0 ∧ t.bal ≠ 0 then 1 else 0, ?_, htbal, ?_, ?_, ?_⟩
      · simp only [insert, if_pos hneg, hins, bind_eq_bind, bind_some, hre, hat]
        rfl
      · rw [hheight] at hth
        exact height_grow hrnn hb hge hle hd hth
          (fun h => by rw [hmid h (by omega)]) hlow
      · split_ifs with h
        · exact Or.inr ⟨rfl, Or.inr h.2⟩
        · exact Or.inl rfl
      · rw [htin, hin, hbefore, hafter]
        simp
    · obtain ⟨hbefore, hafter, hat⟩ := cut_here hdir hzero
      refine ⟨node l new b r, 0, ?_, ⟨hl, hr, hb, hge, hle⟩, by simp [height_node], Or.inl rfl, ?_⟩
      · simp [insert, hzero, hat]
      · rw [hbefore, hafter, inorder_node]
    · obtain ⟨hbefore, hafter, hat⟩ := cut_right hdir hpos
      have hnot : ¬ dir a < 0 := by omega
      obtain ⟨r', d, hins, hbal, hheight, hd, hin⟩ := ihr hr hdir.right
      obtain ⟨t, hre, htbal, htin, hth, hmid, -, hhigh⟩ :=
        rebalance_spec (l := l) (b := b + d) (r := r') ⟨hl, hbal, by omega, by omega, by omega⟩ a
      refine ⟨t, if b = 0 ∧ t.bal ≠ 0 then 1 else 0, ?_, htbal, ?_, ?_, ?_⟩
      · simp only [insert, if_neg hnot, if_pos hpos, hins, bind_eq_bind, bind_some, hre, hat]
        rfl
      · have hx : t.height = max (r.height + d) l.height + 1 -
            (if (-b - d = -2 ∨ -b - d = 2) ∧ t.bal = 0 then 1 else 0) := by
          rw [hth, hheight, max_comm]
          congr 2
          simp only [eq_iff_iff]
          omega
        have := height_grow (c := -b) (m := r'.bal) hlnn (by omega) (by omega) (by omega) hd hx
          (fun h => by rw [hmid (by omega) (by omega)]; omega)
          (fun h => hhigh (by omega))
        rw [this, height_node, max_comm]
        congr 2
        simp
      · split_ifs with h
        · exact Or.inr ⟨rfl, Or.inr h.2⟩
        · exact Or.inl rfl
      · rw [htin, hin, hbefore, hafter]
        simp

/-! ## Deletion -/

/-- Takes out the first node. Also returned: the node and the change of height. -/
def deleteMin : AvlTree α → Option (AvlTree α × α × Int)
  | nil => none
  | node nil a _ r => some (r, a, -1)
  | node l a b r => do
    let (l', m, d) ← deleteMin l
    let t ← rebalance (node l' a (b - d) r)
    return (t, m, if b ≠ 0 ∧ t.bal = 0 then -1 else 0)

/-- Takes out the node to which `dir` leads; a node with two subtrees is replaced by the first one
of the right subtree. Also returned: the change of height and the node. -/
def delete (dir : α → Int) : AvlTree α → Option (AvlTree α × Int × Option α)
  | nil => some (nil, 0, none)
  | node l a b r =>
    if dir a < 0 then do
      let (l', d, old) ← delete dir l
      let t ← rebalance (node l' a (b - d) r)
      return (t, if b ≠ 0 ∧ t.bal = 0 then -1 else 0, old)
    else if dir a > 0 then do
      let (r', d, old) ← delete dir r
      let t ← rebalance (node l a (b + d) r')
      return (t, if b ≠ 0 ∧ t.bal = 0 then -1 else 0, old)
    else
      match l, r with
      | nil, r => some (r, -1, some a)
      | l, nil => some (l, -1, some a)
      | l, r => do
        let (r', m, d) ← deleteMin r
        let t ← rebalance (node l m (b + d) r')
        return (t, if b ≠ 0 ∧ t.bal = 0 then -1 else 0, some a)

section Shrink

variable {l l' r r' : AvlTree α} {a : α} {b d : Int} (h : (node l a b r).Balanced)
  (hd : d = 0 ∨ d = -1) (m : α)
include h hd

/-- One subtree has shrunk, and the tree is balanced again. -/
theorem shrink_left (hbal : l'.Balanced) (hl : l'.height = l.height + d) :
    ∃ t, rebalance (node l' m (b - d) r) = some t ∧ t.Balanced ∧
      t.inorder = l'.inorder ++ m :: r.inorder ∧
      t.height = (node l a b r).height + (if b ≠ 0 ∧ t.bal = 0 then -1 else 0) := by
  obtain ⟨-, hr, hb, hge, hle⟩ := h
  obtain ⟨t, hre, htbal, htin, hth, hmid, -, -⟩ :=
    rebalance_spec (b := b - d) ⟨hbal, hr, by omega, by omega, by omega⟩ m
  rw [hl] at hth
  exact ⟨t, hre, htbal, htin, height_shrink hb hge hle hd hth fun h => by rw [hmid (by omega) h]⟩

theorem shrink_right (hbal : r'.Balanced) (hr : r'.height = r.height + d) :
    ∃ t, rebalance (node l m (b + d) r') = some t ∧ t.Balanced ∧
      t.inorder = l.inorder ++ m :: r'.inorder ∧
      t.height = (node l a b r).height + (if b ≠ 0 ∧ t.bal = 0 then -1 else 0) := by
  obtain ⟨hl, -, hb, hge, hle⟩ := h
  obtain ⟨t, hre, htbal, htin, hth, hmid, -, -⟩ :=
    rebalance_spec (b := b + d) ⟨hl, hbal, by omega, by omega, by omega⟩ m
  refine ⟨t, hre, htbal, htin, ?_⟩
  have hx : t.height = max (r.height + d) l.height + 1 -
      (if (-b - d = -2 ∨ -b - d = 2) ∧ t.bal = 0 then 1 else 0) := by
    rw [hth, hr, max_comm]
    congr 2
    simp only [eq_iff_iff]
    omega
  have hshrink := height_shrink (c := -b) (by omega) (by omega) (by omega) hd hx
    fun h => by rw [hmid (by omega) (by omega)]; omega
  rw [hshrink, height_node, max_comm]
  congr 2
  simp

end Shrink

theorem ite_zero_or_neg_one (p : Prop) [Decidable p] :
    (if p then -1 else 0 : Int) = 0 ∨ (if p then -1 else 0 : Int) = -1 := by
  split_ifs
  · exact Or.inr rfl
  · exact Or.inl rfl

theorem deleteMin_spec (ht : t.Balanced) (hne : t ≠ nil) :
    ∃ t' m d, deleteMin t = some (t', m, d) ∧ t'.Balanced ∧ t'.height = t.height + d ∧
      (d = 0 ∨ d = -1) ∧ t.inorder = m :: t'.inorder := by
  induction t with
  | nil => exact absurd rfl hne
  | node l a b r ihl _ =>
    rcases l with _ | ⟨ll, la, lb, lr⟩
    · refine ⟨r, a, -1, rfl, ht.2.1, ?_, Or.inr rfl, rfl⟩
      have := height_nonneg r
      rw [height_node]
      simp only [height]
      omega
    · obtain ⟨l', m, d, hdel, hbal, hheight, hd, hin⟩ := ihl ht.1 (by simp)
      obtain ⟨t, hre, htbal, htin, hth⟩ := shrink_left ht hd a hbal hheight
      refine ⟨t, m, _, ?_, htbal, hth, ite_zero_or_neg_one _, ?_⟩
      · simp only [deleteMin, hdel, bind_eq_bind, bind_some, hre]
        rfl
      · rw [inorder_node, hin, htin]
        rfl

/-- Deletion from a balanced tree. -/
theorem delete_spec (ht : t.Balanced) (hdir : Directed dir t.inorder) :
    ∃ t' d, delete dir t = some (t', d, at? dir t.inorder) ∧ t'.Balanced ∧
      t'.height = t.height + d ∧ (d = 0 ∨ d = -1) ∧
      t'.inorder = before dir t.inorder ++ after dir t.inorder := by
  induction t with
  | nil => exact ⟨nil, 0, rfl, trivial, rfl, Or.inl rfl, rfl⟩
  | node l a b r ihl ihr =>
    obtain ⟨hl, hr, hb, hge, hle⟩ := id ht
    rw [inorder_node] at hdir ⊢
    rcases Int.lt_trichotomy (dir a) 0 with hneg | hzero | hpos
    · obtain ⟨hbefore, hafter, hat⟩ := cut_left hdir hneg
      obtain ⟨l', d, hdel, hbal, hheight, hd, hin⟩ := ihl hl hdir.left
      obtain ⟨t, hre, htbal, htin, hth⟩ := shrink_left ht hd a hbal hheight
      refine ⟨t, _, ?_, htbal, hth, ite_zero_or_neg_one _, ?_⟩
      · simp only [delete, if_pos hneg, hdel, bind_eq_bind, bind_some, hre, hat]
        rfl
      · rw [htin, hin, hbefore, hafter]
        simp
    · obtain ⟨hbefore, hafter, hat⟩ := cut_here hdir hzero
      have h1 : ¬ dir a < 0 := by omega
      have h2 : ¬ dir a > 0 := by omega
      rw [hbefore, hafter, hat]
      rcases l with _ | ⟨ll, la, lb, lr⟩
      · refine ⟨r, -1, ?_, hr, ?_, Or.inr rfl, rfl⟩
        · simp only [delete, if_neg h1, if_neg h2]
        · have := height_nonneg r
          rw [height_node]
          simp only [height]
          omega
      rcases r with _ | ⟨rl, ra, rb, rr⟩
      · refine ⟨node ll la lb lr, -1, ?_, hl, ?_, Or.inr rfl, by simp⟩
        · simp only [delete, if_neg h1, if_neg h2]
        · have := height_nonneg (node ll la lb lr)
          rw [height_node (node ll la lb lr)]
          simp only [height] at this ⊢
          omega
      -- two subtrees: the successor takes the node's place
      obtain ⟨r', m, d, hdel, hbal, hheight, hd, hin⟩ := deleteMin_spec hr (by simp)
      obtain ⟨t, hre, htbal, htin, hth⟩ := shrink_right ht hd m hbal hheight
      refine ⟨t, _, ?_, htbal, hth, ite_zero_or_neg_one _, ?_⟩
      · simp only [delete, if_neg h1, if_neg h2, hdel, bind_eq_bind, bind_some, hre]
        rfl
      · rw [htin, hin]
    · obtain ⟨hbefore, hafter, hat⟩ := cut_right hdir hpos
      have hnot : ¬ dir a < 0 := by omega
      obtain ⟨r', d, hdel, hbal, hheight, hd, hin⟩ := ihr hr hdir.right
      obtain ⟨t, hre, htbal, htin, hth⟩ := shrink_right ht hd a hbal hheight
      refine ⟨t, _, ?_, htbal, hth, ite_zero_or_neg_one _, ?_⟩
      · simp only [delete, if_neg hnot, if_pos hpos, hdel, bind_eq_bind, bind_some, hre, hat]
        rfl
      · rw [htin, hin, hbefore, hafter]
        simp

end AvlTree
