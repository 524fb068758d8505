import Mathlib.Data.List.Basic

/-!
# Memory as a list of cells

A memory is a list of cells, an address an index into it. A range is read by `slice` and
overwritten by `patch`, which never changes the size of the memory: cells outside it are not
stored.

## Main definitions

* `slice m p n`: the `n` cells at `p`
* `patch m p xs`: the memory with `xs` stored at `p`

## Main results

* `getElem?_patch`: what each cell holds after a store
* `slice_patch_self`, `slice_patch_of_disjoint`: the range just stored, and the other ranges
* `patch_patch_append`: consecutive stores are one store
* `patch_patch_slice`: a store into a range is a store into the memory
-/

namespace Memory

open List

variable {α : Type*}

/-- The `n` cells at `p`. -/
def slice (m : List α) (p n : Nat) : List α :=
  (m.drop p).take n

/-- The memory `m` with `xs` stored at `p`. -/
def patch : List α → Nat → List α → List α
  | [], _, _ => []
  | x :: m, p + 1, xs => x :: patch m p xs
  | x :: m, 0, [] => x :: m
  | _ :: m, 0, x :: xs => x :: patch m 0 xs

/-! ## Reading -/

theorem getElem?_slice (m : List α) (p n i : Nat) :
    (slice m p n)[i]? = if i < n then m[p + i]? else none := by
  simp [slice, getElem?_take]

variable {n p : Nat} {m : List α}

theorem length_slice (h : p + n ≤ m.length) : (slice m p n).length = n := by
  simp only [slice, length_take, length_drop]
  omega

@[simp] theorem slice_zero (m : List α) (p : Nat) : slice m p 0 = [] := by
  simp [slice]

theorem slice_add (m : List α) (p a b : Nat) :
    slice m p (a + b) = slice m p a ++ slice m (p + a) b := by
  simp [slice, take_add]

theorem slice_congr {m' : List α} (h : ∀ i < n, m[p + i]? = m'[p + i]?) :
    slice m p n = slice m' p n := by
  apply ext_getElem?
  intro i
  rw [getElem?_slice, getElem?_slice]
  split_ifs with hi
  · exact h i hi
  · rfl

variable {xs : List α}

theorem slice_eq_iff : slice m p xs.length = xs ↔ ∀ i < xs.length, m[p + i]? = xs[i]? := by
  constructor
  · intro h i hi
    rw [← h, getElem?_slice, if_pos hi]
  intro h
  apply ext_getElem?
  intro i
  rw [getElem?_slice]
  split_ifs with hi
  · exact h i hi
  · exact (getElem?_eq_none (Nat.le_of_not_lt hi)).symm

/-- A range that holds something lies in the memory. -/
theorem le_length_of_slice (h : slice m p xs.length = xs) (hxs : 0 < xs.length) :
    p + xs.length ≤ m.length := by
  have hlen := congrArg length h
  simp only [slice, length_take, length_drop] at hlen
  omega

variable {ys : List α}

/-- The parts of a range that holds a concatenation. -/
theorem slice_append_iff :
    slice m p (xs ++ ys).length = xs ++ ys ↔
      slice m p xs.length = xs ∧ slice m (p + xs.length) ys.length = ys := by
  rw [length_append, slice_add]
  constructor
  · intro h
    have hlen : (slice m p xs.length).length = xs.length := by
      have h' := congrArg length h
      simp only [slice, length_append, length_take, length_drop] at h' ⊢
      omega
    exact append_inj h hlen
  · rintro ⟨h1, h2⟩
    rw [h1, h2]

/-! ## Storing -/

@[simp] theorem patch_nil (m : List α) (p : Nat) : patch m p [] = m := by
  induction m generalizing p with
  | nil => rfl
  | cons x m ih =>
    cases p with
    | zero => rfl
    | succ p => rw [patch, ih]

@[simp] theorem length_patch (m : List α) (p : Nat) (xs : List α) :
    (patch m p xs).length = m.length := by
  induction m generalizing p xs with
  | nil => rfl
  | cons x m ih =>
    cases p with
    | zero => cases xs <;> simp [patch, ih]
    | succ p => simp [patch, ih]

theorem getElem?_patch (m : List α) (p : Nat) (xs : List α) (i : Nat) :
    (patch m p xs)[i]? =
      if p ≤ i ∧ i < p + xs.length ∧ i < m.length then xs[i - p]? else m[i]? := by
  induction m generalizing p xs i with
  | nil => simp [patch]
  | cons x m ih =>
    cases p with
    | zero =>
      cases xs with
      | nil => simp
      | cons y ys =>
        cases i with
        | zero => simp [patch]
        | succ i => simp [patch, ih]
    | succ p =>
      cases i with
      | zero => simp [patch]
      | succ i =>
        simp only [patch, getElem?_cons_succ, ih, length_cons]
        congr 1
        · simp only [eq_iff_iff]
          omega
        · rw [Nat.add_sub_add_right]

/-- A cell outside the stored range is unchanged. -/
theorem getElem?_patch_of_disjoint {i : Nat} (h : i < p ∨ p + xs.length ≤ i) :
    (patch m p xs)[i]? = m[i]? := by
  rw [getElem?_patch, if_neg (by omega)]

/-- A range read back where it was stored. -/
theorem slice_patch_self (h : p + xs.length ≤ m.length) :
    slice (patch m p xs) p xs.length = xs := by
  rw [slice_eq_iff]
  intro i hi
  rw [getElem?_patch, if_pos (by omega), Nat.add_sub_cancel_left]

variable {q : Nat}

/-- A range disjoint from the stored one reads as before. -/
theorem slice_patch_of_disjoint (h : q + n ≤ p ∨ p + xs.length ≤ q) :
    slice (patch m p xs) q n = slice m q n :=
  slice_congr fun i hi => getElem?_patch_of_disjoint (by omega)

/-- Consecutive stores are one store. -/
theorem patch_patch_append (m : List α) (p : Nat) (xs ys : List α) :
    patch (patch m p xs) (p + xs.length) ys = patch m p (xs ++ ys) := by
  apply ext_getElem?
  intro i
  simp only [getElem?_patch, length_patch, length_append]
  by_cases h1 : p + xs.length ≤ i ∧ i < p + xs.length + ys.length ∧ i < m.length
  · rw [if_pos h1, if_pos (by omega), getElem?_append_right (by omega)]
    congr 1
    omega
  · rw [if_neg h1]
    by_cases h2 : p ≤ i ∧ i < p + xs.length ∧ i < m.length
    · rw [if_pos h2, if_pos (by omega), getElem?_append_left (by omega)]
    · rw [if_neg h2, if_neg (by omega)]

/-- A store right after another one, at an address computed apart. -/
theorem patch_patch_next (m : List α) (ys : List α) (h : q = p + xs.length) :
    patch (patch m p xs) q ys = patch m p (xs ++ ys) := by
  rw [h, patch_patch_append]

/-- Storing what a range holds already changes nothing. -/
theorem patch_eq_self (h : slice m p xs.length = xs) : patch m p xs = m := by
  apply ext_getElem?
  intro i
  rw [getElem?_patch]
  split_ifs with hi
  · have := slice_eq_iff.mp h (i - p) (by omega)
    rw [← this]
    congr 1
    omega
  · rfl

/-! ## Ranges of ranges -/

variable {l : Nat}

theorem slice_replicate (x : α) (h : p + n ≤ l) : slice (replicate l x) p n = replicate n x := by
  rw [slice, drop_replicate, take_replicate, Nat.min_eq_left (by omega)]

variable {k : Nat}

/-- A range of a range. -/
theorem slice_slice (m : List α) (h : k + n ≤ l) : slice (slice m p l) k n = slice m (p + k) n := by
  apply ext_getElem?
  intro i
  simp only [getElem?_slice, Nat.add_assoc]
  split_ifs with h1 h2
  · rfl
  · omega
  · rfl

/-- The memory before, in and after a range. -/
theorem take_append_slice_append_drop (m : List α) (p n : Nat) :
    m.take p ++ slice m p n ++ m.drop (p + n) = m := by
  rw [slice, append_assoc, ← drop_drop, take_append_drop, take_append_drop]

/-- The memory before, in and after a stored range. -/
theorem patch_eq_append (h : p + xs.length ≤ m.length) :
    patch m p xs = m.take p ++ xs ++ m.drop (p + xs.length) := by
  have hslice := slice_patch_self h
  have hbefore : (patch m p xs).take p = m.take p := by
    have h0 : slice (patch m p xs) 0 p = slice m 0 p := slice_patch_of_disjoint (.inl (by omega))
    simpa [slice] using h0
  have hafter : (patch m p xs).drop (p + xs.length) = m.drop (p + xs.length) := by
    apply ext_getElem?
    intro i
    rw [getElem?_drop, getElem?_drop, getElem?_patch_of_disjoint (by omega)]
  rw [← take_append_slice_append_drop (patch m p xs) p xs.length, hslice, hbefore, hafter]

theorem take_patch (h : xs.length ≤ m.length) : (patch m 0 xs).take xs.length = xs := by
  rw [patch_eq_append (by omega)]
  simp

/-- A store right below another one. -/
theorem patch_patch_below (m : List α) (p : Nat) (xs ys : List α) :
    patch (patch m (p + xs.length) ys) p xs = patch m p (xs ++ ys) := by
  rw [← patch_patch_append]
  apply ext_getElem?
  intro i
  simp only [getElem?_patch, length_patch]
  split_ifs <;> first | rfl | omega

theorem patch_whole (h : xs.length = m.length) : patch m 0 xs = xs := by
  rw [patch_eq_append (by omega)]
  simp [h]

/-- A range stored twice holds what was stored last. -/
theorem patch_patch_self (m : List α) (p : Nat) (h : xs.length ≤ ys.length) :
    patch (patch m p xs) p ys = patch m p ys := by
  apply ext_getElem?
  intro i
  simp only [getElem?_patch, length_patch]
  split_ifs <;> first | rfl | omega

/-- A store into a range is a store into the memory. -/
theorem patch_patch_slice (hl : p + l ≤ m.length) (hk : k + xs.length ≤ l) :
    patch m p (patch (slice m p l) k xs) = patch m (p + k) xs := by
  apply ext_getElem?
  intro i
  simp only [getElem?_patch, length_patch, length_slice hl, getElem?_slice]
  by_cases h1 : p ≤ i ∧ i < p + l ∧ i < m.length
  · rw [if_pos h1]
    by_cases h2 : k ≤ i - p ∧ i - p < k + xs.length ∧ i - p < l
    · rw [if_pos h2, if_pos (by omega), Nat.sub_sub]
    · rw [if_neg h2, if_pos (by omega), if_neg (by omega), Nat.add_sub_cancel' h1.1]
  · rw [if_neg h1, if_neg (by omega)]

theorem slice_patch_inside (h : p + xs.length ≤ m.length) (hk : k + n ≤ xs.length) :
    slice (patch m p xs) (p + k) n = slice xs k n := by
  rw [← slice_slice _ hk, slice_patch_self h]

/-- Disjoint stores can be done in any order. -/
theorem patch_comm (m : List α) (h : p + xs.length ≤ q ∨ q + ys.length ≤ p) :
    patch (patch m p xs) q ys = patch (patch m q ys) p xs := by
  apply ext_getElem?
  intro i
  simp only [getElem?_patch, length_patch]
  split_ifs <;> first | rfl | omega

/-- Storing a range back undoes a store inside it. -/
theorem patch_patch_restore (hp : q ≤ p) (hn : p + xs.length ≤ q + n) (hm : q + n ≤ m.length) :
    patch (patch m p xs) q (slice m q n) = m := by
  apply ext_getElem?
  intro i
  simp only [getElem?_patch, length_patch, getElem?_slice, length_slice hm]
  split_ifs with h1 h2 h3
  · congr 1
    omega
  · omega
  · omega
  · rfl

/-- A range after a store into it. -/
theorem slice_patch_within (h : p + n ≤ m.length) :
    slice (patch m (p + k) xs) p n = patch (slice m p n) k xs := by
  apply ext_getElem?
  intro i
  simp only [getElem?_patch, getElem?_slice, length_slice h, Nat.add_sub_add_left]
  split_ifs <;> first | rfl | omega

theorem patch_patch_inside (h : p + xs.length ≤ m.length) (hk : k + ys.length ≤ xs.length) :
    patch (patch m p xs) (p + k) ys = patch m p (patch xs k ys) := by
  rw [← patch_patch_slice (by rwa [length_patch]) hk, slice_patch_self h,
    patch_patch_self _ _ (Nat.le_of_eq (length_patch _ _ _).symm)]

end Memory
