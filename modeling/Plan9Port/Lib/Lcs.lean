import Mathlib.Data.List.Basic
import Mathlib.Order.Bounds.Defs

/-!
# Longest common subsequences

The common subsequences of a list that grows at its end, and what equal ends of two lists
contribute.

## Main definitions

* `Common xs ys n`: `xs` and `ys` have a common subsequence of the length `n`
* `IsLcs xs ys n`: `n` is the length of the longest one

## Main results

* `common_concat`: the last element is not used, or it is matched
* `IsLcs.append_left`, `IsLcs.append_right`: an equal beginning or end is matched with itself
-/

namespace Plan9Port.Lib

open List

variable {α : Type} {xs ys : List α} {n : Nat}

/-- There is a common subsequence of the length `n`. -/
def Common (xs ys : List α) (n : Nat) : Prop :=
  ∃ s : List α, s.Sublist xs ∧ s.Sublist ys ∧ s.length = n

/-- The length of a longest common subsequence. -/
def IsLcs (xs ys : List α) (n : Nat) : Prop := IsGreatest {n | Common xs ys n} n

theorem common_zero (xs ys : List α) : Common xs ys 0 := ⟨[], nil_sublist _, nil_sublist _, rfl⟩

theorem Common.mono (h : Common xs ys n) {xs' ys' : List α} (hx : xs.Sublist xs')
    (hy : ys.Sublist ys') : Common xs' ys' n := by
  obtain ⟨s, hsx, hsy, rfl⟩ := h
  exact ⟨s, hsx.trans hx, hsy.trans hy, rfl⟩

theorem Common.le_length (h : Common xs ys n) : n ≤ xs.length := by
  obtain ⟨s, hx, -, rfl⟩ := h
  exact hx.length_le

theorem concat_sublist_iff {s : List α} {a : α} :
    (s ++ [a]).Sublist ys ↔ ∃ y, ys[y]? = some a ∧ s.Sublist (ys.take y) := by
  constructor
  · intro h
    obtain ⟨ys1, ys2, rfl, hs, ha⟩ := append_sublist_iff.mp h
    obtain ⟨y, hy⟩ := mem_iff_getElem?.mp (singleton_sublist.mp ha)
    refine ⟨ys1.length + y, ?_, ?_⟩
    · rw [getElem?_append_right (Nat.le_add_right _ _), Nat.add_sub_cancel_left, hy]
    · rw [take_length_add_append]
      exact hs.trans (sublist_append_left _ _)
  · rintro ⟨y, hy, hs⟩
    have htake : (ys.take y ++ [a]).Sublist ys := by
      have := take_sublist (y + 1) ys
      rwa [take_add_one, hy] at this
    exact (hs.append (Sublist.refl [a])).trans htake

/-- A common subsequence does not use the last element, or it ends with it. -/
theorem common_concat (xs ys : List α) (a : α) (n : Nat) :
    Common (xs ++ [a]) ys (n + 1) ↔
      Common xs ys (n + 1) ∨ ∃ y, ys[y]? = some a ∧ Common xs (ys.take y) n := by
  constructor
  · rintro ⟨s, hx, hy, hn⟩
    obtain ⟨s1, s2, rfl, hs1, hs2⟩ := sublist_append_iff.mp hx
    rcases sublist_singleton.mp hs2 with rfl | rfl
    · rw [append_nil] at hy hn
      exact .inl ⟨s1, hs1, hy, hn⟩
    · obtain ⟨y, ha, hs⟩ := concat_sublist_iff.mp hy
      refine .inr ⟨y, ha, s1, hs1, hs, ?_⟩
      simpa using hn
  · rintro (h | ⟨y, ha, s, hx, hs, rfl⟩)
    · exact h.mono (sublist_append_left _ _) (Sublist.refl _)
    · refine ⟨s ++ [a], hx.append (Sublist.refl _), concat_sublist_iff.mpr ⟨y, ha, hs⟩, ?_⟩
      simp

/-- Common subsequences of two beginnings, when the first one grows. -/
theorem common_take_succ {i : Nat} {a : α} (ha : xs[i]? = some a) (ys : List α) (Y n : Nat) :
    Common (xs.take (i + 1)) (ys.take Y) (n + 1) ↔ Common (xs.take i) (ys.take Y) (n + 1) ∨
      ∃ y, y < Y ∧ ys[y]? = some a ∧ Common (xs.take i) (ys.take y) n := by
  have htake : xs.take (i + 1) = xs.take i ++ [a] := by
    rw [take_add_one, ha]
    rfl
  rw [htake, common_concat]
  refine or_congr Iff.rfl (exists_congr fun y => ?_)
  by_cases hy : y < Y
  · rw [getElem?_take_of_lt hy, take_take, Nat.min_eq_left (Nat.le_of_lt hy)]
    exact ⟨fun h => ⟨hy, h⟩, And.right⟩
  · rw [getElem?_take, if_neg hy]
    exact iff_of_false (fun h => nomatch h.1) fun h => hy h.1

/-- An equal first element is matched with itself. -/
theorem common_cons (a : α) (xs ys : List α) (n : Nat) :
    Common (a :: xs) (a :: ys) (n + 1) ↔ Common xs ys n := by
  constructor
  · rintro ⟨s, hx, hy, hn⟩
    refine ⟨s.tail, hx.tail, hy.tail, ?_⟩
    rw [length_tail, hn, Nat.add_sub_cancel]
  · rintro ⟨s, hx, hy, rfl⟩
    exact ⟨a :: s, hx.cons_cons a, hy.cons_cons a, rfl⟩

theorem common_reverse : Common xs.reverse ys.reverse n ↔ Common xs ys n := by
  constructor
  · rintro ⟨s, hx, hy, rfl⟩
    exact ⟨s.reverse, by simpa using hx.reverse, by simpa using hy.reverse, length_reverse⟩
  · rintro ⟨s, hx, hy, rfl⟩
    exact ⟨s.reverse, hx.reverse, hy.reverse, length_reverse⟩

section

variable (h : IsLcs xs ys n)
include h

theorem IsLcs.cons (a : α) : IsLcs (a :: xs) (a :: ys) (n + 1) := by
  refine ⟨(common_cons a xs ys n).mpr h.1, ?_⟩
  rintro (_ | m) hm
  · exact Nat.zero_le _
  · exact Nat.succ_le_succ (h.2 ((common_cons a xs ys m).mp hm))

theorem IsLcs.append_left (p : List α) : IsLcs (p ++ xs) (p ++ ys) (p.length + n) := by
  induction p with
  | nil =>
    rw [length_nil, Nat.zero_add]
    exact h
  | cons a p ih =>
    rw [length_cons, Nat.add_right_comm]
    exact ih.cons a

theorem IsLcs.reverse : IsLcs xs.reverse ys.reverse n :=
  ⟨common_reverse.mpr h.1, fun _ hm => h.2 (common_reverse.mp hm)⟩

theorem IsLcs.append_right (p : List α) : IsLcs (xs ++ p) (ys ++ p) (p.length + n) := by
  have := (h.reverse.append_left p.reverse).reverse
  simpa using this

end

end Plan9Port.Lib
