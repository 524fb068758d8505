import Mathlib.Data.List.Induction
import Mathlib.Data.Set.Insert

/-!
# Bloom filters that share their table with a header

A filter is the set of positions that are set in a table. Marking a key sets the key's positions;
a key is in the filter if all of them are set. Part of the table is reserved: a rewrite replaces
what stands there by a fixed image, whatever has been marked.

## Main definitions

* `Op`, `step`, `run`: marks and rewrites
* `marked`, `sinceRewrite`: the keys marked, and those marked after the last rewrite

## Main results

* `subset_run_iff`: when a marked key is still in the filter
-/

namespace BloomFilter

variable {α ι : Type*}

/-- A key is marked, or the reserved part restored. -/
inductive Op (α : Type*) where
  | mark (a : α)
  | rewrite

variable (pos : α → Set ι) (reserved image : Set ι)

/-- One operation on the set of positions that are set. -/
def step (s : Set ι) : Op α → Set ι
  | .mark a => s ∪ pos a
  | .rewrite => s \ reserved ∪ image ∩ reserved

/-- Some operations. -/
def run (s : Set ι) (ops : List (Op α)) : Set ι := ops.foldl (step pos reserved image) s

/-- The keys marked in a run. -/
def marked (ops : List (Op α)) : Set α := {a | .mark a ∈ ops}

/-- The keys marked after the last rewrite. -/
def sinceRewrite (ops : List (Op α)) : Set α :=
  ops.foldl (fun as op => match op with
    | .mark a => insert a as
    | .rewrite => ∅) ∅

variable {a : α} {ops : List (Op α)}

section Runs

variable {pos reserved image}

theorem run_concat (s : Set ι) (ops : List (Op α)) (op : Op α) :
    run pos reserved image s (ops ++ [op]) =
      step pos reserved image (run pos reserved image s ops) op := by
  simp [run]

@[simp] theorem sinceRewrite_mark (ops : List (Op α)) (a : α) :
    sinceRewrite (ops ++ [.mark a]) = insert a (sinceRewrite ops) := by
  simp [sinceRewrite]

@[simp] theorem sinceRewrite_rewrite (ops : List (Op α)) :
    sinceRewrite (ops ++ [.rewrite]) = ∅ := by
  simp [sinceRewrite]

@[simp] theorem marked_mark (ops : List (Op α)) (a : α) :
    marked (ops ++ [.mark a]) = insert a (marked ops) := by
  ext b
  simp [marked, or_comm]

@[simp] theorem marked_rewrite (ops : List (Op α)) : marked (ops ++ [.rewrite]) = marked ops := by
  ext b
  simp [marked]

/-- What was marked since the last rewrite is set. -/
theorem subset_run_of_mem_sinceRewrite (s : Set ι) (ha : a ∈ sinceRewrite ops) :
    pos a ⊆ run pos reserved image s ops := by
  induction ops using List.reverseRecOn with
  | nil => exact absurd ha (Set.notMem_empty a)
  | append_singleton ops op ih =>
    rw [run_concat]
    cases op with
    | mark b =>
      rw [sinceRewrite_mark] at ha
      rcases ha with rfl | ha
      · exact Set.subset_union_right
      · exact (ih ha).trans Set.subset_union_left
    | rewrite =>
      rw [sinceRewrite_rewrite] at ha
      exact absurd ha (Set.notMem_empty a)

/-- Outside the reserved part nothing that was marked is lost. -/
theorem mem_run_of_notMem (s : Set ι) {i : ι} (ha : a ∈ marked ops) (hi : i ∈ pos a)
    (hres : i ∉ reserved) : i ∈ run pos reserved image s ops := by
  induction ops using List.reverseRecOn with
  | nil => simp [marked] at ha
  | append_singleton ops op ih =>
    rw [run_concat]
    cases op with
    | mark b =>
      rw [marked_mark] at ha
      rcases ha with rfl | ha
      · exact Or.inr hi
      · exact Or.inl (ih ha)
    | rewrite =>
      rw [marked_rewrite] at ha
      exact Or.inl ⟨ih ha, hres⟩

/-- In the reserved part, once rewritten, there is only the image and what was marked since. -/
theorem mem_run_of_mem (s : Set ι) {i : ι} (hres : i ∈ reserved) (hrw : .rewrite ∈ ops) :
    i ∈ run pos reserved image s ops ↔ i ∈ image ∨ ∃ a ∈ sinceRewrite ops, i ∈ pos a := by
  induction ops using List.reverseRecOn with
  | nil => simp at hrw
  | append_singleton ops op ih =>
    rw [run_concat]
    cases op with
    | mark b =>
      have hrw' : .rewrite ∈ ops := by simpa using hrw
      rw [sinceRewrite_mark]
      simp only [step, Set.mem_union, ih hrw', Set.mem_insert_iff, exists_eq_or_imp]
      rw [or_assoc, or_comm (b := i ∈ pos b)]
    | rewrite =>
      rw [sinceRewrite_rewrite]
      simp [step, hres]

theorem sinceRewrite_eq_marked (h : .rewrite ∉ ops) : sinceRewrite ops = marked ops := by
  induction ops using List.reverseRecOn with
  | nil => simp [sinceRewrite, marked]
  | append_singleton ops op ih =>
    cases op with
    | mark b =>
      have h' : .rewrite ∉ ops := by simpa using h
      rw [sinceRewrite_mark, marked_mark, ih h']
    | rewrite => simp at h

/-- A marked key is in the filter if and only if its reserved positions are in the image or have
been marked since the last rewrite. -/
theorem subset_run_iff (s : Set ι) (ha : a ∈ marked ops) :
    pos a ⊆ run pos reserved image s ops ↔
      ∀ i ∈ pos a, i ∈ reserved → i ∈ image ∨ ∃ b ∈ sinceRewrite ops, i ∈ pos b := by
  by_cases hrw : .rewrite ∈ ops
  · constructor
    · intro h i hi hres
      exact (mem_run_of_mem s hres hrw).mp (h hi)
    · intro h i hi
      by_cases hres : i ∈ reserved
      · exact (mem_run_of_mem s hres hrw).mpr (h i hi hres)
      · exact mem_run_of_notMem s ha hi hres
  · -- without a rewrite every mark still stands
    have hsince : a ∈ sinceRewrite ops := by rwa [sinceRewrite_eq_marked hrw]
    constructor
    · intro _ i hi _
      exact Or.inr ⟨a, hsince, hi⟩
    · intro _
      exact subset_run_of_mem_sinceRewrite s hsince

end Runs

end BloomFilter
