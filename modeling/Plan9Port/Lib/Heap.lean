import Mathlib.Data.List.Basic

/-!
# A heap of objects

Objects are known by reference: two references may be one, and an object that is freed is gone.
A new reference is one that was never given out before.

## Main definitions

* `Heap.get`, `Heap.set`, `Heap.alloc`, `Heap.free`: the operations
* `Heap.modify`: a change to the object at a reference that may be missing
-/

/-- A heap; a reference is an index into it, and freed objects leave `none`. -/
structure Heap (α : Type*) where
  cells : List (Option α)
deriving DecidableEq

namespace Heap

variable {α : Type*}

/-- The object that `r` refers to. -/
def get (h : Heap α) (r : Nat) : Option α :=
  h.cells[r]?.join

/-- The heap with the object that `r` refers to replaced. -/
def set (h : Heap α) (r : Nat) (a : α) : Heap α :=
  ⟨h.cells.set r (some a)⟩

/-- A new reference, to `a`. -/
def alloc (h : Heap α) (a : α) : Nat × Heap α :=
  (h.cells.length, ⟨h.cells ++ [some a]⟩)

/-- A cell is freed. -/
def free (h : Heap α) (r : Nat) : Heap α :=
  ⟨h.cells.set r none⟩

/-- The heap with `f` applied to the object that `r` refers to, if there is one. -/
def modify (h : Heap α) (r : Option Nat) (f : α → α) : Heap α :=
  match r with
  | none => h
  | some r =>
    match h.get r with
    | none => h
    | some a => h.set r (f a)

variable {h : Heap α} {a b : α} {r : Nat}

theorem lt_of_get (hr : h.get r = some a) : r < h.cells.length := by
  by_contra hlt
  simp [get, List.getElem?_eq_none (Nat.le_of_not_lt hlt)] at hr

theorem get_set_self (hr : h.get r = some a) : (h.set r b).get r = some b := by
  simp [get, set, List.getElem?_set_self (lt_of_get hr)]

variable {s : Nat}

theorem get_set_of_ne (h : Heap α) (a : α) (hne : s ≠ r) : (h.set r a).get s = h.get s := by
  simp [get, set, List.getElem?_set_ne (Ne.symm hne)]

@[simp] theorem set_set (h : Heap α) (r : Nat) (a b : α) : (h.set r a).set r b = h.set r b := by
  simp [set]

theorem get_alloc_self (h : Heap α) (a : α) : (h.alloc a).2.get (h.alloc a).1 = some a := by
  simp [get, alloc]

theorem get_alloc_of_ne (h : Heap α) (a : α) (hne : r ≠ (h.alloc a).1) :
    (h.alloc a).2.get r = h.get r := by
  simp only [get, alloc] at *
  rcases Nat.lt_or_gt_of_ne hne with hlt | hgt
  · rw [List.getElem?_append_left hlt]
  · rw [List.getElem?_eq_none (by rw [List.length_append]; exact hgt),
      List.getElem?_eq_none (Nat.le_of_lt hgt)]

/-- A reference is new: no object is known by it yet. -/
theorem get_alloc_fst (h : Heap α) (a : α) : h.get (h.alloc a).1 = none := by
  simp [get, alloc]

theorem ne_alloc_of_get (a : α) (hr : h.get r = some b) : r ≠ (h.alloc a).1 :=
  Nat.ne_of_lt (lt_of_get hr)

theorem get_free_of_ne (h : Heap α) (hne : s ≠ r) : (h.free r).get s = h.get s := by
  simp [get, free, List.getElem?_set_ne (Ne.symm hne)]

/-! ## Changes to an object that may be missing -/

theorem set_get (hr : h.get r = some a) : h.set r a = h := by
  have hlt := lt_of_get hr
  rw [get, List.getElem?_eq_getElem hlt] at hr
  have hcell : h.cells[r] = some a := hr
  rw [set, ← hcell, List.set_getElem_self]

theorem modify_some (f : α → α) (hr : h.get r = some a) : h.modify (some r) f = h.set r (f a) := by
  simp only [modify, hr]

theorem modify_id (h : Heap α) (r : Option Nat) {f : α → α} (hf : ∀ a, f a = a) :
    h.modify r f = h := by
  unfold modify
  split
  · rfl
  · split
    · rfl
    · rename_i hr
      rw [hf, set_get hr]

theorem modify_modify (h : Heap α) (r : Option Nat) (f g : α → α) :
    (h.modify r f).modify r g = h.modify r (g ∘ f) := by
  cases r with
  | none => rfl
  | some r =>
    cases hr : h.get r with
    | none => simp only [modify, hr]
    | some a =>
      rw [modify_some f hr, modify_some g (get_set_self hr), modify_some _ hr, set_set]
      rfl

theorem get_modify_of_ne (h : Heap α) {r : Option Nat} (f : α → α) (hne : r ≠ some s) :
    (h.modify r f).get s = h.get s := by
  unfold modify
  split
  · rfl
  · split
    · rfl
    · exact get_set_of_ne _ _ fun h => hne (congrArg some h.symm)

end Heap
