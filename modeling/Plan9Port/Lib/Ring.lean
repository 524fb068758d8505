import Mathlib.Data.List.Range

/-!
# Ring buffers

A queue in an array that is used round and round.

## Main definitions

* `ring`: the queue, in order

## Main results

* `ring_push`, `ring_pop`: one more at the end, and one less at the front
-/

namespace Plan9Port.Lib

open Function

variable {α : Type*} (buf : Nat → α) {size off n : Nat}

/-- The `n` elements from `off` on, in an array of this size. -/
def ring (size off n : Nat) : List α := (List.range n).map fun j => buf ((off + j) % size)

@[simp] theorem ring_zero (size off : Nat) : ring buf size off 0 = [] := rfl

/-- Different places, as long as it is not once around. -/
theorem ring_index_ne {j : Nat} (hj : j < n) (hn : n < size) :
    (off + j) % size ≠ (off + n) % size := by
  intro h
  have hzero := Nat.sub_mod_eq_zero_of_mod_eq h.symm
  rw [show off + n - (off + j) = n - j by omega, Nat.mod_eq_of_lt (by omega)] at hzero
  omega

theorem ring_push (x : α) (hn : n < size) :
    ring (update buf ((off + n) % size) x) size off (n + 1) = ring buf size off n ++ [x] := by
  rw [ring, List.range_succ, List.map_append, List.map_singleton, update_self]
  congr 1
  refine List.map_congr_left fun j hj => ?_
  exact update_of_ne (ring_index_ne (List.mem_range.mp hj) hn) _ _

theorem ring_pop (hoff : off < size) (n : Nat) :
    ring buf size off (n + 1) =
      buf off :: ring buf size (if off + 1 = size then 0 else off + 1) n := by
  rw [ring, List.range_succ_eq_map, List.map_cons, List.map_map, Nat.add_zero,
    Nat.mod_eq_of_lt hoff]
  congr 1
  refine List.map_congr_left fun j _ => ?_
  have hidx : (off + (j + 1)) % size = ((if off + 1 = size then 0 else off + 1) + j) % size := by
    split_ifs with h
    · rw [show off + (j + 1) = j + size by omega, Nat.add_mod_right, Nat.zero_add]
    · rw [show off + (j + 1) = off + 1 + j by omega]
  exact congrArg buf hidx

end Plan9Port.Lib
