import Mathlib.Tactic.Ring

/-!
# Arithmetic in a positional system

The number theory behind two algorithms on numbers written in a radix, over the naturals and
with no digits in it: the product of two numbers from three products of their halves, and the
trial digit of long division.

## Main results

* `karatsuba_add`, `karatsuba_sub`: the cross term is the two outer products, with the product
  of the differences added or taken away
* `quotient_mul_le`, `trial_le`: a trial digit from the leading digits is not less than the digit
  of the quotient, and at most one more
-/

namespace Positional

/-! ## Three products -/

section Karatsuba

variable {b u₀ u₁ v₀ v₁ d e : Nat}

/-- The differences of the halves `u₁ - u₀` and `v₀ - v₁` have one sign. -/
theorem karatsuba_add (h : d + u₀ = u₁ ∧ e + v₁ = v₀ ∨ d + u₁ = u₀ ∧ e + v₀ = v₁) :
    u₀ * v₀ + b * (u₀ * v₀) + b * (u₁ * v₁) + b ^ 2 * (u₁ * v₁) + b * (d * e) =
      (u₀ + b * u₁) * (v₀ + b * v₁) := by
  rcases h with ⟨rfl, rfl⟩ | ⟨rfl, rfl⟩ <;> ring

/-- The differences of the halves `u₁ - u₀` and `v₀ - v₁` have opposite signs. -/
theorem karatsuba_sub (h : d + u₀ = u₁ ∧ e + v₀ = v₁ ∨ d + u₁ = u₀ ∧ e + v₁ = v₀) :
    u₀ * v₀ + b * (u₀ * v₀) + b * (u₁ * v₁) + b ^ 2 * (u₁ * v₁) =
      (u₀ + b * u₁) * (v₀ + b * v₁) + b * (d * e) := by
  rcases h with ⟨rfl, rfl⟩ | ⟨rfl, rfl⟩ <;> ring

/-- The sum of the four terms before the cross product is below `4 * b ^ 4`. -/
theorem karatsuba_lt (hu0 : u₀ < b) (hu1 : u₁ < b) (hv0 : v₀ < b) (hv1 : v₁ < b) :
    u₀ * v₀ + b * (u₀ * v₀) + b * (u₁ * v₁) + b ^ 2 * (u₁ * v₁) < 4 * b ^ 4 := by
  have h0 : u₀ * v₀ < b ^ 2 := by rw [pow_two]; exact Nat.mul_lt_mul'' hu0 hv0
  have h1 : u₁ * v₁ < b ^ 2 := by rw [pow_two]; exact Nat.mul_lt_mul'' hu1 hv1
  have hb : 1 ≤ b := by omega
  have hb2 : b ≤ b ^ 2 := by rw [pow_two]; exact Nat.le_mul_self b
  calc u₀ * v₀ + b * (u₀ * v₀) + b * (u₁ * v₁) + b ^ 2 * (u₁ * v₁)
      < b ^ 2 * b ^ 2 + b ^ 2 * b ^ 2 + b ^ 2 * b ^ 2 + b ^ 2 * b ^ 2 := by
        have h2 : 0 < b ^ 2 := Nat.pow_pos hb
        have e1 : u₀ * v₀ < b ^ 2 * b ^ 2 := h0.trans_le (Nat.le_mul_of_pos_left _ h2)
        have e2 : b * (u₀ * v₀) ≤ b ^ 2 * b ^ 2 := Nat.mul_le_mul hb2 h0.le
        have e3 : b * (u₁ * v₁) ≤ b ^ 2 * b ^ 2 := Nat.mul_le_mul hb2 h1.le
        have e4 : b ^ 2 * (u₁ * v₁) ≤ b ^ 2 * b ^ 2 := Nat.mul_le_mul_left _ h1.le
        omega
    _ = 4 * b ^ 4 := by ring

end Karatsuba

/-! ## Trial digits

A number `v` is `v₁ * c + v₀`: its leading digits and the rest. -/

section Trial

variable {u v q t b c u₁ u₀ v₁ v₀ : Nat}

/-- A quotient is not more than that of the leading digits. -/
theorem quotient_mul_le (hu : u = u₁ * c + u₀) (hu0 : u₀ < c) (hv : v₁ * c ≤ v)
    (hq : q * v ≤ u) : q * v₁ ≤ u₁ := by
  have hlt : q * v₁ * c < (u₁ + 1) * c :=
    calc q * v₁ * c = q * (v₁ * c) := mul_assoc _ _ _
      _ ≤ q * v := Nat.mul_le_mul_left q hv
      _ ≤ u₁ * c + u₀ := hq.trans hu.le
      _ < (u₁ + 1) * c := by rw [add_mul, one_mul]; omega
  exact Nat.lt_succ_iff.mp (Nat.lt_of_mul_lt_mul_right hlt)

/-- A digit that is not more than the quotient of the leading digits is at most one too large. -/
theorem trial_le (hu : u₁ * c ≤ u) (hv : v = v₁ * c + v₀) (hv0 : v₀ < c) (ht : t * v₁ ≤ u₁)
    (htb : t ≤ b) (hbc : b * c ≤ v) : t ≤ u / v + 1 := by
  have hpos : 0 < c := by omega
  rcases Nat.eq_zero_or_pos t with rfl | htpos
  · exact Nat.zero_le _
  have hvpos : 0 < v := (Nat.mul_pos (htpos.trans_le htb) hpos).trans_le hbc
  have hlt : t * v < u + v :=
    calc t * v = t * v₁ * c + t * v₀ := by rw [hv]; ring
      _ < t * v₁ * c + t * c := Nat.add_lt_add_left (Nat.mul_lt_mul_of_pos_left hv0 htpos) _
      _ ≤ u₁ * c + b * c := Nat.add_le_add (Nat.mul_le_mul_right c ht) (Nat.mul_le_mul_right c htb)
      _ ≤ u + v := Nat.add_le_add hu hbc
  have hle : (t - 1) * v ≤ u := by
    rw [Nat.sub_mul, one_mul]
    omega
  have := (Nat.le_div_iff_mul_le hvpos).mpr hle
  omega

end Trial

/-- A quotient and a remainder of numbers that were both multiplied by `c`. -/
theorem div_mod_of_mul {a b q r c : Nat} (hc : 0 < c) (h : a * c = q * (b * c) + r)
    (hr : r < b * c) : q = a / b ∧ r / c = a % b := by
  have hle : q * b ≤ a := by
    refine Nat.le_of_mul_le_mul_right ?_ hc
    rw [mul_assoc]
    omega
  obtain ⟨d, rfl⟩ := Nat.exists_eq_add_of_le hle
  have hrd : r = d * c := by
    rw [add_mul, mul_assoc] at h
    omega
  have hd : d < b := by
    rw [hrd] at hr
    exact Nat.lt_of_mul_lt_mul_right hr
  rw [hrd, Nat.mul_div_cancel _ hc, add_comm, Nat.add_mul_div_right _ _ (by omega),
    Nat.add_mul_mod_self_right, Nat.div_eq_of_lt hd, Nat.mod_eq_of_lt hd, zero_add]
  exact ⟨rfl, rfl⟩

end Positional
