import Mathlib.Tactic.Ring

/-!
# Numbers as text

`atoi` of `lib9/atoi.c`, which is `strtol` with the base 0, and the verb `%d` for a number that is
not negative. A text that `%d` prints has no leading 0, so that `strtol` takes it for decimal.

## Main definitions

* `decimal`: what `%d` prints
* `strtol`, `atoi`

## Main results

* `atoi_decimal`: the number that was printed is read
-/

namespace Plan9Port.Lib9

open List UInt8 Nat

/-- The digits of `n`, the highest first; `fuel` is above `n`. -/
def decimalDigits : Nat → Nat → List UInt8
  | 0, _ => []
  | fuel + 1, n =>
    (if n < 10 then [] else decimalDigits fuel (n / 10)) ++ [.ofNat (0x30 + n % 10)]

/-- `%d`. -/
def decimal (n : Nat) : List UInt8 := decimalDigits (n + 1) n

/-- The string at the beginning of a buffer, without its NUL. -/
def cstr (s : List UInt8) : List UInt8 := s.takeWhile (· ≠ 0)

/-- `isspace`, for the C locale. -/
def isspace (c : UInt8) : Bool := c = 0x20 || (0x09 ≤ c && c ≤ 0x0d)

/-- The value of a digit or a letter. -/
def digit (c : UInt8) : Option Nat :=
  if 0x30 ≤ c ∧ c ≤ 0x39 then some (c.toNat - 0x30)
  else if 0x61 ≤ c ∧ c ≤ 0x7a then some (c.toNat - 0x61 + 10)
  else if 0x41 ≤ c ∧ c ≤ 0x5a then some (c.toNat - 0x41 + 10)
  else none

/-- The number at the beginning of a text, up to what is no digit in the base. -/
def strtolDigits (base : Nat) : Nat → List UInt8 → Nat
  | acc, [] => acc
  | acc, c :: s =>
    match digit c with
    | none => acc
    | some d => if d < base then strtolDigits base (acc * base + d) s else acc

/-- The base that a text shows with `0x` or 0, and its number. -/
def strtolBase : List UInt8 → Nat
  | 0x30 :: x :: c :: s =>
    if (x = 0x78 ∨ x = 0x58) ∧ (digit c).any (· < 16) then strtolDigits 16 0 (c :: s)
    else strtolDigits 8 0 (x :: c :: s)
  | 0x30 :: s => strtolDigits 8 0 s
  | s => strtolDigits 10 0 s

/-- `strtol(s, 0, 0)`: out of the range of a `long` its limits are returned. -/
def strtol (s : List UInt8) : Int :=
  match s.dropWhile isspace with
  | 0x2d :: s => max (-(strtolBase s : Int)) (-2 ^ 63)
  | 0x2b :: s => min (strtolBase s : Int) (2 ^ 63 - 1)
  | s => min (strtolBase s : Int) (2 ^ 63 - 1)

/-- The `long` of `strtol`, as an `int`. -/
def atoi (s : List UInt8) : Int := (strtol s).bmod (2 ^ 32)

/-! ## Reading what was printed -/

variable {n fuel : Nat} {c : UInt8}

theorem toNat_digit (h : n < 10) : (ofNat (0x30 + n)).toNat = 0x30 + n :=
  toNat_ofNat_of_lt' (by simp [UInt8.size]; omega)

theorem digit_ofNat (h : n < 10) : digit (.ofNat (0x30 + n)) = some n := by
  have htoNat := toNat_digit h
  have hrange : 0x30 ≤ ofNat (0x30 + n) ∧ ofNat (0x30 + n) ≤ 0x39 := by
    rw [le_iff_toNat_le, le_iff_toNat_le, htoNat]
    exact ⟨Nat.le_add_right _ _, show 0x30 + n ≤ 0x39 by omega⟩
  rw [digit, if_pos hrange, htoNat, Nat.add_sub_cancel_left]

/-- The digits are read in the base 10, and what is read before them counts. -/
theorem strtolDigits_decimalDigits (h : n < fuel) (acc : Nat) (s : List UInt8) :
    ∃ k, strtolDigits 10 acc (decimalDigits fuel n ++ s) =
      strtolDigits 10 (acc * 10 ^ k + n) s := by
  induction fuel generalizing n s with
  | zero => omega
  | succ fuel ih =>
    have hstep : ∀ a, strtolDigits 10 a ([.ofNat (0x30 + n % 10)] ++ s) =
        strtolDigits 10 (a * 10 + n % 10) s := by
      intro a
      have hlt : n % 10 < 10 := mod_lt _ (by decide)
      rw [singleton_append, strtolDigits, digit_ofNat hlt]
      exact if_pos hlt
    rw [decimalDigits]
    split_ifs with hn
    · refine ⟨1, ?_⟩
      rw [nil_append, hstep, Nat.pow_one, mod_eq_of_lt hn]
    obtain ⟨k, hk⟩ := ih (n := n / 10) (by omega) ([.ofNat (0x30 + n % 10)] ++ s)
    refine ⟨k + 1, ?_⟩
    rw [append_assoc, hk, hstep, Nat.pow_succ]
    congr 1
    rw [Nat.add_mul, Nat.mul_assoc]
    omega

/-- The first digit is 0 for the number 0 only. -/
theorem decimalDigits_head (h : n < fuel) :
    ∃ d s, d < 10 ∧ decimalDigits fuel n = .ofNat (0x30 + d) :: s ∧ (d = 0 → n = 0 ∧ s = []) := by
  induction fuel generalizing n with
  | zero => omega
  | succ fuel ih =>
    rw [decimalDigits]
    split_ifs with hn
    · exact ⟨n % 10, [], by omega, rfl, fun h => ⟨by omega, rfl⟩⟩
    · obtain ⟨d, s, hd, heq, h0⟩ := ih (n := n / 10) (by omega)
      refine ⟨d, s ++ [.ofNat (0x30 + n % 10)], hd, by rw [heq, cons_append], fun h => ?_⟩
      omega

theorem le_of_mem_decimalDigits (h : c ∈ decimalDigits fuel n) : 0x30 ≤ c.toNat := by
  induction fuel generalizing n with
  | zero => exact absurd h not_mem_nil
  | succ fuel ih =>
    rw [decimalDigits, mem_append, mem_singleton] at h
    rcases h with h | rfl
    · split_ifs at h
      · exact absurd h not_mem_nil
      · exact ih h
    · rw [toNat_digit (mod_lt _ (by decide))]
      exact Nat.le_add_right _ _

theorem length_decimalDigits {k : Nat} (h : n < 10 ^ k) :
    (decimalDigits fuel n).length ≤ max k 1 := by
  induction fuel generalizing n k with
  | zero => simp [decimalDigits]
  | succ fuel ih =>
    rw [decimalDigits, length_append, length_singleton]
    split_ifs with hn
    · exact Nat.le_max_right k 1
    cases k with
    | zero => simp at h; omega
    | succ k =>
      have hlt : n / 10 < 10 ^ k := by
        rw [Nat.div_lt_iff_lt_mul (by decide)]
        exact h
      have hk : k ≠ 0 := by
        rintro rfl
        simp at hlt
        omega
      have := ih (n := n / 10) hlt
      omega

theorem strtolBase_of_ne (s : List UInt8) (h : c ≠ 0x30) :
    strtolBase (c :: s) = strtolDigits 10 0 (c :: s) := by
  unfold strtolBase
  split
  · next heq => exact absurd (cons.inj heq).1 h
  · next heq => exact absurd (cons.inj heq).1 h
  · rfl

theorem strtol_of_digit (s : List UInt8) (h : 0x30 ≤ c.toNat) :
    strtol (c :: s) = min (strtolBase (c :: s) : Int) (2 ^ 63 - 1) := by
  have hne : ∀ b : UInt8, b.toNat < 0x30 → c ≠ b := by
    rintro b hb rfl
    omega
  have hspace : isspace c = false := by
    have hle : ¬ c ≤ 0x0d := by
      rw [le_iff_toNat_le]
      exact Nat.not_le.mpr (Nat.lt_of_lt_of_le (by decide) h)
    simp [isspace, hne 0x20 (by decide), hle]
  rw [strtol, dropWhile_cons_of_neg (by simp [hspace])]
  split
  · next heq => exact absurd (cons.inj heq).1 (hne 0x2d (by decide))
  · next heq => exact absurd (cons.inj heq).1 (hne 0x2b (by decide))
  · rfl

/-- **The number that was printed** is read again. -/
theorem atoi_decimal (h : n < 2 ^ 31) : atoi (decimal n) = n := by
  obtain ⟨d, s, hd, heq, h0⟩ := decimalDigits_head (lt_succ_self n)
  obtain ⟨k, hk⟩ := strtolDigits_decimalDigits (lt_succ_self n) 0 []
  rw [append_nil, Nat.zero_mul, Nat.zero_add, strtolDigits, heq] at hk
  have hbase : strtolBase (.ofNat (0x30 + d) :: s) = n := by
    by_cases hd0 : d = 0
    · obtain ⟨rfl, rfl⟩ := h0 hd0
      rw [hd0]
      rfl
    have hne : ofNat (0x30 + d) ≠ 0x30 := by
      intro hc
      have := congrArg toNat hc
      rw [toNat_digit hd] at this
      exact hd0 (Nat.add_left_cancel (show 0x30 + d = 0x30 + 0 from this))
    rw [strtolBase_of_ne s hne, hk]
  have hdigit : 0x30 ≤ (ofNat (0x30 + d)).toNat := by
    rw [toNat_digit hd]
    exact Nat.le_add_right _ _
  rw [atoi, decimal, heq, strtol_of_digit s hdigit, hbase]
  have hmin : min (n : Int) (2 ^ 63 - 1) = n := by omega
  rw [hmin, Int.bmod_def]
  omega

end Plan9Port.Lib9
