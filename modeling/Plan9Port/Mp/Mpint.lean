import Mathlib.Tactic.Positivity
import Plan9Port.Lib.Heap
import Plan9Port.Mp.Mul

/-!
# Multiple precision integers

The `mpint` of `mp.h` and the functions of `libmp/port/mpaux.c` on one of them. An `mpint` is its
sign, its allocated digits and the number of those that count; memory is taken as unbounded, so
that allocation never fails, and so are the `int`s that count digits and bits. Between functions
`mpint`s are known by reference, as two arguments may be one object.

## Main results

* `mpnorm_normal`, `mpassign_same`: what the two leave behind
* `Trimmed.mag_eq_zero`, `Trimmed.mag_lt_mag`: what the normal form is for
-/

namespace Plan9Port.Mp

open Memory List

/-- An `mpint`: `p` holds the allocated digits, of which the first `top` count. -/
structure Mpint where
  sign : ℤˣ
  top : Nat
  p : List mpdigit
  top_le : top ≤ p.length
deriving DecidableEq

namespace Mpint

/-- The digits that count. -/
def digits (b : Mpint) : List mpdigit := b.p.take b.top

/-- The magnitude. -/
def mag (b : Mpint) : Nat := val b.digits

/-- The number. -/
def value (b : Mpint) : Int := b.sign * b.mag

/-- The high digit is not 0. -/
def Trimmed (b : Mpint) : Prop := b.digits.getLast? ≠ some 0

/-- The normal form: the high digit is not 0, and zero has the sign `+1`. -/
structure Normal (b : Mpint) : Prop where
  trimmed : b.Trimmed
  sign_zero : b.top = 0 → b.sign = 1

/-- The low digit is there, and is 0 in a number without digits. -/
def Low (b : Mpint) : Prop := ∃ d, b.p[0]? = some d ∧ (b.top = 0 → d = 0)

instance (b : Mpint) : Decidable b.Trimmed := inferInstanceAs (Decidable (_ ≠ _))

instance (b : Mpint) : Decidable b.Normal :=
  decidable_of_iff (b.Trimmed ∧ (b.top = 0 → b.sign = 1))
    ⟨fun h => ⟨h.1, h.2⟩, fun h => ⟨h.1, h.2⟩⟩

/-- `b->sign = sign`. -/
def withSign (b : Mpint) (sign : ℤˣ) : Mpint := { b with sign := sign }

@[simp] theorem sign_withSign (b : Mpint) (sign : ℤˣ) : (b.withSign sign).sign = sign := rfl

@[simp] theorem top_withSign (b : Mpint) (sign : ℤˣ) : (b.withSign sign).top = b.top := rfl

@[simp] theorem mag_withSign (b : Mpint) (sign : ℤˣ) : (b.withSign sign).mag = b.mag := rfl

@[simp] theorem length_digits (b : Mpint) : b.digits.length = b.top := length_take_of_le b.top_le

theorem mag_lt (b : Mpint) : b.mag < R ^ b.top := by
  rw [← length_digits b]
  exact val_lt b.digits

end Mpint

/-- The digits that `x` bits take, as C divides. -/
def DIGITS (x : Int) : Int := Int.tdiv (Dbits - 1 + x) Dbits

/-- Digits that are allocated at least, unless `mpsetminbits` is called. -/
def mpmindigits : Nat := 33

/-- A zero with room for `n` bits. -/
def mpnew (n : Nat) : Mpint where
  sign := 1
  top := 0
  p := List.replicate (max (DIGITS n).toNat mpmindigits) 0
  top_le := Nat.zero_le _

/-- Zero. -/
def mpzero : Mpint := ⟨1, 0, [0], by decide⟩

/-- One. -/
def mpone : Mpint := ⟨1, 1, [1], by decide⟩

/-- Guarantees at least `m` significant bits: the digits from `top` on are zeroed. -/
def mpbits (b : Mpint) (m : Int) : Mpint :=
  let n := (DIGITS m).toNat
  if h : b.p.length ≥ n then
    if b.top ≥ n then b
    else { b with
      top := n
      p := Memory.patch b.p b.top (List.replicate (n - b.top) 0)
      top_le := by rw [Memory.length_patch]; exact h }
  else { b with
    top := n
    p := b.digits ++ List.replicate (n - b.top) 0
    top_le := by have := b.top_le; simp; omega }

/-- The digits up to the highest one that is not 0. -/
def normTop (p : List mpdigit) : Nat → Nat
  | 0 => 0
  | i + 1 => if p[i]? = some 0 then normTop p i else i + 1

theorem normTop_le (p : List mpdigit) (i : Nat) : normTop p i ≤ i := by
  induction i with
  | zero => rfl
  | succ i ih =>
    rw [normTop]
    split_ifs <;> omega

/-- Drops the leading zeros. -/
def mpnorm (b : Mpint) : Mpint where
  sign := if normTop b.p b.top = 0 then 1 else b.sign
  top := normTop b.p b.top
  p := b.p
  top_le := (normTop_le b.p b.top).trans b.top_le

/-! ## The normal form -/

variable {b a : Mpint}

namespace Mpint

/-- A high digit that is not 0 bounds the magnitude from below. -/
theorem Trimmed.pow_le (h : b.Trimmed) (htop : b.top ≠ 0) : R ^ (b.top - 1) ≤ b.mag := by
  have hne : b.digits ≠ [] := by
    rw [← length_pos_iff, length_digits]
    omega
  have hlast : (b.digits.getLast hne).toNat ≠ 0 := by
    intro h0
    apply h
    rw [getLast?_eq_some_getLast hne]
    exact congrArg some (UInt32.toNat_inj.mp h0)
  have hval := congrArg val (dropLast_append_getLast hne)
  rw [val_append, val_singleton, length_dropLast, length_digits] at hval
  rw [mag, ← hval]
  exact (Nat.le_mul_of_pos_right _ (Nat.pos_of_ne_zero hlast)).trans (Nat.le_add_left _ _)

theorem mag_of_top_eq_zero (h : b.top = 0) : b.mag = 0 := by
  simp [mag, digits, h]

theorem Trimmed.mag_eq_zero (h : b.Trimmed) : b.mag = 0 ↔ b.top = 0 := by
  constructor
  · intro h0
    by_contra htop
    have := h.pow_le htop
    have := Nat.pow_pos (n := b.top - 1) R_pos
    omega
  · exact mag_of_top_eq_zero

theorem Trimmed.mag_lt_mag (h : b.Trimmed) (htop : a.top < b.top) : a.mag < b.mag :=
  calc a.mag < R ^ a.top := a.mag_lt
    _ ≤ R ^ (b.top - 1) := Nat.pow_le_pow_right R_pos (by omega)
    _ ≤ b.mag := h.pow_le (by omega)

end Mpint

/-! ## The functions -/

theorem DIGITS_eq {x : Int} (h : 0 ≤ x) : DIGITS x = (31 + x) / 32 :=
  Int.tdiv_eq_ediv_of_nonneg (by simp only [Dbits]; omega)

theorem DIGITS_mul (n : Nat) : (DIGITS (Dbits * n)).toNat = n := by
  rw [DIGITS_eq (by positivity), Dbits]
  omega

theorem sign_mpbits (b : Mpint) (m : Int) : (mpbits b m).sign = b.sign := by
  simp only [mpbits]
  split_ifs <;> rfl

theorem length_mpbits (b : Mpint) (m : Int) :
    (mpbits b m).p.length = max b.p.length (DIGITS m).toNat := by
  have := b.top_le
  simp only [mpbits]
  split_ifs with h
  · omega
  · simp only [length_patch]
    omega
  · simp only [length_append, Mpint.length_digits, length_replicate]
    omega

/-- The digits that count stay, and zeros are put above them. -/
theorem digits_mpbits (b : Mpint) (m : Int) :
    (mpbits b m).digits = b.digits ++ replicate ((DIGITS m).toNat - b.top) 0 := by
  have htop := b.top_le
  simp only [mpbits]
  split_ifs with h hle
  · simp [Nat.sub_eq_zero_of_le hle]
  · simp only [Mpint.digits]
    rw [patch_eq_append (by rw [length_replicate]; omega), take_left']
    simp only [length_append, length_take, length_replicate]
    omega
  · rw [Mpint.digits, take_of_length_le]
    simp only [length_append, Mpint.length_digits, length_replicate]
    omega

theorem take_mpbits (b : Mpint) (m : Int) : (mpbits b m).p.take b.top = b.digits := by
  have hdigits := digits_mpbits b m
  have htop : b.top ≤ (mpbits b m).top := by
    rw [← (mpbits b m).length_digits, hdigits, length_append, Mpint.length_digits]
    exact Nat.le_add_right _ _
  have htake := congrArg (take b.top) hdigits
  rwa [take_left' b.length_digits, Mpint.digits, take_take, Nat.min_eq_left htop] at htake

/-- Copies `old` to `new`. When the two are one object `mpbits` finds the digits there already, and
each of the stores puts back what it has. -/
def mpassign (old new : Mpint) : Mpint where
  sign := old.sign
  top := old.top
  p := Memory.patch (mpbits new (Dbits * old.top)).p 0 old.digits
  top_le := by
    rw [Memory.length_patch, length_mpbits, DIGITS_mul]
    exact Nat.le_max_right _ _

/-- A new copy. -/
def mpcopy (old : Mpint) : Mpint where
  sign := old.sign
  top := old.top
  p := Memory.patch (mpnew (Dbits * old.p.length)).p 0 old.digits
  top_le := by
    have := old.top_le
    have := DIGITS_mul old.p.length
    simp only [Memory.length_patch, mpnew, List.length_replicate]
    push_cast
    omega

variable {n : Nat} {p : List mpdigit}

/-- Digits stored from the first one on, and counted. -/
theorem take_patch_digits {ds : List mpdigit} (hn : ds.length = n) (h : n ≤ p.length) :
    (patch p 0 ds).take n = ds := by
  rw [← hn, take_patch (hn ▸ h)]

@[simp] theorem digits_mpassign (old new : Mpint) : (mpassign old new).digits = old.digits :=
  take_patch_digits old.length_digits (by
    rw [length_mpbits, DIGITS_mul]
    exact Nat.le_max_right _ _)

@[simp] theorem digits_mpcopy (old : Mpint) : (mpcopy old).digits = old.digits :=
  take_patch_digits old.length_digits (by
    have := (mpcopy old).top_le
    rwa [mpcopy, length_patch] at this)

namespace Mpint

/-- Two objects with one sign and the same digits stand for one integer, in one form. -/
structure Same (a b : Mpint) : Prop where
  sign : a.sign = b.sign
  digits : a.digits = b.digits

theorem Same.top (h : Same a b) : a.top = b.top := by
  rw [← a.length_digits, h.digits, b.length_digits]

theorem Same.mag (h : Same a b) : a.mag = b.mag := by
  rw [Mpint.mag, h.digits, Mpint.mag]

theorem Same.value (h : Same a b) : a.value = b.value := by
  rw [Mpint.value, h.sign, h.mag, Mpint.value]

theorem Same.trimmed (h : Same a b) : a.Trimmed ↔ b.Trimmed := by
  rw [Trimmed, h.digits, Trimmed]

theorem Same.normal (h : Same a b) : a.Normal ↔ b.Normal :=
  ⟨fun ha => ⟨h.trimmed.mp ha.trimmed, by rw [← h.top, ← h.sign]; exact ha.sign_zero⟩,
    fun hb => ⟨h.trimmed.mpr hb.trimmed, by rw [h.top, h.sign]; exact hb.sign_zero⟩⟩

end Mpint

theorem mpassign_same (old new : Mpint) : (mpassign old new).Same old :=
  ⟨rfl, digits_mpassign old new⟩

theorem mpcopy_same (old : Mpint) : (mpcopy old).Same old := ⟨rfl, digits_mpcopy old⟩

theorem mpzero_normal : mpzero.Normal := by decide

theorem mpone_normal : mpone.Normal := by decide

/-- The digits above `normTop` are 0, and the one below it is not. -/
theorem take_normTop (hn : n ≤ p.length) :
    val (p.take (normTop p n)) = val (p.take n) ∧ (p.take (normTop p n)).getLast? ≠ some 0 := by
  induction n with
  | zero => simp [normTop]
  | succ n ih =>
    have hget : p[n]? = some (p.get ⟨n, hn⟩) := getElem?_eq_getElem hn
    have htake : p.take (n + 1) = p.take n ++ [p.get ⟨n, hn⟩] := by
      rw [take_add_one, hget]
      rfl
    rw [normTop]
    split_ifs with h
    · obtain ⟨hval, hlast⟩ := ih (by omega)
      refine ⟨?_, hlast⟩
      rw [hget, Option.some.injEq] at h
      rw [hval, htake, h, val_append]
      simp
    · refine ⟨rfl, ?_⟩
      rw [htake, getLast?_concat, ← hget]
      exact h

theorem mag_mpnorm (b : Mpint) : (mpnorm b).mag = b.mag := (take_normTop b.top_le).1

/-- **`mpnorm` makes the normal form** out of any digits and any sign. -/
theorem mpnorm_normal (b : Mpint) : (mpnorm b).Normal := by
  refine ⟨(take_normTop b.top_le).2, ?_⟩
  intro h
  exact if_pos h

theorem normTop_eq_zero (h : normTop p n = 0) {i : Nat} (hi : i < n) : p[i]? = some 0 := by
  induction n with
  | zero => omega
  | succ n ih =>
    rw [normTop] at h
    split_ifs at h with hn
    · by_cases hin : i = n
      · rw [hin]
        exact hn
      · exact ih h (by omega)

/-- Where `normTop` finds no digit it has looked at the low one. -/
theorem low_of_normTop (hn : 0 < n) (hlen : n ≤ b.p.length) (htop : b.top = normTop b.p n) :
    b.Low := by
  refine ⟨_, getElem?_eq_getElem (by omega), fun h0 => ?_⟩
  have := normTop_eq_zero (htop.symm.trans h0) hn
  rw [getElem?_eq_getElem (by omega)] at this
  exact Option.some.inj this

theorem mpnorm_low (h : b.top ≠ 0) : (mpnorm b).Low :=
  low_of_normTop (Nat.pos_of_ne_zero h) b.top_le rfl

theorem Mpint.low_of_top_ne_zero (h : b.top ≠ 0) : b.Low := by
  have := b.top_le
  exact ⟨_, getElem?_eq_getElem (by omega), fun h0 => absurd h0 h⟩

theorem digits_eq_nil (h : b.top = 0) : b.digits = [] := by
  rw [← length_eq_zero_iff, Mpint.length_digits, h]

theorem mpassign_p {old new : Mpint} (h : old.top = 0) : (mpassign old new).p = new.p := by
  have hbits : mpbits new (Dbits * old.top) = new := by
    have hdigits : (DIGITS (Dbits * old.top)).toNat = 0 := by
      rw [DIGITS_mul, h]
    simp only [mpbits, hdigits]
    simp
  change patch (mpbits new (Dbits * old.top)).p 0 old.digits = new.p
  rw [hbits, digits_eq_nil h, patch_nil]

theorem mpcopy_low (old : Mpint) : (mpcopy old).Low := by
  by_cases h : old.top = 0
  · refine ⟨0, ?_, fun _ => rfl⟩
    change (patch (mpnew (Dbits * old.p.length)).p 0 old.digits)[0]? = some 0
    rw [digits_eq_nil h, patch_nil, mpnew]
    simp [mpmindigits]
  · exact Mpint.low_of_top_ne_zero h

theorem sign_mpnorm (h : b.mag ≠ 0) : (mpnorm b).sign = b.sign := by
  refine if_neg ?_
  intro h0
  apply h
  rw [← mag_mpnorm]
  exact Mpint.mag_of_top_eq_zero h0

theorem value_mpnorm (b : Mpint) : (mpnorm b).value = b.value := by
  rw [Mpint.value, Mpint.value, mag_mpnorm]
  by_cases h : b.mag = 0
  · simp [h]
  · rw [sign_mpnorm h]

end Plan9Port.Mp
