import Plan9Port.Mp.Signs

/-!
# Conversion to and from `vlong`

`vtomp` and `mptov` of `libmp/port/mptov.c`. A `vlong` is an integer of 64 bits, which are two
digits, and `mptov` moves each digit to its place with a shift of the digit itself. C leaves such a
shift undefined if it is by all the bits of a digit or more, as it does an overflow of a `vlong`.

## Main results

* `mptov_clamp`: what `mptov` is for, which it does for all integers but those of two digits
-/

namespace Plan9Port.Mp

open Option

/-- The digits of a `vlong`. -/
def VLDIGITS : Nat := 2

/-- The largest `vlong`. -/
def MAXVLONG : Nat := 2 ^ 63 - 1

/-- The least `vlong`, without its sign. -/
def MINVLONG : Nat := MAXVLONG + 1

/-- The loop of `vtomp`: the digits it stores, of which there are `n` at most. -/
def vlongDigits : Nat → Nat → List mpdigit
  | 0, _ => []
  | n + 1, uv => if uv = 0 then [] else UInt32.ofNat uv :: vlongDigits n (uv >>> 16 >>> 16)

/-- A `vlong` as an `mpint`. -/
def vtomp (v : Int) (b : Option Mpint) : Option Mpint :=
  let b := match b with
    | none => mpnew (VLDIGITS * 4)
    | some b => mpbits b (VLDIGITS * 4)
  let b := mpassign mpzero b
  if v = 0 then some b
  -- `-v` is no `vlong`
  else if v = -MINVLONG then none
  else
    let ds := vlongDigits VLDIGITS v.natAbs
    mpint (if v < 0 then -1 else b.sign) ds.length (Memory.patch b.p 0 ds)

/-- `d << n`. -/
def shl (d : mpdigit) (n : Nat) : Option mpdigit :=
  if n < Dbits then some (d <<< UInt32.ofNat n) else none

/-- The loop of `mptov`, from the digit `s` on. -/
def joinDigits : Nat → List mpdigit → Nat → Option Nat
  | _, [], v => some v
  | s, d :: ds, v => do
    let x ← shl d (s * Dbits)
    joinDigits (s + 1) ds (v ||| x.toNat)

/-- An `mpint` as a `vlong`. -/
def mptov (b : Mpint) : Option Int :=
  if b.top = 0 then some 0
  else
    let b := mpnorm b
    if b.top > VLDIGITS then some (if (b.sign : Int) > 0 then MAXVLONG else -MINVLONG)
    else do
      let v ← joinDigits 0 b.digits 0
      if (b.sign : Int) > 0 then return (if v > MAXVLONG then MAXVLONG else v : Nat)
      else if v > MINVLONG then return -MINVLONG
      -- the `vlong` with these bits is the least one, which has no opposite
      else if v = MINVLONG then none
      else return -v

/-- The `vlong` closest to `n`. -/
def clamp (n : Int) : Int := max (-MINVLONG) (min n MAXVLONG)

variable {b : Mpint}

theorem joinDigits_singleton (d : mpdigit) : joinDigits 0 [d] 0 = some d.toNat := by
  simp [joinDigits, shl, Dbits]

theorem digits_of_top_eq_one (h : b.top = 1) : ∃ d, b.digits = [d] ∧ b.mag = d.toNat := by
  obtain ⟨d, hd⟩ := List.length_eq_one_iff.mp (b.length_digits.trans h)
  exact ⟨d, hd, by rw [Mpint.mag, hd, val_singleton]⟩

/-- What is not a number of two digits is clamped. -/
theorem mptov_eq (hn : b.Normal) (hsize : b.mag < R ∨ R ^ 2 ≤ b.mag) :
    mptov b = some (clamp b.value) := by
  by_cases htop : b.top = 0
  · rw [mptov, if_pos htop, Mpint.value, Mpint.mag_of_top_eq_zero htop]
    simp [clamp]
  have hval := value_mpnorm b
  have hmag := mag_mpnorm b
  have hne : (mpnorm b).mag ≠ 0 := by
    rw [hmag, ne_eq, hn.trimmed.mag_eq_zero]
    exact htop
  have htrim := (mpnorm_normal b).trimmed
  rw [mptov, if_neg htop, ← hval]
  rw [← hmag] at hsize
  generalize mpnorm b = z at *
  rw [Mpint.value, clamp]
  have hmax : MAXVLONG = 9223372036854775807 := rfl
  have hmin : MINVLONG = 9223372036854775808 := rfl
  have hdigits : VLDIGITS = 2 := rfl
  rcases hsize with hsmall | hlarge
  · -- one digit, which is not moved
    have hle : z.top ≤ 1 := htrim.top_le_of_lt (by rwa [pow_one])
    have hone : z.top = 1 := by
      have : z.top ≠ 0 := fun h => hne (Mpint.mag_of_top_eq_zero h)
      omega
    obtain ⟨d, hd, hmd⟩ := digits_of_top_eq_one hone
    have hlt := toNat_lt d
    rw [R_eq] at hlt
    simp only
    rw [if_neg (by omega), hd, joinDigits_singleton, hmd]
    simp only [Lib.some_bind]
    rcases sign_cases z.sign with hs | hs <;> rw [hs]
    · rw [if_pos (by decide), if_neg (by omega)]
      simp only [Units.val_one, one_mul, pure_def, some_inj]
      omega
    · rw [if_neg (by decide), if_neg (by omega), if_neg (by omega)]
      simp only [Units.val_neg, Units.val_one, pure_def, some_inj]
      omega
  · have hmany : z.top > 2 := by
      by_contra hle
      have := z.mag_lt
      have := Nat.pow_le_pow_right R_pos (Nat.le_of_not_lt hle)
      omega
    rw [R_eq] at hlarge
    simp only
    rw [if_pos (by omega)]
    rcases sign_cases z.sign with hs | hs <;> rw [hs]
    · rw [if_pos (by decide)]
      simp only [Units.val_one, one_mul, some_inj]
      omega
    · rw [if_neg (by decide)]
      simp only [Units.val_neg, Units.val_one, some_inj]
      omega

/-- The high one of two digits is shifted by all its bits. -/
theorem mptov_eq_none (hlo : R ≤ b.mag) (hhi : b.mag < R ^ 2) : mptov b = none := by
  have htrim := (mpnorm_normal b).trimmed
  have hle : (mpnorm b).top ≤ 2 := htrim.top_le_of_lt (by rwa [mag_mpnorm])
  have hge : 2 ≤ (mpnorm b).top := by
    have hlt := (mpnorm b).mag_lt
    rw [mag_mpnorm] at hlt
    by_contra hgt
    have := Nat.pow_le_pow_right R_pos (by omega : (mpnorm b).top ≤ 1)
    rw [pow_one] at this
    omega
  obtain ⟨d, e, hde⟩ :=
    List.length_eq_two.mp ((mpnorm b).length_digits.trans (Nat.le_antisymm hle hge))
  have htop : b.top ≠ 0 := fun h => by
    rw [Mpint.mag_of_top_eq_zero h, R_eq] at hlo
    omega
  simp only [mptov, if_neg htop, VLDIGITS, if_neg (Nat.not_lt.mpr hle), hde]
  simp [joinDigits, shl, Dbits]

/-- The loop stores the digits of `uv`. -/
theorem vlongDigits_spec (n : Nat) {uv : Nat} (h : uv < R ^ n) :
    val (vlongDigits n uv) = uv ∧ (vlongDigits n uv).getLast? ≠ some 0 ∧
      (vlongDigits n uv).length ≤ n := by
  induction n generalizing uv with
  | zero =>
    obtain rfl : uv = 0 := by simpa using h
    simp [vlongDigits]
  | succ n ih =>
    by_cases h0 : uv = 0
    · simp [vlongDigits, h0]
    have hdiv : uv >>> 16 >>> 16 = uv / R := by
      simp only [Nat.shiftRight_eq_div_pow, Nat.div_div_eq_div_mul]
      rfl
    obtain ⟨hval, hlast, hlen⟩ := ih (Nat.div_lt_of_lt_mul (by rwa [← Nat.pow_succ']) : uv / R < _)
    have hd : (UInt32.ofNat uv).toNat = uv % R := UInt32.toNat_ofNat'
    simp only [vlongDigits, if_neg h0, hdiv, val_cons, hd, hval, List.length_cons]
    refine ⟨Nat.mod_add_div uv R, ?_, by omega⟩
    cases hds : vlongDigits n (uv / R) with
    | nil =>
      -- one digit, which is `uv`
      rw [hds, val_nil] at hval
      rw [List.getLast?_singleton, ne_eq, some_inj, ← UInt32.toNat_inj, hd]
      have := Nat.mod_add_div uv R
      simp only [← hval, Nat.mul_zero, UInt32.toNat_zero] at this ⊢
      omega
    | cons e es =>
      rw [List.getLast?_cons_cons, ← hds]
      exact hlast

/-- A `vlong` that has an opposite, as an `mpint`. -/
theorem vtomp_eq {v : Int} (hv : v.natAbs ≤ MAXVLONG) :
    ∃ z, vtomp v none = some z ∧ z.Normal ∧ z.value = v := by
  by_cases h0 : v = 0
  · refine ⟨mpassign mpzero (mpnew (VLDIGITS * 4)), by rw [vtomp, if_pos h0], ?_, ?_⟩
    · exact (mpassign_same mpzero _).normal.mpr mpzero_normal
    · rw [(mpassign_same mpzero _).value, h0]
      rfl
  have hmax : MAXVLONG = 9223372036854775807 := rfl
  have hmin : MINVLONG = 9223372036854775808 := rfl
  obtain ⟨hval, hlast, hlen⟩ := vlongDigits_spec VLDIGITS
    (show v.natAbs < R ^ 2 by rw [R_eq]; omega)
  obtain ⟨z, hz⟩ : ∃ z, z = mpassign mpzero (mpnew (VLDIGITS * 4)) := ⟨_, rfl⟩
  have hsign : z.sign = 1 := by rw [hz]; rfl
  have hroom : (vlongDigits VLDIGITS v.natAbs).length ≤ z.p.length := by
    refine hlen.trans ?_
    rw [hz, mpassign_p rfl]
    simp [mpnew, mpmindigits, VLDIGITS]
  rw [vtomp, if_neg h0, if_neg (by omega)]
  simp only [← hz, hsign]
  rw [mpint_eq (by rwa [Memory.length_patch])]
  refine ⟨_, rfl, ⟨?_, fun htop => ?_⟩, ?_⟩
  · rwa [Mpint.Trimmed, Mpint.digits, take_patch_digits rfl hroom]
  · rw [List.length_eq_zero_iff.mp htop, val_nil] at hval
    omega
  rw [Mpint.value, Mpint.mag, Mpint.digits, take_patch_digits rfl hroom, hval]
  by_cases hneg : v < 0
  · rw [if_pos hneg]
    simp only [Units.val_neg, Units.val_one]
    omega
  · rw [if_neg hneg]
    simp only [Units.val_one]
    omega

/-- **Conversion to `vlong`.** An integer becomes the closest `vlong`, and a `vlong` comes back as
it was, exactly if it does not have two digits. -/
theorem mptov_clamp {b : Mpint} {v : Int} (hb : b.Normal) (hv : -MINVLONG ≤ v ∧ v ≤ MAXVLONG) :
    (mptov b = some (clamp b.value) ↔ b.mag < 2 ^ 32 ∨ 2 ^ 64 ≤ b.mag) ∧
      ((vtomp v none).bind mptov = some v ↔ v.natAbs < 2 ^ 32) := by
  have hmax : MAXVLONG = 9223372036854775807 := rfl
  have hmin : MINVLONG = 9223372036854775808 := rfl
  refine ⟨⟨fun h => ?_, mptov_eq hb⟩, ?_⟩
  · by_contra hsize
    rw [not_or, Nat.not_lt, Nat.not_le] at hsize
    rw [mptov_eq_none hsize.1 hsize.2] at h
    cases h
  by_cases hleast : v = -MINVLONG
  · rw [vtomp, if_neg (by omega), if_pos hleast]
    simp only [bind_none, reduceCtorEq, false_iff]
    omega
  obtain ⟨z, hz, hn, hval⟩ := vtomp_eq (show v.natAbs ≤ MAXVLONG by omega)
  have hmag : z.mag = v.natAbs := by
    rw [Mpint.value] at hval
    rcases sign_cases z.sign with hs | hs <;> rw [hs] at hval <;>
      simp only [Units.val_neg, Units.val_one] at hval <;> omega
  rw [hz, bind_some]
  by_cases hsmall : v.natAbs < 2 ^ 32
  · rw [mptov_eq hn (.inl (hmag.trans_lt hsmall)), hval]
    simp only [clamp, some_inj, hsmall, iff_true]
    omega
  · rw [mptov_eq_none (by rw [hmag, R_eq]; omega) (by rw [hmag, R_eq]; omega)]
    simp only [reduceCtorEq, hsmall]

/-- One digit, and -7 there and back. -/
theorem mptov_clamp_one :
    mptov mpone = some 1 ∧ (vtomp (-7) none).bind mptov = some (-7) :=
  have h := mptov_clamp mpone_normal (by decide : -MINVLONG ≤ (-7 : Int) ∧ (-7 : Int) ≤ MAXVLONG)
  ⟨h.1.mpr (.inl (by decide)), h.2.mpr (by decide)⟩

/-- The `vlong` 4294967296 has two digits: the high one is shifted by 32 bits. -/
theorem mptov_two_digits :
    ∃ z, vtomp 4294967296 none = some z ∧ z.Normal ∧ z.value = 4294967296 ∧ mptov z = none := by
  have hrun : (vtomp 4294967296 none).map (fun z => (decide z.Normal, z.value, mptov z)) =
      some (true, 4294967296, none) := by decide +kernel
  obtain ⟨z, hz, heq⟩ := map_eq_some_iff.mp hrun
  simp only [Prod.mk.injEq, decide_eq_true_eq] at heq
  exact ⟨z, hz, heq⟩

end Plan9Port.Mp
