import Mathlib.Data.Nat.Digits.Lemmas
import Plan9Port.Lib.Except

/-!
# Digits

`mpdigit` and the two operations of `libmp` on single digits, `mpdigmul` (of
`libmp/port/mpvecdigmuladd.c`) and `mpdigdiv` (`libmp/port/mpdigdiv.c`), with the number that a
vector of digits stands for.

## Main results

* `mpdigmul_eq`: the product is exact
* `mpdigdiv_eq`: so is the quotient, if it is a digit
-/

namespace Plan9Port.Mp

open Nat

/-- A digit of a multiple precision integer. -/
abbrev mpdigit := UInt32

/-- Bits per digit. -/
def Dbits : Nat := 32

/-- The radix. -/
def R : Nat := 2 ^ 32

theorem R_eq : R = 4294967296 := rfl

theorem R_pos : 0 < R := by decide

theorem toNat_lt (d : mpdigit) : d.toNat < R := d.toNat_lt

/-! ## Vectors of digits -/

/-- The number that a vector of digits stands for. -/
def val (ds : List mpdigit) : Nat :=
  Nat.ofDigits R (ds.map UInt32.toNat)

@[simp] theorem val_nil : val [] = 0 := rfl

@[simp] theorem val_cons (d : mpdigit) (ds : List mpdigit) : val (d :: ds) = d.toNat + R * val ds :=
  ofDigits_cons

theorem val_append (a b : List mpdigit) : val (a ++ b) = val a + R ^ a.length * val b := by
  rw [val, List.map_append, ofDigits_append, List.length_map]
  rfl

theorem val_singleton (d : mpdigit) : val [d] = d.toNat := by simp

theorem val_lt (ds : List mpdigit) : val ds < R ^ ds.length := by
  have h := ofDigits_lt_base_pow_length (b := R) (l := ds.map UInt32.toNat) (by decide)
    (by simpa using fun d _ => toNat_lt d)
  rwa [List.length_map] at h

@[simp] theorem val_replicate_zero (n : Nat) : val (List.replicate n 0) = 0 := by
  induction n with
  | zero => rfl
  | succ n ih => simp [List.replicate_succ, ih]

/-- Vectors of one length are told apart by their numbers. -/
theorem val_inj {a b : List mpdigit} (hlen : a.length = b.length) (h : val a = val b) : a = b := by
  have := ofDigits_inj_of_len_eq (b := R) (by decide) (by simpa using hlen)
    (by simpa using fun d _ => toNat_lt d) (by simpa using fun d _ => toNat_lt d) h
  exact List.map_injective_iff.mpr (fun _ _ => UInt32.toNat_inj.mp) this

theorem val_eq_zero {ds : List mpdigit} : val ds = 0 ↔ ∀ d ∈ ds, d = 0 := by
  induction ds with
  | nil => simp
  | cons d ds ih =>
    have hR := R_pos
    simp only [val_cons, Nat.add_eq_zero_iff, Nat.mul_eq_zero, Nat.ne_of_gt hR, false_or, ih,
      List.forall_mem_cons]
    rw [← UInt32.toNat_inj]
    rfl

/-! ## Two digits multiplied -/

/-- The low half of a digit. -/
def LO (x : mpdigit) : mpdigit := x &&& 0xFFFF

/-- The high half of a digit. -/
def HI (x : mpdigit) : mpdigit := x >>> 16

/-- The product of two digits, low digit first, from the products of their halves. -/
def mpdigmul (a b : mpdigit) : mpdigit × mpdigit :=
  let ah := HI a
  let al := LO a
  let bh := HI b
  let bl := LO b
  let p1 := ah * bl
  let p2 := bh * al
  let p3 := bl * al
  let p4 := ah * bh
  let carry : mpdigit := 0
  let x := p1 <<< 16
  let p3 := p3 + x
  let carry := if p3 < x then carry + 1 else carry
  let x := p2 <<< 16
  let p3 := p3 + x
  let carry := if p3 < x then carry + 1 else carry
  let p4 := p4 + (carry + HI p1 + HI p2)
  (p3, p4)

theorem toNat_LO (x : mpdigit) : (LO x).toNat = x.toNat % 65536 := by
  rw [LO, UInt32.toNat_and]
  exact and_two_pow_sub_one_eq_mod x.toNat 16

theorem toNat_HI (x : mpdigit) : (HI x).toNat = x.toNat / 65536 := by
  rw [HI, UInt32.toNat_shiftRight]
  exact shiftRight_eq_div_pow x.toNat 16

theorem toNat_shiftLeft_half (x : mpdigit) : (x <<< 16).toNat = x.toNat * 65536 % R := by
  rw [UInt32.toNat_shiftLeft]
  exact congrArg (· % 2 ^ 32) (shiftLeft_eq x.toNat 16)

/-- A sum has wrapped around if and only if it is less than what was added. -/
theorem toNat_add_carry (x y : mpdigit) :
    (x + y).toNat + R * (if x + y < y then 1 else 0) = x.toNat + y.toNat := by
  have hx := toNat_lt x
  have hy := toNat_lt y
  have h : (x + y).toNat = (x.toNat + y.toNat) % R := UInt32.toNat_add x y
  rw [R_eq] at *
  simp only [UInt32.lt_iff_toNat_lt, h]
  split_ifs <;> omega

/-- A difference has wrapped around if and only if it is more than what was there. -/
theorem toNat_sub_borrow (x y : mpdigit) :
    (x - y).toNat + y.toNat = x.toNat + R * (if x < y then 1 else 0) := by
  have hx := toNat_lt x
  have hy := toNat_lt y
  have h : (x - y).toNat = (R - y.toNat + x.toNat) % R := UInt32.toNat_sub x y
  rw [R_eq] at *
  simp only [UInt32.lt_iff_toNat_lt, h]
  split_ifs <;> omega

theorem toNat_sub_one {x : mpdigit} (h : 0 < x.toNat) : (x - 1).toNat + 1 = x.toNat := by
  have hsub := toNat_sub_borrow x 1
  simp only [UInt32.lt_iff_toNat_lt, UInt32.toNat_one] at hsub
  rwa [if_neg (by omega), mul_zero, add_zero] at hsub

/-- The product of two halves is a digit. -/
theorem toNat_mul_half {x y : mpdigit} (hx : x.toNat < 65536) (hy : y.toNat < 65536) :
    (x * y).toNat = x.toNat * y.toNat ∧ x.toNat * y.toNat ≤ 65535 * 65535 := by
  have hle : x.toNat * y.toNat ≤ 65535 * 65535 := Nat.mul_le_mul (by omega) (by omega)
  rw [UInt32.toNat_mul, mod_eq_of_lt (by omega)]
  exact ⟨rfl, hle⟩

/-- **The product of two digits is exact.** -/
theorem mpdigmul_eq (a b : mpdigit) :
    (mpdigmul a b).1.toNat + R * (mpdigmul a b).2.toNat = a.toNat * b.toNat := by
  have hal : (LO a).toNat < 65536 := by rw [toNat_LO]; omega
  have hbl : (LO b).toNat < 65536 := by rw [toNat_LO]; omega
  have hah : (HI a).toNat < 65536 := by
    have := toNat_lt a
    rw [toNat_HI]
    rw [R_eq] at this
    omega
  have hbh : (HI b).toNat < 65536 := by
    have := toNat_lt b
    rw [toNat_HI]
    rw [R_eq] at this
    omega
  have ha : a.toNat = 65536 * (HI a).toNat + (LO a).toNat := by rw [toNat_HI, toNat_LO]; omega
  have hb : b.toNat = 65536 * (HI b).toNat + (LO b).toNat := by rw [toNat_HI, toNat_LO]; omega
  obtain ⟨h1, h1'⟩ := toNat_mul_half hah hbl
  obtain ⟨h2, h2'⟩ := toNat_mul_half hbh hal
  obtain ⟨h3, h3'⟩ := toNat_mul_half hbl hal
  obtain ⟨h4, h4'⟩ := toNat_mul_half hah hbh
  have hprod : a.toNat * b.toNat = R * ((HI a).toNat * (HI b).toNat) +
      65536 * ((HI a).toNat * (LO b).toNat) + 65536 * ((HI b).toNat * (LO a).toNat) +
      (LO b).toNat * (LO a).toNat := by
    rw [ha, hb, R_eq]
    ring
  -- so nothing is carried out of the high digit
  have hlt : a.toNat * b.toNat < R * R := Nat.mul_lt_mul'' (toNat_lt a) (toNat_lt b)
  rw [hprod] at hlt
  rw [hprod, mpdigmul]
  generalize HI a * LO b = p1 at *
  generalize HI b * LO a = p2 at *
  generalize LO b * LO a = p3 at *
  generalize HI a * HI b = p4 at *
  rw [← h1, ← h2, ← h3, ← h4] at hlt ⊢
  rw [← h1] at h1'
  rw [← h2] at h2'
  rw [← h3] at h3'
  rw [← h4] at h4'
  -- the two additions to the low digit, with their carries
  have hx1 := toNat_shiftLeft_half p1
  have hx2 := toNat_shiftLeft_half p2
  have hc1 := toNat_add_carry p3 (p1 <<< 16)
  have hc2 := toNat_add_carry (p3 + p1 <<< 16) (p2 <<< 16)
  have hhi1 := toNat_HI p1
  have hhi2 := toNat_HI p2
  clear h1 h2 h3 h4 ha hb hprod hal hbl hah hbh
  generalize p1 <<< 16 = x1 at *
  generalize p2 <<< 16 = x2 at *
  simp only [R_eq] at *
  split_ifs at * <;> simp only [UInt32.toNat_add, hhi1, hhi2] at hc1 hc2 ⊢ <;> simp <;> omega

/-! ## Two digits divided by one -/

/-- The loop of `mpdigdiv`: subtracts `divisor << i` where it can, while the high digit is not
0. -/
def digdivLoop (divisor : mpdigit) :
    Nat → mpdigit → mpdigit → mpdigit → mpdigit → mpdigit × mpdigit
  | 0, _, _, lo, q => (lo, q)
  | i + 1, x, hi, lo, q =>
    if hi > 0 then
      let x := x >>> 1
      if x > hi then digdivLoop divisor i x hi lo q
      else
        let y := divisor <<< UInt32.ofNat i
        if x = hi ∧ y > lo then digdivLoop divisor i x hi lo q
        else
          let hi := if y > lo then hi - 1 else hi
          digdivLoop divisor i x (hi - x) (lo - y) (q ||| 1 <<< UInt32.ofNat i)
    else (lo, q)

/-- Two digits divided by one; the highest digit if the quotient is no digit. -/
def mpdigdiv (lo hi divisor : mpdigit) : mpdigit :=
  if hi ≥ divisor ∨ divisor = 0 then ~~~0
  else
    let (lo, q) := digdivLoop divisor 32 divisor hi lo 0
    q + lo / divisor

theorem toNat_shiftLeft (d : mpdigit) {i : Nat} (hi : i < 32) :
    (d <<< UInt32.ofNat i).toNat = d.toNat * 2 ^ i % R := by
  have h : (UInt32.ofNat i).toNat = i := UInt32.toNat_ofNat_of_lt' (hi.trans (by decide))
  rw [UInt32.toNat_shiftLeft, h, mod_eq_of_lt hi, shiftLeft_eq]
  rfl

theorem toNat_or_bit {q : mpdigit} {i : Nat} (hi : i < 32) (hq : 2 ^ (i + 1) ∣ q.toNat) :
    (q ||| 1 <<< UInt32.ofNat i).toNat = q.toNat + 2 ^ i := by
  have hbit : (1 <<< UInt32.ofNat i : mpdigit).toNat = 2 ^ i := by
    have := Nat.pow_lt_pow_right (a := 2) (by omega) hi
    rw [toNat_shiftLeft 1 hi, UInt32.toNat_one, one_mul, R, mod_eq_of_lt this]
  obtain ⟨k, hk⟩ := hq
  rw [UInt32.toNat_or, hbit, hk,
    two_pow_add_eq_or_of_lt (Nat.pow_lt_pow_right (by omega) (lt_succ_self i))]

/-- The loop keeps `q * divisor + (hi:lo)`, with `hi:lo` below `divisor << i`. -/
theorem digdivLoop_eq (divisor : mpdigit) (i : Nat) (x hi lo q : mpdigit) (hi32 : i ≤ 32)
    (hx : x.toNat = divisor.toNat * 2 ^ i / R)
    (hlt : lo.toNat + R * hi.toNat < divisor.toNat * 2 ^ i)
    (hq : 2 ^ i ∣ q.toNat) :
    (digdivLoop divisor i x hi lo q).2.toNat * divisor.toNat +
        (digdivLoop divisor i x hi lo q).1.toNat =
      q.toNat * divisor.toNat + (lo.toNat + R * hi.toNat) := by
  induction i generalizing x hi lo q with
  | zero =>
    have hd := toNat_lt divisor
    have : hi.toNat = 0 := by
      rcases Nat.eq_zero_or_pos hi.toNat with h | h
      · exact h
      · have := Nat.le_mul_of_pos_right R h
        omega
    simp [digdivLoop, this]
  | succ i ih =>
    simp only [digdivLoop]
    have hpow : 2 ^ (i + 1) = 2 * 2 ^ i := by ring
    have hq' : 2 ^ i ∣ q.toNat := (Dvd.intro_left 2 hpow.symm).trans hq
    -- `x:y` is `divisor << i`
    have hx' : (x >>> 1).toNat = divisor.toNat * 2 ^ i / R := by
      rw [UInt32.toNat_shiftRight, hx]
      change (divisor.toNat * 2 ^ (i + 1) / R) >>> 1 = _
      rw [shiftRight_eq_div_pow, hpow, Nat.div_div_eq_div_mul, mul_left_comm,
        mul_comm R, pow_one, Nat.mul_div_mul_left _ _ (by omega)]
    have hy : (divisor <<< UInt32.ofNat i).toNat = divisor.toNat * 2 ^ i % R :=
      toNat_shiftLeft divisor (by omega)
    have hdouble : divisor.toNat * 2 ^ (i + 1) = 2 * (divisor.toNat * 2 ^ i) := by ring
    rw [hdouble] at hlt
    generalize hD : divisor.toNat * 2 ^ i = D at *
    have hloR := toNat_lt lo
    have hsub := toNat_sub_borrow lo (divisor <<< UInt32.ofNat i)
    generalize divisor <<< UInt32.ofNat i = y at *
    generalize x >>> 1 = x' at *
    simp only [gt_iff_lt, UInt32.lt_iff_toNat_lt, ← UInt32.toNat_inj, UInt32.toNat_zero] at hsub ⊢
    by_cases h0 : 0 < hi.toNat
    swap
    · have : hi.toNat = 0 := by omega
      simp [this]
    rw [if_pos h0]
    -- either `x:y` is more than `hi:lo`, or it is subtracted
    by_cases hgt : lo.toNat + R * hi.toNat < D
    · have hstep := ih x' hi lo q (by omega) hx' hgt hq'
      have hcases : hi.toNat < x'.toNat ∨ x'.toNat = hi.toNat ∧ lo.toNat < y.toNat := by
        rw [R_eq] at *
        omega
      rcases hcases with h | h
      · rwa [if_pos h]
      · rwa [if_neg (by omega), if_pos h]
    · rw [if_neg (by rw [R_eq] at *; omega), if_neg (by rw [R_eq] at *; omega)]
      generalize hhi' : (if lo.toNat < y.toNat then hi - 1 else hi) - x' = hi'
      have hV : (lo - y).toNat + R * hi'.toNat + D = lo.toNat + R * hi.toNat := by
        have h1 := toNat_sub_borrow hi 1
        have h2 := toNat_sub_borrow hi x'
        have h3 := toNat_sub_borrow (hi - 1) x'
        simp only [UInt32.lt_iff_toNat_lt, UInt32.toNat_one] at h1 h2 h3
        rw [R_eq] at *
        split_ifs at * <;> subst hhi' <;> omega
      have hbit := toNat_or_bit (by omega) hq
      rw [ih x' hi' (lo - y) _ (by omega) hx' (by omega)
        (by rw [hbit]; exact hq'.add (dvd_refl _)), hbit, add_mul, mul_comm (2 ^ i), hD]
      omega

/-- **The quotient of two digits by one is exact**, if it is a digit. -/
theorem mpdigdiv_eq {lo hi divisor : mpdigit} (h : hi < divisor) :
    (mpdigdiv lo hi divisor).toNat = (lo.toNat + R * hi.toNat) / divisor.toNat := by
  rw [UInt32.lt_iff_toNat_lt] at h
  have hlt : lo.toNat + R * hi.toNat < divisor.toNat * 2 ^ 32 := by
    have := toNat_lt lo
    rw [← R, mul_comm _ R]
    have := Nat.mul_le_mul_left R (succ_le_of_lt h)
    rw [mul_succ] at this
    omega
  have heq := digdivLoop_eq divisor 32 divisor hi lo 0 (le_refl _)
    (Nat.mul_div_cancel _ R_pos).symm hlt (dvd_zero _)
  rw [mpdigdiv, if_neg (by
    rw [ge_iff_le, UInt32.le_iff_toNat_le, ← UInt32.toNat_inj, UInt32.toNat_zero]
    omega)]
  generalize digdivLoop divisor 32 divisor hi lo 0 = r at heq ⊢
  rw [UInt32.toNat_zero, zero_mul, zero_add] at heq
  have hquot : r.2.toNat + r.1.toNat / divisor.toNat =
      (lo.toNat + R * hi.toNat) / divisor.toNat := by
    rw [← heq, add_comm (_ * _), add_mul_div_right _ _ (by omega), add_comm]
  have hfits : (lo.toNat + R * hi.toNat) / divisor.toNat < 2 ^ 32 := Nat.div_lt_of_lt_mul hlt
  simp only
  rw [UInt32.toNat_add, UInt32.toNat_div, hquot, mod_eq_of_lt hfits]

theorem mpdigdiv_of_ge {lo hi divisor : mpdigit} (h : ¬ hi < divisor) :
    (mpdigdiv lo hi divisor).toNat = R - 1 := by
  rw [mpdigdiv, if_pos (.inl (UInt32.not_lt.mp h))]
  rfl

end Plan9Port.Mp
