import Mathlib.Data.Nat.Bitwise
import Plan9Port.Mp.Shift

/-!
# Division

`mpdiv` of `libmp/port/mpdiv.c`: long division by trial digits. The working copies `u` of the
dividend and `t` of a product are objects no one else knows; they are plain values here. The
working divisor `v` is such a value too, unless it is the divisor itself, which is then read from
the store anew in each round.

## Main results

* `divDigit_spec`: the trial digit is at most one too large, and one round takes a digit of the
  quotient from the dividend
* `mpdiv_magnitudes`: the magnitudes of the quotient and the remainder
-/

namespace Plan9Port.Mp

open Memory Heap Mpint Lib
open Option (bind_some bind_eq_bind)

/-- The high bit of a digit. -/
def mpdighi : mpdigit := 0x80000000

/-- `for(s = 0; (qd & mpdighi) == 0; s++) qd <<= 1`. -/
def normShift : Nat → mpdigit → Nat → Option Nat
  | 0, _, _ => none
  | fuel + 1, qd, s => if qd &&& mpdighi = 0 then normShift fuel (qd <<< 1) (s + 1) else some s

/-- D3a: lowers the trial digit `qd` while its product with the two high digits `v2` of the divisor
is more than the three high digits `u3` of the dividend. -/
def trialLoop (v2 u3 : List mpdigit) : Nat → mpdigit → Option mpdigit
  | 0, _ => none
  | fuel + 1, qd => do
    let t ← mpvecdigmuladd v2 qd [0, 0, 0]
    if mpveccmp t u3 > 0 then trialLoop v2 u3 fuel (qd - 1) else return qd

/-- D3 and D3a: the trial digit for the `v.length + 1` digits of `u` at `k`. -/
def trialDigit (v u : List mpdigit) (k : Nat) : Option mpdigit := do
  let vn := v.length
  let up := k + vn
  let hi ← u[up]?
  let lo ← u[up - 1]?
  let vp ← v[vn - 1]?
  let qd := mpdigdiv lo hi vp
  if vn > 1 then
    let v2 ← digits v (vn - 2) 2
    let u3 ← digits u (up - 2) 3
    trialLoop v2 u3 (qd.toNat + 1) qd
  else return qd

/-- One round of the loop over the digits of the dividend: the digit of the quotient, and what is
left of the dividend. -/
def divDigit (v u : List mpdigit) (k : Nat) : Option (mpdigit × List mpdigit) := do
  let vn := v.length
  let qd ← trialDigit v u k
  -- D4: u -= v*qd << j*Dbits
  let w ← digits u k (vn + 1)
  let (w, sign) ← mpvecdigmulsub v qd w
  let u := Memory.patch u k w
  -- D6: trial divisor was too high, add back borrowed value and decrease divisor
  let u ← (if sign < 0 then addAt u k (vn + 1) v else some u)
  let qd := if sign < 0 then qd - 1 else qd
  -- push top of u down one
  let u ← store u (k + vn) 0
  return (qd, u)

/-- The working divisor: `none` is the divisor itself. -/
def workingDivisor (divisor : Ref) (v : Option Mpint) (st : Store) : Option Mpint :=
  match v with
  | some v => some v
  | none => st.get divisor

/-- D5: saves a digit of the quotient. -/
def saveDigit (quotient : Option Ref) (k : Nat) (qd : mpdigit) (st : Store) : Option Store :=
  match quotient with
  | none => some st
  | some q => do
    let z ← st.get q
    let p ← store z.p k qd
    let z ← mpint z.sign z.top p
    return st.set q z

/-- D2, D7: the loop on the length of the dividend, for the digits of the quotient below `k`. -/
def divLoop (divisor : Ref) (v : Option Mpint) (quotient : Option Ref) (vn : Nat) :
    Nat → List mpdigit → Store → Option (List mpdigit × Store)
  | 0, u, st => some (u, st)
  | k + 1, u, st => do
    let w ← workingDivisor divisor v st
    let vd ← digits w.p 0 vn
    let (qd, u) ← divDigit vd u k
    let st ← saveDigit quotient k qd st
    divLoop divisor v quotient vn k u st

/-- What `mpdiv` does to the quotient before the loop. -/
def startQuotient (quotient : Option Ref) (n : Nat) (st : Store) : Option Store :=
  match quotient with
  | none => some st
  | some q => do
    let z ← st.get q
    let z := mpbits z (Dbits * n)
    let z ← mpint z.sign n z.p
    return st.set q z

/-- What `mpdiv` does to the quotient after the loop. -/
def endQuotient (dividend divisor : Ref) (quotient : Option Ref) (st : Store) : Option Store :=
  match quotient with
  | none => some st
  | some q => do
    let z ← st.get q
    let st := st.set q (mpnorm z)
    let a ← st.get dividend
    let b ← st.get divisor
    if a.sign ≠ b.sign then setSign q (-1) st else return st

/-- What `mpdiv` does to the remainder at the end: `u` is the remainder shifted. -/
def endRemainder (dividend : Ref) (remainder : Option Ref) (u : Mpint) (s : Nat) (st : Store) :
    Option Store :=
  match remainder with
  | none => some st
  | some r => do
    let z ← st.get r
    let z ← right u s (some z)
    let st := st.set r z
    let a ← st.get dividend
    setSign r a.sign st

/-- Copies `x` to a result, if that is asked for. -/
def assignTo (x : Mpint) (r : Option Ref) (st : Store) : Option Store :=
  match r with
  | none => some st
  | some r => assign x r st

/-- The quick way out, for a dividend that is less than the divisor. -/
def quickDiv (a : Mpint) (quotient remainder : Option Ref) (st : Store) : Option Store := do
  let st ← assignTo a remainder st
  assignTo mpzero quotient st

/-- D1: the working copies of the dividend and the divisor, shifted by `s` bits. -/
def workingCopies (a b : Mpint) (s : Nat) (inPlace : Prop) [Decidable inPlace] :
    Option (Mpint × Option Mpint) :=
  let u := mpnew (Dbits * (a.top + 2) + s)
  if inPlace then some (mpassign a u, none)
  else do
    let u ← left a s (some u)
    let v ← left b s (some (mpnew (Dbits * b.top)))
    return (u, some v)

/-- D1a: makes sure the high digit of the dividend is less than the high digit of the divisor. -/
def extend (u : Mpint) (vp : mpdigit) : Option (List mpdigit × Nat) := do
  let up ← u.p[u.top - 1]?
  if up ≥ vp then (store u.p u.top 0).map (·, u.top + 1) else return (u.p, u.top)

/-- `mpdiv` for a dividend `a` that is not less than the divisor `b`. -/
def longDiv (dividend divisor : Ref) (quotient remainder : Option Ref) (a b : Mpint) (st : Store) :
    Option Store := do
  let qd ← b.p[b.top - 1]?
  let s ← normShift 33 qd 0
  let (u, v) ← workingCopies a b s (s = 0 ∧ quotient ≠ some divisor ∧ remainder ≠ some divisor)
  let w ← workingDivisor divisor v st
  let vp ← w.p[w.top - 1]?
  let (p, top) ← extend u vp
  let st ← startQuotient quotient (top - w.top) st
  let (p, st) ← divLoop divisor v quotient w.top (top - w.top) p st
  let st ← endQuotient dividend divisor quotient st
  let u ← mpint u.sign w.top p
  endRemainder dividend remainder u s st

/-- The quotient and the remainder. -/
def mpdiv (dividend divisor : Ref) (quotient remainder : Option Ref) (st : Store) :
    Option Store := do
  let a ← st.get dividend
  let b ← st.get divisor
  -- divide by zero
  if b.top = 0 then none
  -- quick check
  else if mpmagcmp a b < 0 then quickDiv a quotient remainder st
  else longDiv dividend divisor quotient remainder a b st

/-! ## The shift -/

theorem and_mpdighi (qd : mpdigit) : qd &&& mpdighi = 0 ↔ qd.toNat < 2 ^ 31 := by
  have h := toNat_lt qd
  have hand : (qd &&& mpdighi).toNat = (qd.toNat.testBit 31).toNat * 2 ^ 31 := by
    rw [UInt32.toNat_and]
    exact Nat.and_two_pow qd.toNat 31
  rw [← UInt32.toNat_inj, hand, Nat.testBit_eq_decide_div_mod_eq, R_eq] at *
  rw [UInt32.toNat_zero]
  by_cases hbit : qd.toNat / 2 ^ 31 % 2 = 1 <;> simp only [hbit] <;> simp <;> omega

theorem normShift_spec {fuel : Nat} {qd : mpdigit} {s : Nat} (h : 2 ^ 32 ≤ qd.toNat * 2 ^ fuel) :
    ∃ s', normShift fuel qd s = some (s + s') ∧ s' < fuel ∧ 2 ^ 31 ≤ qd.toNat * 2 ^ s' ∧
      qd.toNat * 2 ^ s' < 2 ^ 32 := by
  have hlt := toNat_lt qd
  rw [R] at hlt
  induction fuel generalizing qd s with
  | zero => omega
  | succ fuel ih =>
    rw [normShift]
    split_ifs with hbit
    · rw [and_mpdighi] at hbit
      have hdouble : (qd <<< 1).toNat = qd.toNat * 2 := by
        rw [show (1 : UInt32) = UInt32.ofNat 1 from rfl, toNat_shiftLeft qd (by decide), R]
        exact Nat.mod_eq_of_lt (by omega)
      obtain ⟨s', hs, hs', hlo, hhi⟩ := @ih (qd <<< 1) (s + 1)
        (by rw [hdouble, mul_assoc, ← pow_succ']; exact h) (by omega)
      rw [hdouble, mul_assoc, ← pow_succ'] at hlo hhi
      exact ⟨s' + 1, by rw [hs]; congr 1; omega, by omega, hlo, hhi⟩
    · rw [and_mpdighi] at hbit
      exact ⟨0, rfl, by omega, by omega, by omega⟩

/-- **The shift that normalizes a digit ends**, unless the digit is 0. -/
theorem normShift_of_ne_zero {qd : mpdigit} (h : qd ≠ 0) :
    ∃ s, normShift 33 qd 0 = some s ∧ s < 32 ∧ 2 ^ 31 ≤ qd.toNat * 2 ^ s ∧
      qd.toNat * 2 ^ s < 2 ^ 32 := by
  have hpos : 0 < qd.toNat := Nat.pos_of_ne_zero fun h0 => h (UInt32.toNat_inj.mp h0)
  have hfuel : 2 ^ 32 ≤ qd.toNat * 2 ^ 33 :=
    le_trans (by decide) (Nat.le_mul_of_pos_left (2 ^ 33) hpos)
  obtain ⟨s, hs, -, hlo, hhi⟩ := @normShift_spec 33 qd 0 hfuel
  rw [zero_add] at hs
  refine ⟨s, hs, ?_, hlo, hhi⟩
  exact (Nat.pow_lt_pow_iff_right (by decide : 1 < 2)).mp
    ((Nat.le_mul_of_pos_left (2 ^ s) hpos).trans_lt hhi)

/-! ## The trial digit -/

theorem mpveccmp_pos (a b : List mpdigit) : 0 < mpveccmp a b ↔ val b < val a := by
  rw [mpveccmp_eq]
  split_ifs <;> simp <;> omega

/-- The loop ends with the greatest digit up to `qd` whose product is not more than `u3`. -/
theorem trialLoop_spec {v2 : List mpdigit} (u3 : List mpdigit) (hv : v2.length = 2)
    {fuel : Nat} {qd : mpdigit}
    (hfuel : qd.toNat < fuel) :
    ∃ t, trialLoop v2 u3 fuel qd = some t ∧ t.toNat ≤ qd.toNat ∧ t.toNat * val v2 ≤ val u3 ∧
      (t = qd ∨ val u3 < (t.toNat + 1) * val v2) := by
  induction fuel generalizing qd with
  | zero => omega
  | succ fuel ih =>
    obtain ⟨t, ht, -, htval⟩ := mpvecdigmuladd_spec (b := v2) (p := [0, 0]) (z := 0) (m := qd)
      hv.symm
    have htval' : val t = qd.toNat * val v2 := by
      rw [htval, mul_comm]
      simp
    have ht' : mpvecdigmuladd v2 qd [0, 0, 0] = some t := ht
    simp only [trialLoop, ht', some_bind, gt_iff_lt, mpveccmp_pos, htval']
    split_ifs with hgt
    · -- the product is not 0, so the digit can be lowered
      have hpos : 0 < qd.toNat := by
        rcases Nat.eq_zero_or_pos qd.toNat with h0 | h0
        · rw [h0, zero_mul] at hgt
          omega
        · exact h0
      have hsub := toNat_sub_one hpos
      obtain ⟨t', ht', hle, hmul, hmax⟩ := @ih (qd - 1) (by omega)
      refine ⟨t', ht', by omega, hmul, .inr ?_⟩
      rcases hmax with rfl | hmax
      · rwa [hsub]
      · exact hmax
    · exact ⟨qd, rfl, le_refl _, Nat.le_of_not_lt hgt, .inl rfl⟩

variable {k m : Nat}

theorem val_slice_add (arr : List mpdigit) (n : Nat) (h : k + m ≤ arr.length) :
    val (slice arr k (m + n)) = val (slice arr k m) + R ^ m * val (slice arr (k + m) n) := by
  rw [slice_add, val_append, length_slice h]

variable {arr ds : List mpdigit} {n : Nat}

theorem val_slice_lt (k m : Nat) : val (slice arr k m) < R ^ m := by
  refine (val_lt _).trans_le (Nat.pow_le_pow_right R_pos ?_)
  rw [slice]
  exact List.length_take_le _ _

/-- One digit read. -/
theorem val_slice_one {x : mpdigit} (h : arr[k]? = some x) : slice arr k 1 = [x] := by
  have : slice arr k [x].length = [x] := by
    rw [slice_eq_iff]
    intro i hi
    obtain rfl : i = 0 := by simpa using hi
    simpa using h
  exact this

/-- The high digits of a window, and the rest. -/
theorem val_slice_high (h : k + m ≤ arr.length) :
    ∃ rest, rest < R ^ m ∧
      val (slice arr k (m + n)) = val (slice arr (k + m) n) * R ^ m + rest := by
  refine ⟨val (slice arr k m), val_slice_lt k m, ?_⟩
  rw [val_slice_add arr n h]
  ring

section Trial

variable {v u : List mpdigit}

section

variable (hn : v.length = n + 1) (hv : R ^ n ≤ val v) (hlen : k + (n + 1) < u.length)
include hn hv hlen

/-- The quotient of the high digits is not less than the digit of the quotient; for a divisor of
one digit it is the digit. -/
theorem mpdigdiv_trial {lo hi vp : mpdigit} (hlo : u[k + n]? = some lo)
    (hhi : u[k + (n + 1)]? = some hi) (hvp : v[n]? = some vp)
    (hlt : val (slice u k (n + 2)) < val v * R) :
    val (slice u k (n + 2)) / val v ≤ (mpdigdiv lo hi vp).toNat ∧
      (n = 0 → (mpdigdiv lo hi vp).toNat = val (slice u k (n + 2)) / val v) := by
  have hu2 : val (slice u (k + n) 2) = lo.toNat + R * hi.toNat := by
    rw [val_slice_add u 1 (by omega : k + n + 1 ≤ _), val_slice_one hlo,
      val_slice_one (by rwa [add_assoc]), val_singleton, val_singleton, pow_one]
  obtain ⟨u0, hu0, hu⟩ := val_slice_high (n := 2) (by omega : k + n ≤ u.length)
  obtain ⟨v0, hv0, hv'⟩ := val_slice_high (n := 1) (by omega : 0 + n ≤ v.length)
  have hvall : slice v 0 (n + 1) = v := by
    rw [slice, ← hn]
    simp
  rw [hvall, zero_add, val_slice_one hvp, val_singleton] at hv'
  have hq := Positional.quotient_mul_le hu hu0 (by omega : vp.toNat * R ^ n ≤ val v)
    (Nat.div_mul_le_self _ _)
  have hqR : val (slice u k (n + 2)) / val v < R := Nat.div_lt_of_lt_mul hlt
  rw [hu2] at hq hu
  by_cases hhv : hi < vp
  · have hvp0 : 0 < vp.toNat := by
      rw [UInt32.lt_iff_toNat_lt] at hhv
      omega
    rw [mpdigdiv_eq hhv]
    refine ⟨(Nat.le_div_iff_mul_le hvp0).mpr hq, fun h0 => ?_⟩
    subst h0
    rw [pow_zero] at hu hv' hu0 hv0
    rw [mul_one] at hu hv'
    rw [hu, hv', show u0 = 0 by omega, show v0 = 0 by omega, add_zero, add_zero]
  · rw [mpdigdiv_of_ge hhv]
    refine ⟨by omega, fun h0 => ?_⟩
    -- the high digit is less than that of the divisor, if that is all of it
    subst h0
    rw [UInt32.lt_iff_toNat_lt] at hhv
    rw [pow_zero] at hu hv' hu0 hv0
    rw [mul_one] at hu hv'
    rw [hu, hv', R_eq] at hlt
    omega

/-- **The trial digit is at most one too large.** `v` is a divisor without a high digit 0, and the
digits of `u` at `k` are less than `v` times the radix. -/
theorem trialDigit_spec (hlt : val (slice u k (n + 2)) < val v * R) :
    ∃ qd, trialDigit v u k = some qd ∧
      val (slice u k (n + 2)) / val v ≤ qd.toNat ∧
      qd.toNat ≤ val (slice u k (n + 2)) / val v + 1 := by
  have hhi : u[k + (n + 1)]? = some (u.get ⟨k + (n + 1), hlen⟩) := List.getElem?_eq_getElem hlen
  have hlo : u[k + n]? = some (u.get ⟨k + n, by omega⟩) := List.getElem?_eq_getElem (by omega)
  have hvp : v[n]? = some (v.get ⟨n, by omega⟩) := List.getElem?_eq_getElem (by omega)
  obtain ⟨hge, hexact⟩ := mpdigdiv_trial hn hv hlen hlo hhi hvp hlt
  have hup : k + (n + 1) - 1 = k + n := by omega
  simp only [trialDigit, bind_eq_bind, hn, Nat.add_sub_cancel, hup, hhi, hlo, hvp, bind_some]
  generalize mpdigdiv _ _ _ = qd at *
  split_ifs with hn1
  · obtain _ | m := n
    · omega
    rw [show m + 1 + 1 - 2 = m by omega, show k + (m + 1 + 1) - 2 = k + m by omega,
      digits_eq (by omega), bind_some, digits_eq (by omega), bind_some]
    obtain ⟨t, ht, hle, hmul, hmax⟩ := trialLoop_spec (slice u (k + m) 3)
      (length_slice (by omega : m + 2 ≤ v.length)) (Nat.lt_succ_self qd.toNat)
    obtain ⟨u0, hu0, hu⟩ := val_slice_high (n := 3) (by omega : k + m ≤ u.length)
    obtain ⟨v0, hv0, hv'⟩ := val_slice_high (n := 2) (by omega : 0 + m ≤ v.length)
    have hvall : slice v 0 (m + 2) = v := by
      rw [slice, show m + 2 = v.length from hn.symm]
      simp
    rw [hvall, zero_add] at hv'
    rw [show m + 3 = m + 1 + 2 from rfl] at hu
    refine ⟨t, ht, ?_, ?_⟩
    · have hq := Positional.quotient_mul_le hu hu0
        (by omega : val (slice v m 2) * R ^ m ≤ val v) (Nat.div_mul_le_self _ _)
      rcases hmax with rfl | hmax
      · exact hge
      · exact Nat.lt_succ_iff.mp (Nat.lt_of_mul_lt_mul_right (hq.trans_lt hmax))
    · exact Positional.trial_le (by omega) hv' hv0 hmul (toNat_lt t).le
        (by rwa [← pow_succ'])
  · have h0 : n = 0 := by omega
    exact ⟨qd, rfl, hge, by rw [hexact h0]; omega⟩

end

theorem val_take_eq_mod (h : m ≤ ds.length) : val (ds.take m) = val ds % R ^ m := by
  have hlow := val_lt (ds.take m)
  rw [List.length_take_of_le h] at hlow
  rw [val_take_drop ds m, List.length_take_of_le h, Nat.add_mul_mod_self_left,
    Nat.mod_eq_of_lt hlow]

/-- The digits below the window stay, and of it only the low digits matter: the high one is
zeroed. -/
theorem divDigit_window {w : List mpdigit} (hlen : k + w.length ≤ u.length)
    (hw : n + 1 < w.length) :
    (patch (patch u k w) (k + (n + 1)) [0]).take k = u.take k ∧
      slice (patch (patch u k w) (k + (n + 1)) [0]) k (n + 1) = w.take (n + 1) := by
  constructor
  · have : slice (patch (patch u k w) (k + (n + 1)) [0]) 0 k = slice u 0 k := by
      rw [slice_patch_of_disjoint (.inl (by omega)), slice_patch_of_disjoint (.inl (by omega))]
    exact this
  · have : slice (patch u k w) (k + 0) (n + 1) = slice w 0 (n + 1) :=
      slice_patch_inside hlen (by omega)
    rw [slice_patch_of_disjoint (.inl (by omega))]
    exact this

/-- **One round takes a digit of the quotient from the dividend.** The trial digit is the digit or
one more, and then the difference is negative and `v` is added back once. -/
theorem divDigit_spec (hn : v.length = n + 1) (hv : R ^ n ≤ val v)
    (hlen : k + (n + 2) < u.length) (hlt : val (slice u k (n + 2)) < val v * R) :
    ∃ qd u', divDigit v u k = some (qd, u') ∧ qd.toNat = val (slice u k (n + 2)) / val v ∧
      u'.length = u.length ∧ u'.take k = u.take k ∧
      val (slice u' k (n + 1)) = val (slice u k (n + 2)) % val v := by
  have hvpos : 0 < val v := (Nat.pow_pos R_pos).trans_le hv
  have hvlt : val v < R ^ (n + 1) := hn ▸ val_lt v
  obtain ⟨qd, hqd, hge, hle⟩ := trialDigit_spec hn hv (by omega) hlt
  have hwlen : (slice u k (n + 2)).length = n + 2 := length_slice (by omega)
  obtain ⟨w, sign, hsub, hwlen', hcase⟩ :=
    mpvecdigmulsub_spec (b := v) (p := slice u k (n + 2)) (m := qd) (by omega)
  rw [hn] at hwlen' hcase
  have hmod := Nat.div_add_mod (val (slice u k (n + 2))) (val v)
  have hmodlt := Nat.mod_lt (val (slice u k (n + 2))) hvpos
  simp only [divDigit, bind_eq_bind, hqd, hn, bind_some, digits_eq (by omega :
    k + (n + 2) ≤ u.length), hsub]
  generalize val (slice u k (n + 2)) = W at *
  rcases hcase with ⟨rfl, hw⟩ | ⟨rfl, hw⟩
  · -- the difference is not negative, so the trial digit is the digit
    have hq : qd.toNat = W / val v := by
      refine le_antisymm ((Nat.le_div_iff_mul_le hvpos).mpr ?_) hge
      rw [mul_comm]
      omega
    rw [hq] at hw
    have hwval : val w = W % val v := by omega
    obtain ⟨htake, hslice⟩ := divDigit_window (n := n) (by omega : k + w.length ≤ u.length)
      (by omega)
    simp only [Int.reduceLT, if_false, bind_some]
    rw [store_eq _ (by rw [length_patch]; omega), bind_some]
    refine ⟨qd, _, rfl, hq, by simp only [length_patch], htake, ?_⟩
    rw [hslice, val_take_of_lt (by omega), hwval]
  · -- the trial digit is one too large
    have hwlt := val_lt w
    rw [hwlen'] at hwlt
    have hq : qd.toNat = W / val v + 1 := by
      refine le_antisymm hle ?_
      by_contra hlt'
      have hq : qd.toNat = W / val v := by omega
      rw [hq] at hw
      omega
    rw [hq, mul_add, mul_one] at hw
    obtain ⟨s, hs, hslen, hsval⟩ := mpvecadd_spec (a := w) (b := v) (by omega)
    rw [hwlen'] at hslen
    have hread : slice (patch u k w) k (n + 1 + 1) = w := by
      rw [← hwlen']
      exact slice_patch_self (by omega)
    have hf : mpvecadd ((slice (patch u k w) k (n + 1 + 1 + 1)).take (n + 1 + 1)) v = some s := by
      rw [slice, List.take_take, Nat.min_eq_left (by omega), ← slice, hread, hs]
    have hadd : addAt (patch u k w) k (n + 1 + 1) v = some (patch u k s) := by
      rw [addAt, update_eq (by rw [length_patch]; omega) hf, patch_patch_self _ _ (by omega)]
    -- what is carried out of the sum is dropped
    have hsmod : val s % R ^ (n + 1) = W % val v := by
      have : val s = W % val v + R ^ (n + 1) * R := by
        rw [← pow_succ]
        omega
      rw [this, Nat.add_mul_mod_self_left, Nat.mod_eq_of_lt (by omega)]
    obtain ⟨htake, hslice⟩ := divDigit_window (n := n) (by omega : k + s.length ≤ u.length)
      (by omega)
    simp only [Int.reduceNeg, Int.reduceLT, if_true, hadd, bind_some]
    rw [store_eq _ (by rw [length_patch]; omega), bind_some]
    refine ⟨qd - 1, _, rfl, ?_, by simp only [length_patch], htake, ?_⟩
    · have := toNat_sub_one (hq ▸ Nat.succ_pos _ : 0 < qd.toNat)
      omega
    · rw [hslice, val_take_eq_mod (by omega : n + 1 ≤ s.length), hsmod]

end Trial

/-! ## All rounds -/

/-- `ds` stored among the digits of `z`. -/
def Mpint.put (k : Nat) (ds : List mpdigit) (z : Mpint) : Mpint where
  sign := z.sign
  top := z.top
  p := Memory.patch z.p k ds
  top_le := by rw [Memory.length_patch]; exact z.top_le

theorem Mpint.put_put (k : Nat) (ds : List mpdigit) (x : mpdigit) (z : Mpint) (h : ds.length = k) :
    (z.put k [x]).put 0 ds = z.put 0 (ds ++ [x]) := by
  have := patch_patch_below z.p 0 ds [x]
  rw [zero_add, h] at this
  simp only [put, this]

/-- The quotient, if there is one, has room for `k` digits. -/
def HasRoom (st : Store) (quotient : Option Ref) (k : Nat) : Prop :=
  ∀ q, quotient = some q → ∃ z, st.get q = some z ∧ k ≤ z.p.length

theorem saveDigit_eq {st : Store} {quotient : Option Ref} (qd : mpdigit)
    (h : HasRoom st quotient (k + 1)) :
    saveDigit quotient k qd st = some (st.modify quotient (put k [qd])) := by
  cases quotient with
  | none => rfl
  | some q =>
    obtain ⟨z, hz, hlen⟩ := h q rfl
    simp only [saveDigit, hz, some_bind, store_eq qd hlen]
    rw [mpint_eq (by rw [length_patch]; exact z.top_le), modify_some _ hz]
    rfl

theorem HasRoom.modify {st : Store} {quotient : Option Ref} {j : Nat}
    (h : HasRoom st quotient (k + 1)) : HasRoom (st.modify quotient (put j ds)) quotient k := by
  intro q hq
  obtain ⟨z, hz, hlen⟩ := h q hq
  refine ⟨z.put j ds, ?_, ?_⟩
  · rw [hq, modify_some _ hz, get_set_self hz]
  · rw [put, length_patch]
    omega

/-- **The loop divides.** What is left is less than the divisor, and the digits of the quotient are
saved. The divisor is not changed by what happens to the quotient. -/
theorem divLoop_spec {divisor : Ref} {vopt : Option Mpint} {quotient : Option Ref}
    {v u : List mpdigit} {st : Store} (hn : v.length = n + 1) (hv : R ^ n ≤ val v)
    (hdiv : ∀ f, ∃ w, workingDivisor divisor vopt (st.modify quotient f) = some w ∧
      digits w.p 0 (n + 1) = some v) (hroom : HasRoom st quotient k) (hlen : k + (n + 1) < u.length)
    (hlt : val (u.take (k + (n + 1))) < val v * R ^ k) :
    ∃ u' qs, divLoop divisor vopt quotient (n + 1) k u st =
        some (u', st.modify quotient (put 0 qs)) ∧
      qs.length = k ∧ u'.length = u.length ∧
      val (u.take (k + (n + 1))) = val qs * val v + val (u'.take (n + 1)) ∧
      val (u'.take (n + 1)) < val v := by
  induction k generalizing u st with
  | zero =>
    rw [zero_add, pow_zero, mul_one] at *
    refine ⟨u, [], ?_, rfl, rfl, by simp, hlt⟩
    rw [modify_id _ _ fun z => by simp [put]]
    rfl
  | succ k ih =>
    -- the window and the digits below it
    have hsplit : val (u.take (k + 1 + (n + 1))) =
        val (u.take k) + R ^ k * val (slice u k (n + 2)) := by
      have := val_slice_add u (k := 0) (m := k) (n + 2) (by omega)
      rw [zero_add, show k + (n + 2) = k + 1 + (n + 1) by omega] at this
      exact this
    have hwin : val (slice u k (n + 2)) < val v * R := by
      refine Nat.lt_of_mul_lt_mul_left (a := R ^ k) ?_
      calc R ^ k * val (slice u k (n + 2)) ≤ val (u.take (k + 1 + (n + 1))) := by omega
        _ < val v * R ^ (k + 1) := hlt
        _ = R ^ k * (val v * R) := by ring
    obtain ⟨qd, u1, hround, hqd, hlen1, htake1, hwin1⟩ :=
      divDigit_spec hn hv (by omega : k + (n + 2) < u.length) hwin
    have hsplit1 : val (u1.take (k + (n + 1))) =
        val (u.take k) + R ^ k * (val (slice u k (n + 2)) % val v) := by
      have := val_slice_add u1 (k := 0) (m := k) (n + 1) (by omega)
      rw [zero_add, hwin1] at this
      rw [← htake1]
      exact this
    have hlt1 : val (u1.take (k + (n + 1))) < val v * R ^ k := by
      have hlow := val_lt (u.take k)
      rw [List.length_take_of_le (by omega)] at hlow
      have hmod := Nat.mod_lt (val (slice u k (n + 2))) ((Nat.pow_pos R_pos).trans_le hv)
      have := Nat.mul_le_mul_left (R ^ k) (Nat.succ_le_of_lt hmod)
      rw [Nat.mul_succ, mul_comm _ (val v)] at this
      omega
    obtain ⟨w, hw, hwd⟩ := hdiv id
    rw [modify_id (f := id) _ _ fun _ => rfl] at hw
    obtain ⟨u', qs, hloop, hqs, hlen', hval, hrem⟩ := @ih u1 (st.modify quotient (put k [qd]))
      (fun f => by rw [modify_modify]; exact hdiv _) hroom.modify (by omega) hlt1
    refine ⟨u', qs ++ [qd], ?_, by simp [hqs], hlen'.trans hlen1, ?_, hrem⟩
    · simp only [divLoop, hw, some_bind, hwd, hround, saveDigit_eq qd hroom, hloop, modify_modify]
      congr 3
      funext z
      exact put_put k qs qd z hqs
    · have hdivmod := Nat.div_add_mod (val (slice u k (n + 2))) (val v)
      rw [hsplit, val_append, val_singleton, hqs, hqd]
      calc val (u.take k) + R ^ k * val (slice u k (n + 2))
          = val (u.take k) + R ^ k * (val v * (val (slice u k (n + 2)) / val v) +
              val (slice u k (n + 2)) % val v) := by rw [hdivmod]
        _ = R ^ k * (val (slice u k (n + 2)) / val v) * val v +
              (val (u.take k) + R ^ k * (val (slice u k (n + 2)) % val v)) := by ring
        _ = _ := by rw [← hsplit1, hval]; ring

/-! ## The working copies -/

theorem Mpint.getElem?_top {b : Mpint} (h : b.top ≠ 0) :
    ∃ d, b.p[b.top - 1]? = some d ∧ d.toNat * R ^ (b.top - 1) ≤ b.mag ∧
      b.mag < (d.toNat + 1) * R ^ (b.top - 1) ∧ (b.Trimmed → d ≠ 0) := by
  have htop := b.top_le
  obtain ⟨n, hn⟩ : ∃ n, b.top = n + 1 := ⟨b.top - 1, by omega⟩
  have hget : b.p[n]? = some (b.p.get ⟨n, by omega⟩) := List.getElem?_eq_getElem (by omega)
  generalize b.p.get ⟨n, _⟩ = d at hget
  have hdigits : b.digits = b.p.take n ++ [d] := by
    rw [digits, hn, List.take_add_one, hget]
    rfl
  have hmag : b.mag = val (b.p.take n) + R ^ n * d.toNat := by
    rw [mag, hdigits, val_append, val_singleton, List.length_take_of_le (by omega)]
  have hlow := val_lt (b.p.take n)
  rw [List.length_take_of_le (by omega)] at hlow
  have hcomm := mul_comm d.toNat (R ^ n)
  simp only [hn, Nat.add_sub_cancel]
  refine ⟨d, hget, by omega, ?_, ?_⟩
  · rw [add_mul, one_mul]
    omega
  · intro ht h0
    apply ht
    rw [hdigits, h0]
    simp

/-- The number of digits of a number without a high digit 0. -/
theorem Mpint.Trimmed.top_le_of_lt {b : Mpint} (h : b.Trimmed) (hlt : b.mag < R ^ n) :
    b.top ≤ n := by
  by_contra hgt
  have := h.pow_le (by omega)
  have := Nat.pow_le_pow_right R_pos (by omega : n ≤ b.top - 1)
  omega

/-- What D1 makes of the dividend `a` and the divisor `b`, shifted by `s`: the copy `u` of the one,
with room for two more digits, and the other, `w`. -/
structure Working (a b : Mpint) (s : Nat) (u w : Mpint) : Prop where
  u_sign : u.sign = a.sign
  u_trimmed : u.Trimmed
  u_mag : u.mag = a.mag * 2 ^ s
  u_room : a.top + 2 ≤ u.p.length
  w_trimmed : w.Trimmed
  w_mag : w.mag = b.mag * 2 ^ s

theorem le_length_mpnew (n s : Nat) : n ≤ (mpnew (Dbits * n + s)).p.length := by
  have : n ≤ (DIGITS ((Dbits * n + s : Nat) : Int)).toNat := by
    rw [DIGITS_eq (by omega), Dbits]
    omega
  rw [mpnew, List.length_replicate]
  omega

theorem workingCopies_spec {a b : Mpint} (ha : a.Trimmed) (hb : b.Trimmed) (s : Nat)
    (inPlace : Prop) [Decidable inPlace] (hs : inPlace → s = 0) :
    ∃ u v, workingCopies a b s inPlace = some (u, v) ∧ Working a b s u (v.getD b) ∧
      (v = none ↔ inPlace) := by
  unfold workingCopies
  split_ifs with h
  · have hsame := mpassign_same a (mpnew (Dbits * (a.top + 2) + s))
    refine ⟨_, none, rfl, ⟨rfl, hsame.trimmed.mpr ha, ?_, ?_, hb, ?_⟩, by simp [h]⟩
    · rw [hsame.mag, hs h, pow_zero, mul_one]
    · have := le_length_mpnew (a.top + 2) s
      rw [mpassign, length_patch, length_mpbits]
      omega
    · rw [hs h, pow_zero, mul_one]
      rfl
  · obtain ⟨u, hu, husign, hutrim, humag, hulen⟩ :=
      left_spec a s (some (mpnew (Dbits * (a.top + 2) + s)))
    obtain ⟨v, hv, -, hvtrim, hvmag, -⟩ := left_spec b s (some (mpnew (Dbits * b.top)))
    refine ⟨u, some v, ?_, ⟨husign, hutrim, humag, ?_, hvtrim, hvmag⟩, by simp [h]⟩
    · simp only [hu, hv, some_bind]
      rfl
    · exact (le_length_mpnew (a.top + 2) s).trans hulen

/-- The shift sets the high bit of the divisor. -/
theorem Working.high {a b u w : Mpint} {s : Nat} {qd : mpdigit} (h : Working a b s u w)
    (htop : b.top ≠ 0) (hqd : b.p[b.top - 1]? = some qd) (hs : s < 32)
    (hlo : 2 ^ 31 ≤ qd.toNat * 2 ^ s) (hhi : qd.toNat * 2 ^ s < 2 ^ 32) :
    w.top ≠ 0 ∧ ∀ vp, w.p[w.top - 1]? = some vp → 2 ^ 31 ≤ vp.toNat := by
  obtain ⟨d, hd, hdlo, hdhi, -⟩ := getElem?_top htop
  obtain rfl : d = qd := Option.some.inj (hd.symm.trans hqd)
  -- the magnitude of the shifted divisor
  have hwlo : 2 ^ 31 * R ^ (b.top - 1) ≤ w.mag :=
    calc 2 ^ 31 * R ^ (b.top - 1) ≤ d.toNat * 2 ^ s * R ^ (b.top - 1) := Nat.mul_le_mul_right _ hlo
      _ = d.toNat * R ^ (b.top - 1) * 2 ^ s := by ring
      _ ≤ w.mag := by rw [h.w_mag]; exact Nat.mul_le_mul_right _ hdlo
  have hdlt : d.toNat + 1 ≤ 2 ^ (32 - s) := by
    refine Nat.succ_le_of_lt (Nat.lt_of_mul_lt_mul_right (a := 2 ^ s) ?_)
    rwa [← pow_add, Nat.sub_add_cancel hs.le]
  have hwhi : w.mag < R * R ^ (b.top - 1) :=
    calc w.mag < (d.toNat + 1) * R ^ (b.top - 1) * 2 ^ s := by
          rw [h.w_mag]
          exact Nat.mul_lt_mul_of_pos_right hdhi (Nat.two_pow_pos s)
      _ ≤ 2 ^ (32 - s) * R ^ (b.top - 1) * 2 ^ s :=
          Nat.mul_le_mul_right _ (Nat.mul_le_mul_right _ hdlt)
      _ = 2 ^ (32 - s) * 2 ^ s * R ^ (b.top - 1) := by ring
      _ = R * R ^ (b.top - 1) := by rw [← pow_add, Nat.sub_add_cancel hs.le]; rfl
  have hle : w.top ≤ b.top := by
    refine h.w_trimmed.top_le_of_lt (hwhi.trans_le (le_of_eq ?_))
    rw [← pow_succ', Nat.sub_add_cancel (Nat.pos_of_ne_zero htop)]
  have hge : b.top - 1 < w.top := by
    refine (Nat.pow_lt_pow_iff_right (by decide : 1 < R)).mp (lt_of_le_of_lt ?_ w.mag_lt)
    exact le_trans (Nat.le_mul_of_pos_left _ (by decide)) hwlo
  refine ⟨by omega, fun vp hvp => ?_⟩
  obtain ⟨d', hd', -, hdhi', -⟩ := getElem?_top (b := w) (by omega)
  obtain rfl : d' = vp := Option.some.inj (hd'.symm.trans hvp)
  rw [show w.top - 1 = b.top - 1 by omega] at hdhi'
  exact Nat.lt_succ_iff.mp (Nat.lt_of_mul_lt_mul_right (hwlo.trans_lt hdhi'))

/-- D1a makes the digits of the dividend above those of the divisor less than it. -/
theorem extend_spec {a b u w : Mpint} {s : Nat} {vp : mpdigit} (h : Working a b s u w)
    (hmag : b.mag ≤ a.mag) (hs : s < 32) (hwtop : w.top ≠ 0) (hvp : w.p[w.top - 1]? = some vp)
    (hhigh : 2 ^ 31 ≤ vp.toNat) :
    ∃ p top, extend u vp = some (p, top) ∧ w.top ≤ top ∧ top < p.length ∧
      val (p.take top) = u.mag ∧ val (p.take top) < w.mag * R ^ (top - w.top) := by
  have hwu : w.mag ≤ u.mag := by
    rw [h.w_mag, h.u_mag]
    exact Nat.mul_le_mul_right _ hmag
  have hle : w.top ≤ u.top := by
    by_contra hlt
    have := h.w_trimmed.mag_lt_mag (Nat.lt_of_not_le hlt)
    omega
  have hult : u.mag < 2 ^ s * R ^ a.top := by
    rw [h.u_mag, mul_comm]
    exact Nat.mul_lt_mul_of_pos_left a.mag_lt (Nat.two_pow_pos s)
  have hutop : u.top ≤ a.top + 1 := by
    refine h.u_trimmed.top_le_of_lt (hult.trans_le ?_)
    rw [pow_succ', R]
    exact Nat.mul_le_mul_right _ (Nat.pow_le_pow_right (by decide) hs.le)
  have hroom := h.u_room
  obtain ⟨up, hup, huplo, huphi, -⟩ := getElem?_top (b := u) (by omega)
  obtain ⟨d, hd, hvlo, -, -⟩ := getElem?_top hwtop
  obtain rfl : d = vp := Option.some.inj (hd.symm.trans hvp)
  simp only [extend, hup, some_bind, ge_iff_le]
  split_ifs with hge
  · rw [UInt32.le_iff_toNat_le] at hge
    -- a digit shifted out of the dividend is less than the high digit of the divisor
    have hut : u.top ≤ a.top := by
      by_contra hgt
      rw [show u.top - 1 = a.top by omega] at huplo
      have hlt := Nat.lt_of_mul_lt_mul_right (huplo.trans_lt hult)
      have := Nat.pow_le_pow_right (by decide : 0 < 2) (by omega : s ≤ 31)
      omega
    rw [store_eq _ (by omega)]
    have htake : val ((patch u.p u.top [0]).take (u.top + 1)) = u.mag := by
      have hslice := val_slice_add (patch u.p u.top [0]) (k := 0) (m := u.top) 1
        (by rw [length_patch]; omega)
      have hzero : slice (patch u.p u.top [0]) (0 + u.top) [0].length = [0] := by
        rw [zero_add]
        exact slice_patch_self (by simp; omega)
      have hlow : slice (patch u.p u.top [0]) 0 u.top = u.digits :=
        slice_patch_of_disjoint (.inl (by omega))
      rw [List.length_singleton] at hzero
      rw [hzero, hlow, val_singleton, UInt32.toNat_zero, mul_zero, add_zero] at hslice
      exact hslice
    refine ⟨_, _, rfl, by omega, by rw [length_patch]; omega, htake, ?_⟩
    rw [htake]
    calc u.mag < R ^ u.top := u.mag_lt
      _ = R ^ (w.top - 1) * R ^ (u.top + 1 - w.top) := by
        rw [← pow_add]
        congr 1
        omega
      _ ≤ w.mag * R ^ (u.top + 1 - w.top) := Nat.mul_le_mul_right _ (h.w_trimmed.pow_le hwtop)
  · refine ⟨_, _, rfl, hle, by omega, rfl, ?_⟩
    change u.mag < _
    rw [UInt32.le_iff_toNat_le] at hge
    calc u.mag < (up.toNat + 1) * R ^ (u.top - 1) := huphi
      _ ≤ d.toNat * R ^ (u.top - 1) := Nat.mul_le_mul_right _ (by omega)
      _ = d.toNat * R ^ (w.top - 1) * R ^ (u.top - w.top) := by
        rw [mul_assoc, ← pow_add]
        congr 2
        omega
      _ ≤ w.mag * R ^ (u.top - w.top) := Nat.mul_le_mul_right _ hvlo

/-! ## What becomes of the quotient and the remainder -/

/-- The reference, if there is one, refers to an object. -/
def Live (st : Store) (r : Option Ref) : Prop := ∀ q, r = some q → ∃ z, st.get q = some z

/-- The quotient before the loop. -/
def Mpint.start (n : Nat) (z : Mpint) : Mpint where
  sign := z.sign
  top := n
  p := (mpbits z (Dbits * n)).p
  top_le := by
    rw [length_mpbits, DIGITS_mul]
    exact Nat.le_max_right _ _

theorem startQuotient_eq {st : Store} {quotient : Option Ref} (n : Nat) (h : Live st quotient) :
    startQuotient quotient n st = some (st.modify quotient (start n)) := by
  cases quotient with
  | none => rfl
  | some q =>
    obtain ⟨z, hz⟩ := h q rfl
    have hstart : mpint z.sign n (mpbits z (Dbits * n)).p = some (z.start n) :=
      mpint_eq (z.start n).top_le
    simp only [startQuotient, hz, some_bind, sign_mpbits, hstart]
    rw [modify_some _ hz]
    rfl

theorem hasRoom_start {st : Store} {quotient : Option Ref} (n : Nat) (h : Live st quotient) :
    HasRoom (st.modify quotient (start n)) quotient n := by
  intro q hq
  obtain ⟨z, hz⟩ := h q hq
  exact ⟨z.start n, by rw [hq, modify_some _ hz, get_set_self hz], (z.start n).top_le⟩

variable {qs : List mpdigit}

/-- The quotient after the loop, before it gets its sign. -/
theorem mag_put_start (hqs : qs.length = n) (z : Mpint) : ((z.start n).put 0 qs).mag = val qs := by
  rw [Mpint.mag, Mpint.digits, Mpint.put]
  simp only
  exact congrArg val (take_patch_digits hqs (z.start n).top_le)

/-- The quotient in the end, where `neg` says whether the signs differ. -/
def Mpint.finish (qs : List mpdigit) (neg : Bool) (z : Mpint) : Mpint :=
  let q := mpnorm ((z.start qs.length).put 0 qs)
  if neg then q.withSign (-1) else q

theorem finish_spec (h : val qs ≠ 0) (neg : Bool) (z : Mpint) :
    (z.finish qs neg).Normal ∧ (z.finish qs neg).mag = val qs ∧
      (z.finish qs neg).sign = if neg then -1 else z.sign := by
  have hmag := mag_put_start (rfl : qs.length = _) z
  have hnormal := mpnorm_normal ((z.start qs.length).put 0 qs)
  have hmag' := (mag_mpnorm ((z.start qs.length).put 0 qs)).trans hmag
  have htop : (mpnorm ((z.start qs.length).put 0 qs)).top ≠ 0 := fun h0 =>
    h (hmag' ▸ mag_of_top_eq_zero h0)
  have hsign : (mpnorm ((z.start qs.length).put 0 qs)).sign = z.sign :=
    sign_mpnorm (by rw [hmag]; exact h)
  cases neg with
  | false => exact ⟨hnormal, hmag', hsign⟩
  | true => exact ⟨hnormal.withSign fun h0 => absurd h0 htop, hmag', rfl⟩

/-- An object read after `q` was changed, which may be that object, has its old sign if `q` has. -/
theorem get_set_sign {st : Store} {q d : Ref} {a y z : Mpint} (hz : st.get q = some z)
    (ha : st.get d = some a) (hsign : y.sign = z.sign) :
    ∃ a', (st.set q y).get d = some a' ∧ a'.sign = a.sign := by
  by_cases hd : d = q
  · subst hd
    obtain rfl : z = a := Option.some.inj (hz.symm.trans ha)
    exact ⟨y, get_set_self hz, hsign⟩
  · exact ⟨a, (get_set_of_ne st y hd).trans ha, rfl⟩

theorem endQuotient_eq {st : Store} {dividend divisor : Ref} {quotient : Option Ref} {a b : Mpint}
    (ha : st.get dividend = some a) (hb : st.get divisor = some b) (hlive : Live st quotient)
    (hqs : val qs ≠ 0) :
    endQuotient dividend divisor quotient
        (st.modify quotient (put 0 qs ∘ start qs.length)) =
      some (st.modify quotient (finish qs (a.sign ≠ b.sign))) := by
  cases quotient with
  | none => rfl
  | some q =>
    obtain ⟨z, hz⟩ := hlive q rfl
    have hsign : (mpnorm ((z.start qs.length).put 0 qs)).sign = z.sign :=
      sign_mpnorm (by rw [mag_put_start rfl]; exact hqs)
    obtain ⟨a', ha', hsa⟩ := get_set_sign hz ha hsign
    obtain ⟨b', hb', hsb⟩ := get_set_sign hz hb hsign
    rw [modify_some _ hz, modify_some _ hz]
    simp only [endQuotient, get_set_self hz, set_set, some_bind, Function.comp_apply,
      ha', hb', hsa, hsb, finish]
    by_cases hne : a.sign = b.sign
    · simp [hne]
    · simp [hne, setSign_eq (get_set_self hz)]

/-- The remainder in the end; its sign is that of the dividend, as it then is. -/
theorem endRemainder_eq {st : Store} {dividend : Ref} {remainder : Option Ref} {a : Mpint}
    (u : Mpint) (s : Nat) (ha : st.get dividend = some a) (hlive : Live st remainder) :
    ∃ f, endRemainder dividend remainder u s st = some (st.modify remainder f) ∧
      ∀ z, (f z).Trimmed ∧ (f z).mag = u.mag / 2 ^ s ∧
        (f z).sign = if remainder = some dividend then
          (if s / Dbits < u.top ∧ (f z).top = 0 then 1 else u.sign) else a.sign := by
  choose g hg htrim hmag hsign _ using fun z : Mpint => right_spec u s (some z)
  refine ⟨fun z => (g z).withSign (if remainder = some dividend then (g z).sign else a.sign),
    ?_, fun z => ⟨htrim z, hmag z, ?_⟩⟩
  · cases remainder with
    | none => rfl
    | some r =>
      obtain ⟨z, hz⟩ := hlive r rfl
      simp only [endRemainder, bind_eq_bind, hz, bind_some, hg, modify_some _ hz, Option.some.injEq]
      by_cases hr : r = dividend
      · subst hr
        rw [get_set_self hz, bind_some, setSign_eq (get_set_self hz), set_set, if_pos rfl]
      · rw [get_set_of_ne _ _ (Ne.symm hr), ha, bind_some,
          setSign_eq (get_set_self hz), set_set, if_neg hr]
  · rw [sign_withSign, top_withSign, hsign]

/-! ## Division -/

section Division

variable {st : Store} {dividend divisor : Ref} {quotient remainder r s : Option Ref} {a b : Mpint}

theorem Live.modify (h : Live st r) (f : Mpint → Mpint) : Live (st.modify s f) r := by
  intro q hq
  obtain ⟨z, hz⟩ := h q hq
  by_cases hs : s = some q
  · exact ⟨f z, by rw [hs, modify_some f hz, get_set_self hz]⟩
  · exact ⟨z, by rw [get_modify_of_ne st f hs, hz]⟩

theorem mpdiv_of_lt (ha : st.get dividend = some a) (hb : st.get divisor = some b)
    (hat : a.Trimmed) (hbt : b.Trimmed) (hlt : a.mag < b.mag) :
    mpdiv dividend divisor quotient remainder st = quickDiv a quotient remainder st := by
  have htop : b.top ≠ 0 := fun h0 => by
    rw [mag_of_top_eq_zero h0] at hlt
    omega
  simp only [mpdiv, ha, hb, some_bind]
  rw [if_neg htop, if_pos ((mpmagcmp_sign hat hbt).1.mpr hlt)]

/-- The working divisor is not changed when the quotient is. -/
theorem workingDivisor_modify {v : Option Mpint} (hb : st.get divisor = some b)
    (hv : v = none → quotient ≠ some divisor) (f : Mpint → Mpint) :
    workingDivisor divisor v (st.modify quotient f) = some (v.getD b) := by
  cases v with
  | some v => rfl
  | none => exact (get_modify_of_ne st f (hv rfl)).trans hb

/-- The sign of the remainder: that of the dividend, which may be an object that has changed. -/
def remainderSign (dividend : Ref) (quotient remainder : Option Ref) (a b : Mpint) : ℤˣ :=
  if remainder = some dividend then (if a.mag % b.mag = 0 then 1 else a.sign)
  else if quotient = some dividend then (if a.sign ≠ b.sign then -1 else a.sign)
  else a.sign

/-- **Long division**, with all that it does to the quotient and to the remainder. -/
theorem mpdiv_of_le (ha : st.get dividend = some a) (hb : st.get divisor = some b)
    (hq : Live st quotient) (hr : Live st remainder) (hat : a.Trimmed) (hbt : b.Trimmed)
    (htop : b.top ≠ 0) (hle : b.mag ≤ a.mag) :
    ∃ qs f, mpdiv dividend divisor quotient remainder st =
        some ((st.modify quotient (finish qs (a.sign ≠ b.sign))).modify remainder f) ∧
      val qs = a.mag / b.mag ∧ val qs ≠ 0 ∧
      ∀ z, (f z).Trimmed ∧ (f z).mag = a.mag % b.mag ∧
        (f z).sign = remainderSign dividend quotient remainder a b := by
  have hbpos : 0 < b.mag := Nat.pos_of_ne_zero (mt hbt.mag_eq_zero.mp htop)
  have hcmp : ¬ mpmagcmp a b < 0 := fun h => by
    have := (mpmagcmp_sign hat hbt).1.mp h
    omega
  -- D1: the shift, and the working copies
  obtain ⟨qd, hqd, -, -, hqd0⟩ := getElem?_top htop
  obtain ⟨s, hs, hs32, hlo, hhi⟩ := normShift_of_ne_zero (hqd0 hbt)
  obtain ⟨u, v, hcopies, hwork, hplace⟩ := workingCopies_spec hat hbt s
    (s = 0 ∧ quotient ≠ some divisor ∧ remainder ≠ some divisor) (fun h => h.1)
  have hdiv := workingDivisor_modify hb fun h => (hplace.mp h).2.1
  obtain ⟨hwtop, hhigh⟩ := hwork.high htop hqd hs32 hlo hhi
  generalize v.getD b = w at *
  obtain ⟨vp, hvp, -, -, -⟩ := getElem?_top hwtop
  -- D1a
  obtain ⟨p, top, hext, htople, hplen, hpval, hplt⟩ :=
    extend_spec hwork hle hs32 hwtop hvp (hhigh vp hvp)
  -- the loop
  obtain ⟨n, hn⟩ : ∃ n, w.top = n + 1 := ⟨w.top - 1, by omega⟩
  have hvlen : w.digits.length = n + 1 := w.length_digits.trans hn
  have hvpow : R ^ n ≤ val w.digits := by
    have := hwork.w_trimmed.pow_le hwtop
    rwa [hn, Nat.add_sub_cancel] at this
  obtain ⟨k, rfl⟩ := Nat.exists_eq_add_of_le htople
  rw [Nat.add_sub_cancel_left] at hplt
  have hdivd : digits w.p 0 (n + 1) = some w.digits := by
    rw [← hn]
    exact digits_eq (by have := w.top_le; omega)
  have hn' : w.top + k = k + (n + 1) := by omega
  rw [hn'] at hplt hpval hplen
  obtain ⟨p', qs, hloop, hqs, hlen', hval, hrem⟩ := divLoop_spec hvlen hvpow
    (fun f => ⟨w, by rw [modify_modify]; exact hdiv _, hdivd⟩) (hasRoom_start k hq) hplen hplt
  rw [modify_modify, ← hn] at hloop
  -- the digits of the quotient, and what is left of the dividend
  have hqval : val qs = a.mag / b.mag ∧ val (p'.take w.top) / 2 ^ s = a.mag % b.mag := by
    rw [hpval, hwork.u_mag] at hval
    change _ = val qs * w.mag + _ at hval
    change _ < w.mag at hrem
    rw [hwork.w_mag, ← hn] at hval hrem
    exact Positional.div_mod_of_mul (Nat.two_pow_pos s) hval hrem
  have hqne : val qs ≠ 0 := by
    rw [hqval.1]
    exact Nat.ne_of_gt (Nat.div_pos hle hbpos)
  have hend := endQuotient_eq ha hb hq hqne
  rw [hqs] at hend
  have hu : mpint u.sign w.top p' = some ⟨u.sign, w.top, p', by omega⟩ := mpint_eq (by omega)
  obtain ⟨a3, ha3, hsign3⟩ : ∃ a3, (st.modify quotient (finish qs (a.sign ≠ b.sign))).get
      dividend = some a3 ∧ a3.sign = if quotient = some dividend then
        (if a.sign ≠ b.sign then -1 else a.sign) else a.sign := by
    by_cases hqd : quotient = some dividend
    · refine ⟨a.finish qs (a.sign ≠ b.sign), ?_, ?_⟩
      · rw [hqd, modify_some _ ha, get_set_self ha]
      · rw [(finish_spec hqne _ a).2.2, if_pos hqd]
        simp
    · exact ⟨a, by rw [get_modify_of_ne _ _ hqd, ha], by rw [if_neg hqd]⟩
  obtain ⟨f, hf, hfspec⟩ := endRemainder_eq ⟨u.sign, w.top, p', by omega⟩ s ha3 (hr.modify _)
  refine ⟨qs, f, ?_, hqval.1, hqne, fun z => ?_⟩
  · have hdiv0 : workingDivisor divisor v st = some w := by
      have := hdiv id
      rwa [modify_id (f := id) _ _ fun _ => rfl] at this
    simp only [mpdiv, ha, hb, some_bind]
    rw [if_neg htop, if_neg hcmp]
    simp only [longDiv, hqd, hs, hcopies, some_bind, hdiv0, hvp, hext, Nat.add_sub_cancel_left,
      startQuotient_eq k hq, hloop, hend, hu, hf]
  · obtain ⟨htrim, hmag, hsign⟩ := hfspec z
    have hmag' : (f z).mag = a.mag % b.mag := hmag.trans hqval.2
    refine ⟨htrim, hmag', ?_⟩
    rw [hsign, remainderSign, hsign3, ← hmag']
    simp only [htrim.mag_eq_zero, hwork.u_sign, Nat.div_eq_of_lt (show s < Dbits from hs32),
      Nat.pos_of_ne_zero hwtop, true_and]

theorem assignTo_eq (x : Mpint) (h : Live st r) :
    assignTo x r st = some (st.modify r (mpassign x)) := by
  cases r with
  | none => rfl
  | some r =>
    obtain ⟨z, hz⟩ := h r rfl
    simp only [assignTo, assign_eq hz, modify_some _ hz]

theorem quickDiv_eq (hq : Live st quotient) (hr : Live st remainder) :
    quickDiv a quotient remainder st =
      some ((st.modify remainder (mpassign a)).modify quotient (mpassign mpzero)) := by
  rw [quickDiv, bind_eq_bind, assignTo_eq a hr, bind_some, assignTo_eq mpzero (hq.modify _)]

/-- A reference that is changed once, and one that is not changed. -/
theorem get_modify_modify {x : Ref} {z : Mpint} {f g : Mpint → Mpint} (hz : st.get x = some z)
    (hne : r = some x → s ≠ some x) :
    (r = some x → ((st.modify r f).modify s g).get x = some (f z)) ∧
      (s = some x → ((st.modify r f).modify s g).get x = some (g z)) := by
  constructor
  · intro hr
    rw [get_modify_of_ne _ _ (hne hr), hr, modify_some _ hz, get_set_self hz]
  · intro hs
    have hr : r ≠ some x := fun hr => hne hr hs
    have hz' : (st.modify r f).get x = some z := (get_modify_of_ne _ _ hr).trans hz
    rw [hs, modify_some _ hz', get_set_self hz']

/-- What is stored, in both ways through `mpdiv`. -/
theorem mpdiv_results (ha : st.get dividend = some a) (hb : st.get divisor = some b)
    (hq : Live st quotient) (hr : Live st remainder)
    (hne : ∀ x, quotient = some x → remainder ≠ some x) (han : a.Normal) (hbn : b.Normal)
    (hb0 : b.value ≠ 0) :
    ∃ st', mpdiv dividend divisor quotient remainder st = some st' ∧
      (∀ x z, quotient = some x → st.get x = some z → ∃ q, st'.get x = some q ∧ q.Normal ∧
        q.mag = a.mag / b.mag ∧
        q.sign = if a.mag < b.mag then 1 else if a.sign ≠ b.sign then -1 else z.sign) ∧
      (∀ x, remainder = some x → ∃ n, st'.get x = some n ∧ n.Trimmed ∧ n.mag = a.mag % b.mag ∧
        n.sign = if a.mag < b.mag then a.sign
          else remainderSign dividend quotient remainder a b) ∧
      ∀ x, quotient ≠ some x → remainder ≠ some x → st'.get x = st.get x := by
  have hbmag : b.mag ≠ 0 := fun h0 => hb0 (by simp [value, h0])
  have hother {r s : Option Ref} {f g : Mpint → Mpint} {x : Ref}
      (h1 : r ≠ some x) (h2 : s ≠ some x) :
      ((st.modify r f).modify s g).get x = st.get x := by
    rw [get_modify_of_ne _ _ h2, get_modify_of_ne _ _ h1]
  rcases lt_or_ge a.mag b.mag with hlt | hle
  · refine ⟨_, (mpdiv_of_lt ha hb han.trimmed hbn.trimmed hlt).trans (quickDiv_eq hq hr),
      fun x z hx hz => ?_, fun x hx => ?_, fun x h1 h2 => hother h2 h1⟩
    · have hsame := mpassign_same mpzero z
      refine ⟨_, (get_modify_modify hz fun h h' => hne x h' h).2 hx,
        hsame.normal.mpr mpzero_normal, ?_, ?_⟩
      · rw [hsame.mag, Nat.div_eq_of_lt hlt]
        rfl
      · rw [hsame.sign, if_pos hlt]
        rfl
    · obtain ⟨z, hz⟩ := hr x hx
      have hsame := mpassign_same a z
      refine ⟨_, (get_modify_modify hz fun h h' => hne x h' h).1 hx,
        hsame.trimmed.mpr han.trimmed, ?_, ?_⟩
      · rw [hsame.mag, Nat.mod_eq_of_lt hlt]
      · rw [hsame.sign, if_pos hlt]
  · obtain ⟨qs, f, hdiv, hqs, hqs0, hf⟩ := mpdiv_of_le ha hb hq hr han.trimmed hbn.trimmed
      (mt mag_of_top_eq_zero hbmag) hle
    have hnlt : ¬ a.mag < b.mag := Nat.not_lt.mpr hle
    refine ⟨_, hdiv, fun x z hx hz => ?_, fun x hx => ?_, fun x h1 h2 => hother h1 h2⟩
    · obtain ⟨hnormal, hmag, hsign⟩ := finish_spec hqs0 (a.sign ≠ b.sign) z
      refine ⟨_, (get_modify_modify hz (hne x)).1 hx, hnormal, hmag.trans hqs, ?_⟩
      rw [hsign, if_neg hnlt]
      simp
    · obtain ⟨z, hz⟩ := hr x hx
      obtain ⟨htrim, hmag, hsign⟩ := hf z
      refine ⟨_, (get_modify_modify hz (hne x)).2 hx, htrim, hmag, ?_⟩
      rw [hsign, if_neg hnlt]

/-- **Division.** The magnitudes of the quotient and the remainder, for each of them that is asked
for and whichever of the operands it is. In each round the trial digit is at most one too large, so
that adding the divisor back once makes up for it. -/
theorem mpdiv_magnitudes (ha : st.get dividend = some a) (hb : st.get divisor = some b)
    (hq : Live st quotient) (hr : Live st remainder)
    (hne : ∀ x, quotient = some x → remainder ≠ some x) (han : a.Normal) (hbn : b.Normal)
    (hb0 : b.value ≠ 0) :
    (∃ st' m n, mpdiv dividend divisor quotient remainder st = some st' ∧
      a.mag = m * b.mag + n ∧ n < b.mag ∧
      (∀ x, quotient = some x → ∃ z, st'.get x = some z ∧ z.mag = m) ∧
      (∀ x, remainder = some x → ∃ z, st'.get x = some z ∧ z.mag = n) ∧
      ∀ x, quotient ≠ some x → remainder ≠ some x → st'.get x = st.get x) ∧
    ∀ (v u : List mpdigit) (k n : Nat), v.length = n + 1 → R ^ n ≤ val v →
      k + (n + 2) < u.length → val (Memory.slice u k (n + 2)) < val v * R →
      ∃ trial qd u', trialDigit v u k = some trial ∧ divDigit v u k = some (qd, u') ∧
        qd.toNat = val (Memory.slice u k (n + 2)) / val v ∧ qd.toNat ≤ trial.toNat ∧
        trial.toNat ≤ qd.toNat + 1 ∧
        val (Memory.slice u' k (n + 1)) = val (Memory.slice u k (n + 2)) % val v := by
  refine ⟨?_, fun v u k n hn hv hlen hlt => ?_⟩
  · obtain ⟨st', hdiv, hquo, hrem, hother⟩ := mpdiv_results ha hb hq hr hne han hbn hb0
    have hbmag : b.mag ≠ 0 := fun h0 => hb0 (by simp [value, h0])
    refine ⟨st', a.mag / b.mag, a.mag % b.mag, hdiv, by rw [mul_comm, Nat.div_add_mod],
      Nat.mod_lt _ (Nat.pos_of_ne_zero hbmag), fun x hx => ?_, fun x hx => ?_, hother⟩
    · obtain ⟨z, hz⟩ := hq x hx
      obtain ⟨q, hget, -, hmag, -⟩ := hquo x z hx hz
      exact ⟨q, hget, hmag⟩
    · obtain ⟨n, hget, -, hmag, -⟩ := hrem x hx
      exact ⟨n, hget, hmag⟩
  · obtain ⟨trial, htrial, hge, hle⟩ := trialDigit_spec hn hv (by omega) hlt
    obtain ⟨qd, u', hround, hqd, -, -, hrem⟩ := divDigit_spec hn hv hlen hlt
    exact ⟨trial, qd, u', htrial, hround, hqd, by omega, by omega, hrem⟩

end Division

/-- Three digits by two, where the results replace the operands. -/
theorem mpdiv_magnitudes_three :
    let x : Mpint := ⟨-1, 3, [1, 2, 3], by decide⟩
    let y : Mpint := ⟨1, 2, [7, 9], by decide⟩
    ∃ st' m n, mpdiv 0 1 (some 0) (some 1) ⟨[some x, some y]⟩ = some st' ∧
      x.mag = m * y.mag + n ∧ n < y.mag ∧ (∃ z, st'.get 0 = some z ∧ z.mag = m) ∧
      ∃ z, st'.get 1 = some z ∧ z.mag = n := by
  intro x y
  obtain ⟨st', m, n, hdiv, hmn, hn, hq, hr, -⟩ :=
    (@mpdiv_magnitudes ⟨[some x, some y]⟩ 0 1 (some 0) (some 1) x y rfl rfl
      (fun q hq => Option.some.inj hq ▸ ⟨x, rfl⟩) (fun q hq => Option.some.inj hq ▸ ⟨y, rfl⟩)
      (by rintro q ⟨⟩; decide) (by decide) (by decide) (by decide)).1
  exact ⟨st', m, n, hdiv, hmn, hn, hq 0 rfl, hr 1 rfl⟩

end Plan9Port.Mp
