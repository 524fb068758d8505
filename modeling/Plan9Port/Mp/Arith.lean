import Plan9Port.Mp.Mpint

/-!
# Products, comparisons, sums and differences

`mpmul` (`libmp/port/mpmul.c`), `mpmagcmp` and `mpcmp` (`mpcmp.c`), `mpmagadd` and `mpadd`
(`mpadd.c`), `mpmagsub` and `mpsub` (`mpsub.c`). The arguments are references into a store of
`mpint`s, any of which may be the same; an object that is changed is read anew afterwards.

## Main results

* `mpmul_exact`: the product is exact and in normal form, whatever the references
* `mpcmp_sign`: a comparison of numbers in normal form is one of their values
* `mpadd_spec`, `mpsub_spec`: sums and differences
-/

namespace Plan9Port.Mp

open Memory Heap Mpint
open Option (bind_some bind_eq_bind)

/-- A pointer to an `mpint`. -/
abbrev Ref := Nat

/-- The `mpint`s. -/
abbrev Store := Heap Mpint

/-- An `mpint` of the given fields, whose digits have to be there. -/
def mpint (sign : ℤˣ) (top : Nat) (p : List mpdigit) : Option Mpint :=
  if h : top ≤ p.length then some ⟨sign, top, p, h⟩ else none

variable {sign : ℤˣ} {st : Store}

theorem mpint_eq {top : Nat} {p : List mpdigit} (h : top ≤ p.length) :
    mpint sign top p = some ⟨sign, top, p, h⟩ :=
  dif_pos h

/-! ## Products -/

/-- The body of `mpmul`, where `prod` is none of the factors. -/
def mulInto (b1 b2 prod : Mpint) : Option Mpint := do
  let prod := mpbits { prod with top := 0, top_le := Nat.zero_le _ }
    (Dbits * (b1.top + b2.top + 1 : Nat))
  let p ← update prod.p 0 (b1.top + b2.top) (mpvecmul b1.digits b2.digits)
  let prod ← mpint (b1.sign * b2.sign) (b1.top + b2.top + 1) p
  return mpnorm prod

/-- The product. -/
def mpmul (b1 b2 prod : Ref) (st : Store) : Option Store := do
  let x ← st.get b1
  let y ← st.get b2
  let z ← st.get prod
  if prod = b1 ∨ prod = b2 then
    let r ← mulInto x y (mpnew 0)
    return st.set prod (mpassign r z)
  else
    let r ← mulInto x y z
    return st.set prod r

theorem mulInto_spec (x y z : Mpint) :
    ∃ r, mulInto x y z = some r ∧ r.Normal ∧ r.value = x.value * y.value := by
  simp only [mulInto, bind_eq_bind]
  generalize hz : mpbits { z with top := 0, top_le := Nat.zero_le _ }
    (Dbits * (x.top + y.top + 1 : Nat)) = z'
  have hdigits : z'.digits = List.replicate (x.top + y.top + 1) 0 := by
    rw [← hz, digits_mpbits, DIGITS_mul]
    rfl
  have htop : z'.top = x.top + y.top + 1 := by
    rw [← z'.length_digits, hdigits, List.length_replicate]
  have hlen := htop ▸ z'.top_le
  have hzero : slice z'.p 0 (x.top + y.top + 1) = List.replicate (x.top + y.top + 1) 0 := by
    rw [← hdigits, ← htop]
    rfl
  obtain ⟨q, hq, hqlen, hqval⟩ := mpvecmul_spec x.digits y.digits
  simp only [Mpint.length_digits] at hq hqlen
  have hread : slice z'.p 0 (x.top + y.top) = List.replicate (x.top + y.top) 0 := by
    have := slice_slice z'.p (p := 0) (by omega : 0 + (x.top + y.top) ≤ x.top + y.top + 1)
    rwa [hzero, slice_replicate _ (by omega), eq_comm] at this
  rw [← hread] at hq
  rw [update_eq (by omega) hq, bind_some, mpint_eq (by rwa [length_patch]), bind_some]
  refine ⟨_, rfl, mpnorm_normal _, ?_⟩
  -- one digit of zeros is left above the product
  have hmag : val ((patch z'.p 0 q).take (x.top + y.top + 1)) = x.mag * y.mag := by
    change val (slice _ 0 _) = _
    rw [val_slice_patch_zero (by omega) hzero (by omega), hqval]
    rfl
  rw [value_mpnorm, Mpint.value, Mpint.mag, Mpint.digits, hmag, Mpint.value, Mpint.value]
  push_cast
  ring

theorem mpmul_spec {b1 b2 prod : Ref} {x y z : Mpint} (h₁ : st.get b1 = some x)
    (h₂ : st.get b2 = some y) (hz : st.get prod = some z) :
    ∃ r, mpmul b1 b2 prod st = some (st.set prod r) ∧ r.Normal ∧ r.value = x.value * y.value := by
  simp only [mpmul, h₁, h₂, hz, Lib.some_bind]
  split_ifs
  · obtain ⟨r, hr, hnormal, hvalue⟩ := mulInto_spec x y (mpnew 0)
    have hsame := mpassign_same r z
    exact ⟨mpassign r z, by rw [hr]; rfl, hsame.normal.mpr hnormal, hsame.value.trans hvalue⟩
  · obtain ⟨r, hr, hnormal, hvalue⟩ := mulInto_spec x y z
    exact ⟨r, by rw [hr]; rfl, hnormal, hvalue⟩

/-- **`mpmul` leaves the exact product in normal form**, also where `prod` is a factor. The product
of halves has the digits of the loop over the digits of the second factor, and computing it never
leaves the scratch area. -/
theorem mpmul_exact {st : Store} {b1 b2 prod : Ref} {x y z : Mpint} (h₁ : st.get b1 = some x)
    (h₂ : st.get b2 = some y) (hz : st.get prod = some z) :
    (∃ r, mpmul b1 b2 prod st = some (st.set prod r) ∧ r.Normal ∧ r.value = x.value * y.value) ∧
    (∀ a b : List mpdigit, ∃ q, mpvecmul a b (List.replicate (a.length + b.length) 0) = some q ∧
      schoolbook a b (List.replicate (a.length + b.length) 0) = some q) ∧
    ∀ a b : List mpdigit, b.length ≤ a.length → KARATSUBAMIN ≤ a.length →
      ∃ q, mpkaratsuba mpvecmul a b (List.replicate (a.length + b.length) 0) = some q ∧
        schoolbook a b (List.replicate (a.length + b.length) 0) = some q := by
  refine ⟨mpmul_spec h₁ h₂ hz, fun a b => ?_, fun a b hab ha => ?_⟩
  · obtain ⟨q, hq, -⟩ := schoolbook_spec a b
    exact ⟨q, by rw [Multiplies.eq_of (mpvecmul_spec a b) (schoolbook_spec a b), hq], hq⟩
  · obtain ⟨q, hq, -⟩ := schoolbook_spec a b
    have hkara : Multiplies (mpkaratsuba mpvecmul) a b :=
      mpkaratsuba_spec hab (le_trans (by decide) ha) fun x y _ => mpvecmul_spec x y
    exact ⟨q, by rw [hkara.eq_of (schoolbook_spec a b), hq], hq⟩

/-- A negative number of two digits, squared in place. -/
theorem mpmul_exact_square :
    let x : Mpint := ⟨-1, 2, [4294967295, 5], by decide⟩
    ∃ r, mpmul 0 0 0 ⟨[some x]⟩ = some (Heap.set ⟨[some x]⟩ 0 r) ∧ r.Normal ∧
      r.value = -25769803775 * -25769803775 := by
  intro x
  have hx : x.value = -25769803775 := by decide
  rw [← hx]
  exact (@mpmul_exact ⟨[some x]⟩ 0 0 0 x x x rfl rfl rfl).1

/-! ## Comparisons -/

/-- Magnitudes are compared. -/
def mpmagcmp (b1 b2 : Mpint) : Int :=
  let i : Int := b1.top - b2.top
  if i ≠ 0 then i else mpveccmp b1.digits b2.digits

/-- Numbers are compared. -/
def mpcmp (b1 b2 : Mpint) : Int :=
  if b1.sign ≠ b2.sign then (b1.sign : Int) - b2.sign
  else if (b1.sign : Int) < 0 then mpmagcmp b2 b1
  else mpmagcmp b1 b2

/-- The sign of a comparison of magnitudes is that of their difference. -/
theorem mpmagcmp_sign {x y : Mpint} (hx : x.Trimmed) (hy : y.Trimmed) :
    (mpmagcmp x y < 0 ↔ x.mag < y.mag) ∧ (mpmagcmp x y = 0 ↔ x.mag = y.mag) := by
  simp only [mpmagcmp]
  split_ifs with h
  · rcases Nat.lt_or_gt_of_ne (show x.top ≠ y.top by omega) with hlt | hgt
    · have := hy.mag_lt_mag hlt
      omega
    · have := hx.mag_lt_mag hgt
      omega
  · rw [mpveccmp_eq]
    change (_ ↔ val x.digits < val y.digits) ∧ (_ ↔ val x.digits = val y.digits)
    split_ifs <;> simp <;> omega

theorem sign_cases (s : ℤˣ) : s = 1 ∨ s = -1 := Int.units_eq_one_or s

/-- The value of a number in normal form is negative exactly if its sign is. -/
theorem Mpint.Normal.value_neg {x : Mpint} (h : x.Normal) : x.value < 0 ↔ x.sign = -1 := by
  rcases sign_cases x.sign with hs | hs
  · have : (1 : ℤˣ) ≠ -1 := by decide
    simp only [value, hs, this, iff_false]
    simp
  · have htop : x.top ≠ 0 := fun h0 => absurd (h.sign_zero h0) (by rw [hs]; decide)
    have hmag : x.mag ≠ 0 := fun h0 => htop (h.trimmed.mag_eq_zero.mp h0)
    simp only [value, hs, iff_true]
    simp
    omega

/-- **A comparison of numbers in normal form is one of their values.** -/
theorem mpcmp_sign {x y : Mpint} (hx : x.Normal) (hy : y.Normal) :
    (mpcmp x y < 0 ↔ x.value < y.value) ∧ (mpcmp x y = 0 ↔ x.value = y.value) := by
  have hxn := hx.value_neg
  have hyn := hy.value_neg
  obtain ⟨hlt, heq⟩ := mpmagcmp_sign hx.trimmed hy.trimmed
  obtain ⟨hgt, heq'⟩ := mpmagcmp_sign hy.trimmed hx.trimmed
  have hne : (1 : ℤˣ) ≠ -1 := by decide
  rcases sign_cases x.sign with hsx | hsx <;> rcases sign_cases y.sign with hsy | hsy <;>
    simp only [mpcmp, value, hsx, hsy, ne_eq, hne, hne.symm, not_true_eq_false,
      not_false_eq_true, if_true, if_false, Units.val_one, Units.val_neg, iff_true, iff_false,
      not_lt, Int.one_mul, Int.neg_mul] at hxn hyn ⊢
  · rw [if_neg (by decide)]
    omega
  · omega
  · omega
  · rw [if_pos (by decide)]
    omega

/-! ## Sums and differences -/

/-- Copies the object `x` to `new`. -/
def assign (x : Mpint) (new : Ref) (st : Store) : Option Store :=
  (st.get new).map fun z => st.set new (mpassign x z)

/-- Sets the sign of `r`. -/
def setSign (r : Ref) (sign : ℤˣ) (st : Store) : Option Store :=
  (st.get r).map fun z => st.set r (z.withSign sign)

/-- The last part of `mpmagadd`, where `b1` has the more digits and both have some. -/
def addDigits (b1 b2 sum : Ref) (n m : Nat) (st : Store) : Option Store := do
  let z ← st.get sum
  let st := st.set sum (mpbits z (Dbits * (n + 1 : Nat)))
  -- what mpbits has changed may be an operand
  let x ← st.get b1
  let y ← st.get b2
  let z ← st.get sum
  let a ← digits x.p 0 n
  let b ← digits y.p 0 m
  let p ← update z.p 0 (n + 1) fun _ => mpvecadd a b
  let z ← mpint 1 (n + 1) p
  return st.set sum (mpnorm z)

/-- `mpmagadd` with the sizes right: `b1` is the one with more digits. -/
def magaddLonger (b1 b2 : Ref) (x y : Mpint) (sum : Ref) (st : Store) : Option Store :=
  if x.top = 0 then assign mpzero sum st
  else if y.top = 0 then assign x sum st
  else addDigits b1 b2 sum x.top y.top st

/-- `sum = abs(b1) + abs(b2)`. -/
def mpmagadd (b1 b2 sum : Ref) (st : Store) : Option Store := do
  let x ← st.get b1
  let y ← st.get b2
  if y.top > x.top then magaddLonger b2 b1 y x sum st else magaddLonger b1 b2 x y sum st

/-- The last part of `mpmagsub`, where `b1` has the greater magnitude and both have digits. -/
def subDigits (b1 b2 diff : Ref) (n m : Nat) (sign : ℤˣ) (st : Store) : Option Store := do
  let z ← st.get diff
  let st := st.set diff (mpbits z (Dbits * n))
  let x ← st.get b1
  let y ← st.get b2
  let z ← st.get diff
  let a ← digits x.p 0 n
  let b ← digits y.p 0 m
  let p ← update z.p 0 n fun _ => mpvecsub a b
  let z ← mpint sign n p
  return st.set diff (mpnorm z)

/-- `mpmagsub` with the sizes right: `b1` is the greater one. -/
def magsubGreater (b1 b2 : Ref) (x y : Mpint) (sign : ℤˣ) (diff : Ref) (st : Store) :
    Option Store :=
  if y.top = 0 then (assign x diff st).bind (setSign diff sign)
  else subDigits b1 b2 diff x.top y.top sign st

/-- `diff = abs(b1) - abs(b2)`. -/
def mpmagsub (b1 b2 diff : Ref) (st : Store) : Option Store := do
  let x ← st.get b1
  let y ← st.get b2
  if mpmagcmp x y < 0 then magsubGreater b2 b1 y x (-1) diff st
  else magsubGreater b1 b2 x y 1 diff st

/-- `sum = b1 + b2`. -/
def mpadd (b1 b2 sum : Ref) (st : Store) : Option Store := do
  let x ← st.get b1
  let y ← st.get b2
  if x.sign ≠ y.sign then
    if (x.sign : Int) < 0 then mpmagsub b2 b1 sum st else mpmagsub b1 b2 sum st
  else
    let st ← mpmagadd b1 b2 sum st
    let z ← st.get sum
    if z.top ≠ 0 then setSign sum x.sign st else return st

/-- `diff = b1 - b2`. -/
def mpsub (b1 b2 diff : Ref) (st : Store) : Option Store := do
  let x ← st.get b1
  let y ← st.get b2
  if x.sign ≠ y.sign then (mpmagadd b1 b2 diff st).bind (setSign diff x.sign)
  else
    let st ← mpmagsub b1 b2 diff st
    let z ← st.get diff
    if z.top ≠ 0 then setSign diff (z.sign * x.sign) st else return st

section Specs

variable {b1 b2 r : Ref} {x y z : Mpint}

/-- An operand that `mpbits` may have changed keeps its digits. -/
theorem get_set_mpbits (hz : st.get r = some z) (h₁ : st.get b1 = some x) (m : Int) :
    ∃ x', (st.set r (mpbits z m)).get b1 = some x' ∧ digits x'.p 0 x.top = some x.digits := by
  by_cases hne : b1 = r
  · subst hne
    obtain rfl : z = x := Option.some.inj (hz.symm.trans h₁)
    refine ⟨mpbits z m, get_set_self hz, ?_⟩
    have hlen : 0 + z.top ≤ (mpbits z m).p.length := by
      have := z.top_le
      rw [length_mpbits]
      omega
    exact (digits_eq hlen).trans (congrArg some (take_mpbits z m))
  · refine ⟨x, (get_set_of_ne st _ hne).trans h₁, ?_⟩
    exact digits_eq (by have := x.top_le; omega)

theorem assign_eq (hz : st.get r = some z) : assign x r st = some (st.set r (mpassign x z)) := by
  rw [assign, hz]
  rfl

theorem setSign_eq (hz : st.get r = some z) (sign : ℤˣ) :
    setSign r sign st = some (st.set r (z.withSign sign)) := by
  rw [setSign, hz]
  rfl

/-- A copy of a number without digits leaves the digits, which may have a low one that is 0. -/
theorem mpassign_low (h : x.top = 0 → z.p[0]? = some 0) : (mpassign x z).Low := by
  by_cases h0 : x.top = 0
  · exact ⟨0, by rw [mpassign_p h0]; exact h h0, fun _ => rfl⟩
  · exact low_of_top_ne_zero h0

theorem Mpint.Normal.withSign {s : Mpint} (h : s.Normal) (hs : s.top = 0 → sign = 1) :
    (s.withSign sign).Normal :=
  ⟨h.trimmed, hs⟩

/-- Zero keeps its sign, and any other result gets the one it is to have. -/
theorem signed_spec {s : Mpint} (hz : st.get r = some z) (h : s.Normal) (sign : ℤˣ) :
    ∃ s', (if s.top ≠ 0 then setSign r sign (st.set r s) else some (st.set r s)) =
      some (st.set r s') ∧ s'.Normal ∧ s'.value = sign * s.mag ∧ (s.Low → s'.Low) := by
  by_cases htop : s.top = 0
  · refine ⟨s, if_neg (not_not.mpr htop), h, ?_, id⟩
    rw [value, mag_of_top_eq_zero htop]
    simp
  · rw [if_pos htop, setSign_eq (get_set_self hz), set_set]
    exact ⟨_, rfl, h.withSign fun h0 => absurd h0 htop, rfl, id⟩

variable (h₁ : st.get b1 = some x) (h₂ : st.get b2 = some y) (hz : st.get r = some z)
include h₁ h₂ hz

theorem addDigits_spec (hle : y.top ≤ x.top) :
    ∃ s, addDigits b1 b2 r x.top y.top st = some (st.set r s) ∧ s.Normal ∧
      s.value = x.mag + y.mag ∧ s.Low := by
  obtain ⟨x', hx', hxd⟩ := get_set_mpbits hz h₁ (Dbits * (x.top + 1 : Nat))
  obtain ⟨y', hy', hyd⟩ := get_set_mpbits hz h₂ (Dbits * (x.top + 1 : Nat))
  obtain ⟨s, hs, hslen, hsval⟩ := mpvecadd_spec (a := x.digits) (b := y.digits) (by simpa using hle)
  rw [Mpint.length_digits] at hslen
  simp only [addDigits, bind_eq_bind, hz, hx', hy', hxd, hyd, get_set_self hz, bind_some]
  have hlen : x.top + 1 ≤ (mpbits z (Dbits * (x.top + 1 : Nat))).p.length := by
    rw [length_mpbits, DIGITS_mul]
    exact Nat.le_max_right _ _
  rw [update_eq (by omega) hs, bind_some, mpint_eq (by rwa [length_patch]), bind_some]
  refine ⟨_, by rw [set_set]; rfl, mpnorm_normal _, ?_, mpnorm_low (Nat.succ_ne_zero _)⟩
  rw [value_mpnorm, Mpint.value, Mpint.mag, Mpint.digits, take_patch_digits hslen hlen, hsval]
  simp [Mpint.mag]

theorem subDigits_spec (htop : y.top ≤ x.top) (hmag : y.mag ≤ x.mag) (sign : ℤˣ) :
    ∃ s, subDigits b1 b2 r x.top y.top sign st = some (st.set r s) ∧ s.Normal ∧
      s.value = sign * (x.mag - y.mag) ∧ (x.top ≠ 0 → s.Low) := by
  obtain ⟨x', hx', hxd⟩ := get_set_mpbits hz h₁ (Dbits * x.top)
  obtain ⟨y', hy', hyd⟩ := get_set_mpbits hz h₂ (Dbits * x.top)
  obtain ⟨d, hd, hdlen, hdval⟩ := mpvecsub_spec (by simpa using htop) hmag
  rw [Mpint.length_digits] at hdlen
  simp only [subDigits, bind_eq_bind, hz, hx', hy', hxd, hyd, get_set_self hz, bind_some]
  have hlen : x.top ≤ (mpbits z (Dbits * x.top)).p.length := by
    rw [length_mpbits, DIGITS_mul]
    exact Nat.le_max_right _ _
  rw [update_eq (by omega) hd, bind_some, mpint_eq (by rwa [length_patch]), bind_some]
  refine ⟨_, by rw [set_set]; rfl, mpnorm_normal _, ?_, ?_⟩
  · rw [value_mpnorm, Mpint.value, Mpint.mag, Mpint.digits, take_patch_digits hdlen hlen]
    have hdiff : (val d : Int) = x.mag - y.mag := by
      rw [Mpint.mag, Mpint.mag, ← hdval]
      push_cast
      ring
    rw [hdiff]
  · exact fun h => mpnorm_low h

section

variable (hx : x.Trimmed)
include hx

theorem magaddLonger_spec (hle : y.top ≤ x.top) :
    ∃ s, magaddLonger b1 b2 x y r st = some (st.set r s) ∧ s.Normal ∧ s.mag = x.mag + y.mag ∧
      ((x.top = 0 → z.p[0]? = some 0) → s.Low) := by
  unfold magaddLonger
  split_ifs with hx0 hy0
  · have hsame := mpassign_same mpzero z
    refine ⟨_, assign_eq hz, hsame.normal.mpr mpzero_normal, ?_,
      fun h => mpassign_low fun _ => h hx0⟩
    rw [hsame.mag, mag_of_top_eq_zero hx0, mag_of_top_eq_zero (by omega : y.top = 0)]
    rfl
  · have hsame := mpassign_same x z
    refine ⟨_, assign_eq hz, ⟨hsame.trimmed.mpr hx, fun h0 => absurd h0 hx0⟩, ?_, mpassign_low⟩
    rw [hsame.mag, mag_of_top_eq_zero hy0, add_zero]
  · obtain ⟨s, hs, hnormal, hvalue, hlow⟩ := addDigits_spec h₁ h₂ hz hle
    refine ⟨s, hs, hnormal, ?_, fun _ => hlow⟩
    have hnn : ¬ s.value < 0 := by omega
    rw [hnormal.value_neg] at hnn
    have hsign := (sign_cases s.sign).resolve_right hnn
    rw [value, hsign, Units.val_one, Int.one_mul] at hvalue
    exact_mod_cast hvalue

theorem mpmagadd_spec (hy : y.Trimmed) :
    ∃ s, mpmagadd b1 b2 r st = some (st.set r s) ∧ s.Normal ∧ s.mag = x.mag + y.mag ∧
      ((x.top = 0 → y.top = 0 → z.p[0]? = some 0) → s.Low) := by
  simp only [mpmagadd, h₁, h₂, Lib.some_bind]
  split_ifs with hlt
  · obtain ⟨s, hs, hnormal, hmag, hlow⟩ := magaddLonger_spec h₂ h₁ hz hy hlt.le
    exact ⟨s, hs, hnormal, by rw [hmag, add_comm], fun h => hlow fun hy0 => h (by omega) hy0⟩
  · obtain ⟨s, hs, hnormal, hmag, hlow⟩ := magaddLonger_spec h₁ h₂ hz hx (Nat.le_of_not_lt hlt)
    exact ⟨s, hs, hnormal, hmag, fun h => hlow fun hx0 => h hx0 (by omega)⟩

/-- A negative sign only goes with a difference that is not 0. -/
theorem magsubGreater_spec (hmag : y.mag ≤ x.mag) (htop : y.top ≤ x.top)
    (hsign : sign = 1 ∨ y.mag < x.mag) :
    ∃ s, magsubGreater b1 b2 x y sign r st = some (st.set r s) ∧ s.Normal ∧
      s.value = sign * (x.mag - y.mag) ∧ ((x.top = 0 → z.p[0]? = some 0) → s.Low) := by
  unfold magsubGreater
  split_ifs with hy0
  · have hsame := mpassign_same x z
    rw [assign_eq hz, bind_some, setSign_eq (get_set_self hz), set_set]
    refine ⟨_, rfl, ⟨hsame.trimmed.mpr hx, fun h0 => ?_⟩, ?_, mpassign_low⟩
    · have hx0 : x.mag = 0 := mag_of_top_eq_zero h0
      exact hsign.resolve_right (by omega)
    · rw [value, mag_withSign, hsame.mag, mag_of_top_eq_zero hy0]
      simp
  · obtain ⟨s, hs, hnormal, hvalue, hlow⟩ := subDigits_spec h₁ h₂ hz htop hmag sign
    exact ⟨s, hs, hnormal, hvalue, fun _ => hlow (by omega)⟩

theorem mpmagsub_spec (hy : y.Trimmed) :
    ∃ s, mpmagsub b1 b2 r st = some (st.set r s) ∧ s.Normal ∧ s.value = x.mag - y.mag ∧
      ((x.top = 0 → y.top = 0 → z.p[0]? = some 0) → s.Low) := by
  have hcmp := (mpmagcmp_sign hx hy).1
  -- fewer digits make a smaller number
  have htop {x y : Mpint} (hy : y.Trimmed) (h : y.mag ≤ x.mag) : y.top ≤ x.top := by
    by_contra hlt
    have := hy.mag_lt_mag (Nat.lt_of_not_le hlt)
    omega
  simp only [mpmagsub, h₁, h₂, Lib.some_bind]
  split_ifs with hlt
  · have hmag := hcmp.mp hlt
    have hle := htop hx hmag.le
    obtain ⟨s, hs, hnormal, hvalue, hlow⟩ := magsubGreater_spec h₂ h₁ hz hy hmag.le hle (.inr hmag)
    refine ⟨s, hs, hnormal, ?_, fun h => hlow fun hy0 => h (by omega) hy0⟩
    rw [hvalue, Units.val_neg, Units.val_one]
    ring
  · have hmag : y.mag ≤ x.mag := Nat.le_of_not_lt (mt hcmp.mpr hlt)
    have hle := htop hy hmag
    obtain ⟨s, hs, hnormal, hvalue, hlow⟩ := magsubGreater_spec h₁ h₂ hz hx hmag hle (.inl rfl)
    exact ⟨s, hs, hnormal, by rw [hvalue, Units.val_one, Int.one_mul],
      fun h => hlow fun hx0 => h hx0 (by omega)⟩

/-- **Sums.** The operands need not be in normal form, only trimmed: a negative zero does no
harm. -/
theorem mpadd_spec (hy : y.Trimmed) :
    ∃ s, mpadd b1 b2 r st = some (st.set r s) ∧ s.Normal ∧ s.value = x.value + y.value ∧
      ((x.top = 0 → y.top = 0 → z.p[0]? = some 0) → s.Low) := by
  simp only [mpadd, bind_eq_bind, h₁, h₂, bind_some]
  by_cases hsign : x.sign = y.sign
  · obtain ⟨s, hs, hnormal, hmag, hlow⟩ := mpmagadd_spec h₁ h₂ hz hx hy
    obtain ⟨s', hs', hnormal', hvalue, hlow'⟩ := signed_spec hz hnormal x.sign
    rw [if_neg (not_not.mpr hsign), hs, bind_some, get_set_self hz, bind_some]
    refine ⟨s', hs', hnormal', ?_, fun h => hlow' (hlow h)⟩
    rw [hvalue, hmag, value, value, ← hsign]
    push_cast
    ring
  · rw [if_pos hsign]
    rcases sign_cases x.sign with hsx | hsx
    · have hsy : y.sign = -1 := (sign_cases y.sign).resolve_left fun h => hsign (hsx.trans h.symm)
      obtain ⟨s, hs, hnormal, hvalue, hlow⟩ := mpmagsub_spec h₁ h₂ hz hx hy
      refine ⟨s, by rw [hsx, if_neg (by decide), hs], hnormal, ?_, hlow⟩
      rw [hvalue, value, value, hsx, hsy]
      simp [sub_eq_add_neg]
    · have hsy : y.sign = 1 := (sign_cases y.sign).resolve_right fun h => hsign (hsx.trans h.symm)
      obtain ⟨s, hs, hnormal, hvalue, hlow⟩ := mpmagsub_spec h₂ h₁ hz hy hx
      refine ⟨s, by rw [hsx, if_pos (by decide), hs], hnormal, ?_, fun h => hlow fun a b => h b a⟩
      rw [hvalue, value, value, hsx, hsy]
      simp
      ring

end

/-- **Differences.** Of operands with different signs one is not 0, if they are in normal form. -/
theorem mpsub_spec (hx : x.Normal) (hy : y.Normal) :
    ∃ s, mpsub b1 b2 r st = some (st.set r s) ∧ s.Normal ∧ s.value = x.value - y.value ∧
      ((x.top = 0 → y.top = 0 → z.p[0]? = some 0) → s.Low) := by
  simp only [mpsub, bind_eq_bind, h₁, h₂, bind_some]
  by_cases hsign : x.sign = y.sign
  · obtain ⟨s, hs, hnormal, hvalue, hlow⟩ := mpmagsub_spec h₁ h₂ hz hx.trimmed hy.trimmed
    obtain ⟨s', hs', hnormal', hvalue', hlow'⟩ := signed_spec hz hnormal (s.sign * x.sign)
    rw [if_neg (not_not.mpr hsign), hs, bind_some, get_set_self hz, bind_some]
    refine ⟨s', hs', hnormal', ?_, fun h => hlow' (hlow h)⟩
    rw [hvalue', Units.val_mul, Int.mul_right_comm, ← value, hvalue, value, value, ← hsign]
    ring
  · obtain ⟨s, hs, hnormal, hmag, hlow⟩ := mpmagadd_spec h₁ h₂ hz hx.trimmed hy.trimmed
    rw [if_pos hsign, hs, bind_some, setSign_eq (get_set_self hz), set_set]
    refine ⟨_, rfl, hnormal.withSign fun h0 => ?_, ?_, hlow⟩
    · -- the sum of the magnitudes is 0, so that both signs would be `+1`
      have hs0 := mag_of_top_eq_zero h0
      have hx0 := hx.sign_zero (hx.trimmed.mag_eq_zero.mp (by omega))
      exact hx0
    · have hsy : y.sign = -x.sign := by
        rcases sign_cases x.sign with h | h <;> rcases sign_cases y.sign with h' | h' <;>
          simp_all
      rw [value, mag_withSign, sign_withSign, hmag, value, value, hsy, Units.val_neg]
      push_cast
      ring

end Specs

end Plan9Port.Mp
