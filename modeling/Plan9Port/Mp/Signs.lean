import Plan9Port.Mp.Div

/-!
# The signs of a division

`mpdiv` sets the sign of the quotient only if it has to be negative, and takes the sign of the
remainder from the dividend after the quotient was stored. So both depend on what the results were
before, and on which of them is an operand.

## Main definitions

* `SignsRight`: when the long division stores the signs that it should

## Main results

* `mpdiv_rounds`: what is stored if it does
* `mpdiv_signed`: the quotient is rounded to zero and the remainder has the sign of the dividend,
  in these cases and in no others
-/

namespace Plan9Port.Mp

open Mpint

variable {st : Store} {dividend divisor : Ref} {quotient remainder : Option Ref} {a b : Mpint}

/-- When the long division stores the right signs: a quotient that is not negative was not negative
before, and if the quotient is in the place of the dividend and the remainder is not, then the sign
that is there is still that of the dividend. -/
structure SignsRight (st : Store) (dividend : Ref) (quotient remainder : Option Ref)
    (a b : Mpint) : Prop where
  quotient_sign : ∀ x z, quotient = some x → st.get x = some z → a.sign = b.sign → z.sign = 1
  dividend_sign : remainder ≠ none → remainder ≠ some dividend → quotient = some dividend →
    a.sign = b.sign ∨ a.sign = -1

theorem remainderSign_eq (h : SignsRight st dividend quotient remainder a b)
    (hrem : remainder ≠ none) : remainderSign dividend quotient remainder a b =
      if remainder = some dividend ∧ a.mag % b.mag = 0 then 1 else a.sign := by
  rw [remainderSign]
  by_cases hrd : remainder = some dividend
  · simp only [hrd, if_true, true_and]
  have hnone : ¬ (remainder = some dividend ∧ a.mag % b.mag = 0) := fun h' => hrd h'.1
  rw [if_neg hrd, if_neg hnone]
  by_cases hqd : quotient = some dividend
  · rw [if_pos hqd]
    rcases h.dividend_sign hrem hrd hqd with hs | hs
    · rw [if_neg (not_not.mpr hs)]
    · rw [hs]
      split <;> rfl
  · rw [if_neg hqd]

/-- The value of a quotient of signed numbers. -/
theorem value_tdiv (a b : Mpint) :
    a.value.tdiv b.value = (a.sign * b.sign : ℤˣ) * ((a.mag / b.mag : Nat) : Int) := by
  rw [value, value]
  rcases sign_cases a.sign with ha | ha <;> rcases sign_cases b.sign with hb | hb <;>
    simp [ha, hb]

theorem value_tmod (a b : Mpint) :
    a.value.tmod b.value = a.sign * ((a.mag % b.mag : Nat) : Int) := by
  rw [value, value]
  rcases sign_cases a.sign with ha | ha <;> rcases sign_cases b.sign with hb | hb <;>
    simp [ha, hb, Int.tmod_eq_emod_of_nonneg]

/-- The sign of a zero makes no difference to its value. -/
theorem value_of_sign {z : Mpint} {sign : ℤˣ} (h : z.sign = sign ∨ z.mag = 0 ∧ z.sign = 1) :
    z.value = sign * z.mag := by
  rcases h with h | ⟨h, -⟩
  · rw [value, h]
  · simp [value, h]

theorem sign_mul (a b : ℤˣ) : a * b = if a ≠ b then -1 else 1 := by
  rcases sign_cases a with rfl | rfl <;> rcases sign_cases b with rfl | rfl <;> decide

section Divide

variable (ha : st.get dividend = some a) (hb : st.get divisor = some b) (hq : Live st quotient)
  (hr : Live st remainder) (hne : ∀ x, quotient = some x → remainder ≠ some x) (han : a.Normal)
  (hbn : b.Normal) (hb0 : b.value ≠ 0)
include ha hb hq hr hne han hbn hb0

/-- The quotient is rounded to zero, and the remainder goes with it. -/
theorem mpdiv_rounds (hsigns : a.mag < b.mag ∨ SignsRight st dividend quotient remainder a b) :
    ∃ st', mpdiv dividend divisor quotient remainder st = some st' ∧
      (∀ x, quotient = some x → ∃ z, st'.get x = some z ∧ z.Normal ∧
        z.value = a.value.tdiv b.value ∧ (z.sign = a.sign * b.sign ∨ z.mag = 0 ∧ z.sign = 1)) ∧
      (∀ x, remainder = some x → ∃ z, st'.get x = some z ∧ z.Trimmed ∧
        z.value = a.value.tmod b.value ∧
        z.sign = if remainder = some dividend ∧ z.mag = 0 then 1 else a.sign) ∧
      ∀ x, quotient ≠ some x → remainder ≠ some x → st'.get x = st.get x := by
  obtain ⟨st', hdiv, hquo, hrem, hother⟩ := mpdiv_results ha hb hq hr hne han hbn hb0
  refine ⟨st', hdiv, fun x hx => ?_, fun x hx => ?_, hother⟩
  · obtain ⟨z, hz⟩ := hq x hx
    obtain ⟨q, hget, hnormal, hmag, hsign⟩ := hquo x z hx hz
    have hs : q.sign = a.sign * b.sign ∨ q.mag = 0 ∧ q.sign = 1 := by
      by_cases hlt : a.mag < b.mag
      · exact .inr ⟨hmag.trans (Nat.div_eq_of_lt hlt), hsign.trans (if_pos hlt)⟩
      · rw [if_neg hlt] at hsign
        rw [hsign, sign_mul]
        by_cases hab : a.sign = b.sign
        · simp [hab, (hsigns.resolve_left hlt).quotient_sign x z hx hz hab]
        · simp [hab]
    exact ⟨q, hget, hnormal, by rw [value_tdiv, value_of_sign hs, hmag], hs⟩
  · obtain ⟨n, hget, htrim, hmag, hsign⟩ := hrem x hx
    have hs : n.sign = if remainder = some dividend ∧ n.mag = 0 then 1 else a.sign := by
      rw [hsign, hmag]
      by_cases hlt : a.mag < b.mag
      · rw [if_pos hlt, Nat.mod_eq_of_lt hlt]
        split
        · next h0 => exact han.sign_zero (han.trimmed.mag_eq_zero.mp h0.2)
        · rfl
      · rw [if_neg hlt]
        exact remainderSign_eq (hsigns.resolve_left hlt) (by rw [hx]; simp)
    refine ⟨n, hget, htrim, ?_, hs⟩
    rw [value_tmod, ← hmag]
    refine value_of_sign ?_
    split at hs
    · next h0 => exact .inr ⟨h0.2, hs⟩
    · exact .inl hs

/-- **The signs of a division.** The quotient is rounded to zero, the remainder has the sign of the
dividend, and zeros may have the sign +1 instead, exactly if the dividend has the smaller magnitude
or the signs that the long division keeps are the right ones. -/
theorem mpdiv_signed :
    (∃ st' q r, mpdiv dividend divisor quotient remainder st = some st' ∧
      q = a.value.tdiv b.value ∧ r = a.value.tmod b.value ∧ a.value = q * b.value + r ∧
      (∀ x, quotient = some x → ∃ z, st'.get x = some z ∧ z.value = q ∧
        (z.sign = a.sign * b.sign ∨ z.mag = 0 ∧ z.sign = 1)) ∧
      (∀ x, remainder = some x → ∃ z, st'.get x = some z ∧ z.value = r ∧
        (z.sign = a.sign ∨ z.mag = 0 ∧ z.sign = 1)) ∧
      ∀ x, quotient ≠ some x → remainder ≠ some x → st'.get x = st.get x) ↔
    a.mag < b.mag ∨ SignsRight st dividend quotient remainder a b := by
  constructor
  · rintro ⟨st', q, r, hdiv, -, -, -, hquo, hrem, -⟩
    obtain ⟨st'', hdiv', hquo', hrem', -⟩ := mpdiv_results ha hb hq hr hne han hbn hb0
    obtain rfl := Option.some.inj (hdiv.symm.trans hdiv')
    refine or_iff_not_imp_left.mpr fun hlt => ⟨fun x z hx hz hab => ?_, fun hnone hrd hqd => ?_⟩
    · -- the sign that was there is the one that is there
      obtain ⟨q', hget, -, hs⟩ := hquo x hx
      obtain ⟨q'', hget', -, -, hsign⟩ := hquo' x z hx hz
      obtain rfl := Option.some.inj (hget.symm.trans hget')
      rw [if_neg hlt, if_neg (not_not.mpr hab)] at hsign
      rw [← hsign]
      rcases hs with hs | hs
      · rw [hs, hab, sign_mul, if_neg (not_not.mpr rfl)]
      · exact hs.2
    · obtain ⟨x, hx⟩ := Option.ne_none_iff_exists'.mp hnone
      obtain ⟨n, hget, -, hs⟩ := hrem x hx
      obtain ⟨n', hget', -, -, hsign⟩ := hrem' x hx
      obtain rfl := Option.some.inj (hget.symm.trans hget')
      rw [if_neg hlt, remainderSign, if_neg hrd, if_pos hqd] at hsign
      refine or_iff_not_imp_left.mpr fun hab => ?_
      rw [if_pos hab] at hsign
      rw [hsign] at hs
      rcases hs with hs | hs
      · exact hs.symm
      · exact absurd hs.2 (by decide)
  · intro hsigns
    obtain ⟨st', hdiv, hquo, hrem, hother⟩ := mpdiv_rounds ha hb hq hr hne han hbn hb0 hsigns
    refine ⟨st', _, _, hdiv, rfl, rfl, (Int.tdiv_mul_add_tmod ..).symm, fun x hx => ?_,
      fun x hx => ?_, hother⟩
    · obtain ⟨z, hz, -, hvalue, hs⟩ := hquo x hx
      exact ⟨z, hz, hvalue, hs⟩
    · obtain ⟨z, hz, -, hvalue, hs⟩ := hrem x hx
      refine ⟨z, hz, hvalue, ?_⟩
      split at hs
      · next h0 => exact .inr ⟨h0.2, hs⟩
      · exact .inl hs

end Divide

/-- A dividend of -7, a divisor of 2, and two objects for the results. -/
def sevenByTwo : Store :=
  ⟨[some ⟨-1, 1, [7], by decide⟩, some ⟨1, 1, [2], by decide⟩, some mpone, some mpone]⟩

theorem mpdiv_signed_negative :
    ∃ st' q r, mpdiv 0 1 (some 2) (some 3) sevenByTwo = some st' ∧ q = -3 ∧ r = -1 ∧
      (∃ z, st'.get 2 = some z ∧ z.value = q) ∧ ∃ z, st'.get 3 = some z ∧ z.value = r := by
  have hlive : ∀ x, x = 2 ∨ x = 3 → Live sevenByTwo (some x) := by
    rintro x (rfl | rfl) q ⟨⟩
    · exact ⟨mpone, rfl⟩
    · exact ⟨mpone, rfl⟩
  obtain ⟨st', q, r, hdiv, hq, hr, -, hquo, hrem, -⟩ := @mpdiv_signed sevenByTwo 0 1 (some 2)
    (some 3) ⟨-1, 1, [7], by decide⟩ ⟨1, 1, [2], by decide⟩ rfl rfl (hlive 2 (.inl rfl))
    (hlive 3 (.inr rfl)) (by rintro x ⟨⟩ ⟨⟩) (by decide) (by decide) (by decide)
  |>.mpr (.inr ⟨by rintro x z ⟨⟩ ⟨⟩; decide, fun _ _ _ => .inr rfl⟩)
  obtain ⟨z, hz, hzv, -⟩ := hquo 2 rfl
  obtain ⟨n, hn, hnv, -⟩ := hrem 3 rfl
  exact ⟨st', q, r, hdiv, hq, hr, ⟨z, hz, hzv⟩, ⟨n, hn, hnv⟩⟩

/-- The quotient of 1 by 1, stored in an object that holds -1, is -1. -/
theorem mpdiv_keeps_sign :
    ∃ st', mpdiv 0 1 (some 2) none ⟨[some mpone, some mpone, some (mpone.withSign (-1))]⟩ =
        some st' ∧
      ∃ z, st'.get 2 = some z ∧ mpone.Normal ∧ z.value = -1 ∧
        mpone.value ≠ z.value * mpone.value := by
  have hrun : ((mpdiv 0 1 (some 2) none
      ⟨[some mpone, some mpone, some (mpone.withSign (-1))]⟩).bind (Heap.get · 2)).map
        value = some (-1) := by decide +kernel
  obtain ⟨z, hz, hv⟩ := Option.map_eq_some_iff.mp hrun
  obtain ⟨st', hdiv, hget⟩ := Option.bind_eq_some_iff.mp hz
  exact ⟨st', hdiv, z, hget, by decide, hv, by rw [hv]; decide⟩

end Plan9Port.Mp
