import Plan9Port.Mp.Signs

/-!
# Residues

`mpmod` of `libmp/port/mpmod.c`. The functions on integers that are in the store are stated here
with what they leave there: a reference `Holds` a number, and a call changes one reference only.

## Main results

* `holds_mpmul`, `holds_mpsub`, `holds_mpmod`: the arithmetic of what is held
* `mpmod_residue`: when the remainder is the least residue
-/

namespace Plan9Port.Mp

open Int

/-! ## What the references hold -/

/-- The number that `r` refers to is in normal form and has the value `n`. -/
def Holds (st : Store) (r : Ref) (n : Int) : Prop :=
  ∃ z, st.get r = some z ∧ z.Normal ∧ z.value = n

/-- Every reference that is not in `rs` refers to what it did. -/
def Keeps (rs : List Ref) (st st' : Store) : Prop := ∀ x, x ∉ rs → st'.get x = st.get x

section Holds

variable {st st' st'' : Store} {r b1 b2 : Ref} {rs ss : List Ref} {m n : Int} {z : Mpint}

theorem Holds.live (h : Holds st r n) : ∃ z, st.get r = some z := h.imp fun _ h => h.1

theorem Holds.keeps (h : Holds st r n) (hk : Keeps rs st st') (hr : r ∉ rs) : Holds st' r n := by
  obtain ⟨z, hz, hnormal, hvalue⟩ := h
  exact ⟨z, (hk r hr).trans hz, hnormal, hvalue⟩

theorem Keeps.get {s : Ref} (hk : Keeps [s] st st') (hr : r ≠ s) : st'.get r = st.get r :=
  hk r (by simpa using hr)

theorem Holds.keep {s : Ref} (h : Holds st r n) (hk : Keeps [s] st st') (hr : r ≠ s) :
    Holds st' r n :=
  h.keeps hk (by simpa using hr)

theorem Keeps.trans (h : Keeps rs st st') (h' : Keeps rs st' st'') : Keeps rs st st'' :=
  fun x hx => (h' x hx).trans (h x hx)

theorem Keeps.mono (h : Keeps rs st st') (hsub : rs ⊆ ss) : Keeps ss st st' :=
  fun x hx => h x fun hmem => hx (hsub hmem)

theorem keeps_set (st : Store) (r : Ref) (z : Mpint) : Keeps [r] st (st.set r z) :=
  fun _ hx => Heap.get_set_of_ne st z (List.ne_of_not_mem_cons hx)

theorem holds_set (hz : st.get r = some z) {s : Mpint} (hs : s.Normal) (hv : s.value = n) :
    Holds (st.set r s) r n :=
  ⟨s, Heap.get_set_self hz, hs, hv⟩

section Arithmetic

variable (h₁ : Holds st b1 m) (h₂ : Holds st b2 n) (hz : st.get r = some z)
include h₁ h₂ hz

theorem holds_mpmul :
    ∃ st', mpmul b1 b2 r st = some st' ∧ Holds st' r (m * n) ∧ Keeps [r] st st' := by
  obtain ⟨x, hx, -, rfl⟩ := h₁
  obtain ⟨y, hy, -, rfl⟩ := h₂
  obtain ⟨s, hs, hnormal, hvalue⟩ := mpmul_spec hx hy hz
  exact ⟨_, hs, holds_set hz hnormal hvalue, keeps_set st r s⟩

theorem holds_mpsub :
    ∃ st', mpsub b1 b2 r st = some st' ∧ Holds st' r (m - n) ∧ Keeps [r] st st' := by
  obtain ⟨x, hx, hxn, rfl⟩ := h₁
  obtain ⟨y, hy, hyn, rfl⟩ := h₂
  obtain ⟨s, hs, hnormal, hvalue, -⟩ := mpsub_spec hx hy hz hxn hyn
  exact ⟨_, hs, holds_set hz hnormal hvalue, keeps_set st r s⟩

end Arithmetic

theorem live_some (hz : st.get r = some z) : Live st (some r) := by
  rintro x ⟨⟩
  exact ⟨z, hz⟩

/-- A number that is held and not negative has the sign +1. -/
theorem Mpint.Normal.sign_of_nonneg (h : z.Normal) (hz : 0 ≤ z.value) : z.sign = 1 :=
  (sign_cases z.sign).resolve_right fun hs => absurd (h.value_neg.mpr hs) (not_lt.mpr hz)

/-- A division of numbers that are not negative, into two other objects, of which the one for the
quotient has no sign. -/
theorem holds_mpdiv {q : Ref} {k : Int} (h₁ : Holds st b1 m) (h₂ : Holds st b2 n) (hm : 0 ≤ m)
    (hn : 0 < n) (hq : Holds st q k) (hk : 0 ≤ k) (hr : st.get r = some z) (hne : q ≠ r) :
    ∃ st', mpdiv b1 b2 (some q) (some r) st = some st' ∧ Holds st' q (m / n) ∧
      Holds st' r (m % n) ∧ Keeps [q, r] st st' := by
  obtain ⟨x, hx, hxn, rfl⟩ := h₁
  obtain ⟨y, hy, hyn, rfl⟩ := h₂
  obtain ⟨w, hw, hwn, rfl⟩ := hq
  have hxs := hxn.sign_of_nonneg hm
  have hys := hyn.sign_of_nonneg hn.le
  have hright : SignsRight st b1 (some q) (some r) x y := by
    refine ⟨?_, fun _ _ _ => .inl (hxs.trans hys.symm)⟩
    rintro _ w' ⟨⟩ hw' -
    obtain rfl := Option.some.inj (hw.symm.trans hw')
    exact hwn.sign_of_nonneg hk
  obtain ⟨st', hdiv, hquo, hrem, hother⟩ := mpdiv_rounds hx hy (live_some hw) (live_some hr)
    (by rintro _ ⟨⟩ h; exact hne (Option.some.inj h).symm) hxn hyn hn.ne' (.inr hright)
  obtain ⟨w', hw', hwn', hwv, -⟩ := hquo q rfl
  obtain ⟨z', hz', hzt, hzv, hzs⟩ := hrem r rfl
  rw [hxs, ite_self] at hzs
  rw [tdiv_eq_ediv_of_nonneg hm] at hwv
  rw [tmod_eq_emod_of_nonneg hm] at hzv
  refine ⟨st', hdiv, ⟨w', hw', hwn', hwv⟩, ⟨z', hz', ⟨hzt, fun _ => hzs⟩, hzv⟩,
    fun x hx => hother x ?_ ?_⟩
  · rintro ⟨⟩
    exact hx (.head _)
  · rintro ⟨⟩
    exact hx (by simp)

end Holds

/-! ## Residues -/

/-- `remainder = b mod m`. -/
def mpmod (b m remainder : Ref) (st : Store) : Option Store := do
  let st ← mpdiv b m none (some remainder) st
  let r ← st.get remainder
  if (r.sign : Int) < 0 then mpadd m remainder remainder st else return st

section Mod

variable {st : Store} {b m r : Ref} {x y z : Mpint}

section Residue

variable (hx : st.get b = some x) (hy : st.get m = some y) (hz : st.get r = some z)
  (hxn : x.Normal) (hyn : y.Normal) (hpos : 0 < y.value) (hrm : r ≠ m)
include hx hy hz hxn hyn hpos hrm

/-- The remainder of a negative multiple of the modulus is -0, if it is not stored in the place of
the number, and the modulus is added to it. -/
theorem mpmod_cases :
    ∃ st', mpmod b m r st = some st' ∧ Keeps [r] st st' ∧ Holds st' r
      (if r ≠ b ∧ x.value < 0 ∧ y.value ∣ x.value then y.value else x.value % y.value) := by
  have hright : SignsRight st b none (some r) x y :=
    ⟨by rintro _ _ ⟨⟩, fun _ _ h => by cases h⟩
  obtain ⟨st', hdiv, -, hrem, hother⟩ := @mpdiv_rounds st b m none (some r) x y hx
    hy (by rintro _ ⟨⟩) (live_some hz) (by rintro _ ⟨⟩) hxn hyn hpos.ne' (.inr hright)
  obtain ⟨s, hs, hst, hsv, hsign⟩ := hrem r rfl
  have hkeeps : Keeps [r] st st' := fun w hw => hother w (by simp) (by simpa [eq_comm] using hw)
  have hmod : x.value % y.value = x.value.tmod y.value % y.value := by
    conv_lhs => rw [← tmod_add_mul_tdiv x.value y.value]
    rw [add_mul_emod_self_left]
  have hdvd : y.value ∣ x.value ↔ s.mag = 0 := by
    rw [dvd_iff_tmod_eq_zero, ← hsv, Mpint.value]
    rcases sign_cases s.sign with h | h <;> simp [h]
  have hlow : -y.value < s.value := hsv ▸ lt_tmod_of_pos _ hpos
  have hhigh : s.value < y.value := hsv ▸ tmod_lt_of_pos _ hpos
  have hval : s.value = s.sign * s.mag := rfl
  simp only [mpmod, hdiv, hs, Lib.some_bind]
  rcases sign_cases s.sign with hss | hss
  · rw [hss, if_neg (by decide)]
    refine ⟨st', rfl, hkeeps, s, hs, ⟨hst, fun _ => hss⟩, ?_⟩
    rw [hss, Units.val_one, one_mul] at hval
    rw [if_neg, hmod, ← hsv, emod_eq_of_lt (by omega) hhigh]
    rintro ⟨hrb, hneg, -⟩
    rw [if_neg fun h => hrb (Option.some.inj h.1), hss] at hsign
    exact absurd (hxn.value_neg.mp hneg) (by rw [← hsign]; decide)
  · rw [hss, if_pos (by decide)]
    obtain ⟨s', hadd, hnormal, hsum, -⟩ := mpadd_spec ((hkeeps.get hrm.symm).trans hy) hs hs
      hyn.trimmed hst
    refine ⟨_, hadd, hkeeps.trans (keeps_set st' r s'), holds_set hs hnormal ?_⟩
    have hneg : x.sign = -1 := by
      rw [hss] at hsign
      split at hsign
      · exact absurd hsign (by decide)
      · exact hsign.symm
    rw [hss, Units.val_neg, Units.val_one] at hval
    rw [hsum]
    by_cases h0 : s.mag = 0
    · have hrb : r ≠ b := by
        rintro rfl
        rw [if_pos ⟨rfl, h0⟩, hss] at hsign
        exact absurd hsign (by decide)
      rw [if_pos ⟨hrb, hxn.value_neg.mpr hneg, hdvd.mpr h0⟩]
      omega
    · rw [if_neg fun h => h0 (hdvd.mp h.2.2), hmod, ← hsv, ← add_emod_left,
        emod_eq_of_lt (by omega) (by omega)]

/-- The residue, unless the remainder of a negative number would be 0 and is not stored in its
place. -/
theorem holds_mpmod (hzero : r = b ∨ 0 ≤ x.value ∨ ¬ y.value ∣ x.value) :
    ∃ st', mpmod b m r st = some st' ∧ Holds st' r (x.value % y.value) ∧ Keeps [r] st st' := by
  obtain ⟨st', hmod, hk, hr⟩ := mpmod_cases hx hy hz hxn hyn hpos hrm
  rw [if_neg] at hr
  · exact ⟨st', hmod, hr, hk⟩
  · rintro ⟨hrb, hneg, hdvd⟩
    rcases hzero with h | h | h
    · exact hrb h
    · exact absurd hneg (not_lt.mpr h)
    · exact h hdvd

/-- **Residues.** The remainder is the least residue, in another object than the number or in its
place, except for a negative multiple of the modulus, which has to be in its place. -/
theorem mpmod_residue :
    (∃ st' s, mpmod b m r st = some st' ∧ st'.get r = some s ∧ s.Normal ∧ 0 ≤ s.value ∧
      s.value < y.value ∧ s.value ≡ x.value [ZMOD y.value] ∧
      ∀ w, w ≠ r → st'.get w = st.get w) ↔
    r = b ∨ 0 ≤ x.value ∨ ¬ y.value ∣ x.value := by
  constructor
  · rintro ⟨st'', s', hmod', hs', -, -, hlt, -⟩
    obtain ⟨st', hmod, -, s, hs, -, hsv⟩ := mpmod_cases hx hy hz hxn hyn hpos hrm
    obtain rfl := Option.some.inj (hmod'.symm.trans hmod)
    obtain rfl := Option.some.inj (hs'.symm.trans hs)
    by_contra hfail
    rw [if_pos (by simpa using hfail)] at hsv
    omega
  · intro hzero
    obtain ⟨st', hmod, ⟨s, hs, hsn, hsv⟩, hk⟩ := holds_mpmod hx hy hz hxn hyn hpos hrm hzero
    refine ⟨st', s, hmod, hs, hsn, ?_, ?_, ?_, fun w hw => hk w (by simpa using hw)⟩
    · rw [hsv]
      exact emod_nonneg _ hpos.ne'
    · rw [hsv]
      exact emod_lt_of_pos _ hpos
    · rw [hsv]
      exact mod_modEq _ _

end Residue

/-- The residue of -7 modulo 2. -/
theorem mpmod_residue_negative :
    ∃ st' s, mpmod 0 1 2 sevenByTwo = some st' ∧ st'.get 2 = some s ∧ 0 ≤ s.value ∧ s.value < 2 ∧
      s.value ≡ -7 [ZMOD 2] := by
  obtain ⟨st', s, hmod, hs, -, h0, hlt, heq, -⟩ := @mpmod_residue sevenByTwo 0 1 2
    ⟨-1, 1, [7], by decide⟩ ⟨1, 1, [2], by decide⟩ mpone rfl rfl rfl (by decide) (by decide)
    (by decide) (by decide) |>.mpr (.inr (.inr (by decide)))
  exact ⟨st', s, hmod, hs, h0, hlt, heq⟩

/-- The residue of -1 modulo 1, in a new object, is 1. -/
theorem mpmod_negative_multiple :
    ∃ st' s, mpmod 0 1 2 ⟨[some (mpone.withSign (-1)), some mpone, some (mpnew 0)]⟩ = some st' ∧
      st'.get 2 = some s ∧ (mpone.withSign (-1)).Normal ∧ mpone.Normal ∧ s.value = mpone.value := by
  have hrun : ((mpmod 0 1 2 ⟨[some (mpone.withSign (-1)), some mpone, some (mpnew 0)]⟩).bind
      (Heap.get · 2)).map Mpint.value = some mpone.value := by decide +kernel
  obtain ⟨s, hs, hv⟩ := Option.map_eq_some_iff.mp hrun
  obtain ⟨st', hmod, hget⟩ := Option.bind_eq_some_iff.mp hs
  exact ⟨st', s, hmod, hget, by decide, by decide, hv⟩

end Mod

end Plan9Port.Mp
