import Plan9Port.Diff.Io
import Plan9Port.Diff.Match

/-!
# Changes

The changes that `output` reports for a match vector turn the first file into what they tell: the
second file, but for the lines that are matched, which are those of the first file, and for what was
not read. The lines that were passed by the loop are settled, and the changes for those that were
not replace what is between two matches.

## Main results

* `exists_tells`: there is such a text
* `Tells.apply_changes`: the changes lead from the first file to what they tell
-/

namespace Plan9Port.Diff

open List

open Function

variable {α : Type}

/-- Lines are replaced by lines of the second file. -/
def Change.apply (new : List α) (ch : Change) (text : List α) : List α :=
  text.take (ch.a - 1) ++ (new.take ch.d.toNat).drop (ch.c.toNat - 1) ++ text.drop ch.b

/-- All the changes, from the end of the file on, which is the order of the mode `e`. -/
def apply (mode : Mode) (old new : List α) (cs : List Change) : List α :=
  match mode with
  | .other => cs.foldr (Change.apply new) old
  | .ed => cs.foldl (fun text ch => ch.apply new text) old

variable {old new told : List α} {m n i p q i' : Nat} {J J' : Nat → Int}

/-- What the changes tell for a match vector of the first `m` and `n` lines: a line that is matched
is that of the first file, the others are those of the second one, and the lines after them are not
changed. -/
structure Tells (old new : List α) (m n : Nat) (J : Nat → Int) (told : List α) : Prop where
  le : m ≤ old.length
  le' : n ≤ told.length
  increasing : ∀ t t', 1 ≤ t → t < t' → t' ≤ m → J t ≠ 0 → J t' ≠ 0 → J t < J t'
  mates : ∀ t, 1 ≤ t → t ≤ m → J t ≠ 0 → ∃ j : Nat, J t = j ∧ 1 ≤ j ∧ j ≤ n ∧
    old[t - 1]? = told[j - 1]?
  others : ∀ k, k < n → (∀ t, 1 ≤ t → t ≤ m → J t ≠ k + 1) → told[k]? = new[k]?
  rest : told.drop n = old.drop m

/-- A match vector that keeps the order of the lines tells a text. -/
theorem exists_tells (hm : m ≤ old.length) (hn : n ≤ new.length)
    (hincreasing : ∀ t t', 1 ≤ t → t < t' → t' ≤ m → J t ≠ 0 → J t' ≠ 0 → J t < J t')
    (hmates : ∀ t, 1 ≤ t → t ≤ m → J t ≠ 0 → ∃ j : Nat, J t = j ∧ 1 ≤ j ∧ j ≤ n) :
    ∃ told, Tells old new m n J told := by
  have hline : ∀ k : Fin n, ∃ l, (∀ t, 1 ≤ t → t ≤ m → J t = k + 1 → old[t - 1]? = some l) ∧
      ((∀ t, 1 ≤ t → t ≤ m → J t ≠ k + 1) → some l = new[k]?) := by
    intro k
    by_cases h : ∃ t, (1 ≤ t ∧ t ≤ m) ∧ J t = k + 1
    · obtain ⟨t, ⟨ht, htm⟩, hJ⟩ := h
      refine ⟨old[t - 1], fun t' ht' htm' hJ' => ?_, fun hne => absurd hJ (hne t ht htm)⟩
      -- no other line has this mate
      have hle : t' ≤ t := by
        by_contra hlt
        have := hincreasing t t' ht (by omega) htm' (by omega) (by omega)
        omega
      have hge : t ≤ t' := by
        by_contra hlt
        have := hincreasing t' t ht' (by omega) htm (by omega) (by omega)
        omega
      rw [Nat.le_antisymm hle hge, getElem?_eq_getElem]
    · refine ⟨new[k], fun t ht htm hJ => absurd ⟨t, ⟨ht, htm⟩, hJ⟩ h, fun _ => ?_⟩
      exact (getElem?_eq_getElem _).symm
  choose line hmate hother using hline
  have hget : ∀ k, (hk : k < n) → (ofFn line ++ old.drop m)[k]? = some (line ⟨k, hk⟩) := by
    intro k hk
    rw [getElem?_append_left (by rwa [length_ofFn]), List.getElem?_ofFn, dif_pos hk]
  refine ⟨ofFn line ++ old.drop m, hm, by simp, hincreasing, fun t ht htm hne => ?_,
    fun k hk hne => ?_, drop_left' (length_ofFn)⟩
  · obtain ⟨j, hj, hpos, hjn⟩ := hmates t ht htm hne
    refine ⟨j, hj, hpos, hjn, ?_⟩
    rw [hget (j - 1) (by omega)]
    exact hmate ⟨j - 1, by omega⟩ t ht htm (by rw [hj]; dsimp only; omega)
  · rw [hget k hk]
    exact hother ⟨k, hk⟩ hne

/-- The text in which the lines up to `i` are those of the first file, and those after `j` of the
other one follow. -/
def front (old told : List α) (i j : Nat) : List α := old.take i ++ told.drop j

section

variable {i0 i1 : Nat} (hi : i0 ≤ i1 + 1) (hi1 : i1 ≤ old.length) (hp : p ≤ q)
  (hq : q ≤ told.length) (hsame : ∀ k, p ≤ k → k < q → told[k]? = new[k]?)
include hi hi1 hp hq hsame

theorem Change.apply_front :
    (Change.mk i0 i1 (p + 1) q).apply new (front old told i1 q) = front old told (i0 - 1) p := by
  have hlen : (old.take i1).length = i1 := by rw [length_take, Nat.min_eq_left hi1]
  have htake : (front old told i1 q).take (i0 - 1) = old.take (i0 - 1) := by
    rw [front, take_append_of_le_length (by omega), take_take, Nat.min_eq_left (by omega)]
  have hdrop : (front old told i1 q).drop i1 = told.drop q := by
    rw [front]
    exact drop_left' hlen
  have hnew : (new.take q).drop p = (told.take q).drop p := by
    refine ext_getElem? fun k => ?_
    rw [getElem?_drop, getElem?_drop, getElem?_take, getElem?_take]
    split
    · next hk => exact (hsame (p + k) (by omega) hk).symm
    · rfl
  have hmid : (new.take q).drop p ++ told.drop q = told.drop p := by
    rw [hnew, ← drop_append_of_le_length (by rw [length_take]; omega), take_append_drop]
  rw [Change.apply]
  dsimp only
  rw [htake, hdrop, append_assoc]
  exact congrArg (old.take (i0 - 1) ++ ·) hmid

/-- Also if the change is not reported. -/
theorem foldr_change :
    (change i0 i1 (p + 1) q).foldr (Change.apply new) (front old told i1 q) =
      front old told (i0 - 1) p := by
  rw [change]
  split
  · next h =>
    obtain rfl : i0 = i1 + 1 := by omega
    obtain rfl : p = q := by omega
    rfl
  · exact Change.apply_front hi hi1 hp hq hsame

end

/-- A line that is matched may be taken from either file. -/
theorem front_step {j : Nat} (h : old[i]? = told[j]?) (hi : i < old.length) :
    front old told (i + 1) (j + 1) = front old told i j := by
  have hget := List.getElem?_eq_getElem hi
  have hj := h.symm.trans hget
  rw [front, front, List.take_add_one, hget, List.append_assoc,
    List.drop_eq_getElem_cons (List.getElem?_eq_some_iff.mp hj).1,
    (List.getElem?_eq_some_iff.mp hj).2]
  rfl

/-! ## The loop of output -/

/-- The lines before `i` are settled, and the last one of them is at `p` in the second file. -/
structure InStep (old new told : List α) (m n : Nat) (J : Nat → Int) (i p : Nat) : Prop where
  pos : 1 ≤ i
  le : i ≤ m + 1
  eq : J (i - 1) = p
  p_le : p ≤ n
  rest : ∀ t, i ≤ t → t ≤ m → J t ≠ 0 → ∃ j : Nat, J t = j ∧ p < j ∧ j ≤ n ∧
    old[t - 1]? = told[j - 1]?
  increasing : ∀ t t', i ≤ t → t < t' → t' ≤ m → J t ≠ 0 → J t' ≠ 0 → J t < J t'
  others : ∀ k, p ≤ k → k < n → (∀ t, i ≤ t → t ≤ m → J t ≠ k + 1) → told[k]? = new[k]?
  last : J (m + 1) = n + 1

theorem InStep.inStep (hm : m ≤ old.length) (fuel : Nat) (h : InStep old new told m n J i p)
    (hfuel : m + 1 ≤ i + fuel) :
    ∃ i' p', inStep J m fuel i = i' ∧ InStep old new told m n J i' p' ∧ i ≤ i' ∧
      front old told (i' - 1) p' = front old told (i - 1) p ∧
      (i ≤ m → J i = J (i - 1) + 1 → i < i') := by
  induction fuel generalizing i p with
  | zero => exact ⟨i, p, rfl, h, Nat.le_refl i, rfl, fun hi => by omega⟩
  | succ fuel ih =>
    rw [Diff.inStep]
    split
    · next hstep =>
      have hpos := h.pos
      have hJ : J i = p + 1 := by rw [hstep.2, h.eq]
      obtain ⟨j, hj, hpj, hjl, heq⟩ := h.rest i le_rfl hstep.1 (by omega)
      obtain rfl : j = p + 1 := by omega
      have hnext : InStep old new told m n J (i + 1) (p + 1) := by
        refine ⟨by omega, by omega, hj, hjl, fun t ht htl hne => ?_,
          fun t t' ht => h.increasing t t' (by omega), fun k hk hkn hother =>
            h.others k (by omega) hkn fun t ht htl => ?_, h.last⟩
        · obtain ⟨j, hj', -, hjl', heq'⟩ := h.rest t (by omega) htl hne
          have := h.increasing i t le_rfl (by omega) htl (by omega) hne
          exact ⟨j, hj', by omega, hjl', heq'⟩
        · rcases Nat.eq_or_lt_of_le ht with rfl | hlt
          · omega
          · exact hother t hlt htl
      obtain ⟨i', p', hi', hin, hle, hfront, -⟩ := ih hnext (by omega)
      refine ⟨i', p', hi', hin, by omega, ?_, fun _ _ => by omega⟩
      rw [hfront]
      have := front_step heq (by omega : i - 1 < old.length)
      rwa [Nat.sub_add_cancel hpos, Nat.add_sub_cancel] at this
    · next hnot =>
      exact ⟨i, p, rfl, h, Nat.le_refl i, rfl, fun hi hstep => absurd ⟨hi, hstep⟩ hnot⟩

theorem unmatched_spec (J : Nat → Int) (m fuel i : Nat) (hi : i ≤ m) (hfuel : m ≤ i + fuel) :
    ∃ i', unmatched J m fuel i = i' ∧ i ≤ i' ∧ i' ≤ m ∧ (i' < m → J (i' + 1) ≠ 0) ∧
      ∀ t, i < t → t ≤ i' → J t = 0 := by
  induction fuel generalizing i with
  | zero => exact ⟨i, rfl, Nat.le_refl i, hi, fun h => by omega, fun t ht hti => by omega⟩
  | succ fuel ih =>
    rw [unmatched]
    split
    · next h =>
      obtain ⟨i', hi', hle, hm, hne, hzero⟩ := ih (i + 1) (by omega) (by omega)
      refine ⟨i', hi', by omega, hm, hne, fun t ht hti => ?_⟩
      rcases Nat.eq_or_lt_of_le ht with rfl | hlt
      · exact h.2
      · exact hzero t hlt hti
    · next h =>
      exact ⟨i, rfl, Nat.le_refl i, hi, fun hlt hz => h ⟨hlt, hz⟩, fun t ht hti => by omega⟩

/-- A change settles the lines up to the next match. -/
theorem InStep.change (h : InStep old new told m n J i p) (hi : i ≤ i' + 1) (hl : i' ≤ m)
    (hne : i' < m → J (i' + 1) ≠ 0) (hzero : ∀ t, i ≤ t → t ≤ i' → J t = 0) :
    ∃ q : Nat, J (i' + 1) - 1 = q ∧ p ≤ q ∧
      InStep old new told m n (update J i' (J (i' + 1) - 1)) (i' + 1) q ∧
      (i' = m → q = n) ∧ ∀ k, p ≤ k → k < q → told[k]? = new[k]? := by
  have hple := h.p_le
  have hskip : ∀ k, p ≤ k → k < n → (∀ t, i' + 1 ≤ t → t ≤ m → J t ≠ k + 1) →
      told[k]? = new[k]? := by
    intro k hk hkn hafter
    refine h.others k hk hkn fun t ht htl => ?_
    by_cases hti : t ≤ i'
    · rw [hzero t ht hti]
      omega
    · exact hafter t (by omega) htl
  have hother : ∀ t, i' + 1 ≤ t → update J i' (J (i' + 1) - 1) t = J t :=
    fun t ht => update_of_ne (by omega) _ _
  have hlast : update J i' (J (i' + 1) - 1) (m + 1) = n + 1 := by
    rw [hother _ (by omega)]
    exact h.last
  rcases Nat.eq_or_lt_of_le hl with rfl | hlt
  · refine ⟨n, by rw [h.last]; omega, hple, ⟨by omega, le_rfl, ?_, le_rfl,
      fun t ht htl => by omega, fun t t' ht htt' htl => by omega,
      fun k hk hkn => absurd hkn (Nat.not_lt.mpr hk), hlast⟩, fun _ => rfl,
      fun k hk hkn => hskip k hk hkn fun t ht htl => by omega⟩
    rw [Nat.add_sub_cancel, update_self, h.last]
    omega
  · obtain ⟨j, hj, hpj, hjl, -⟩ := h.rest (i' + 1) (by omega) hlt (hne hlt)
    have hafter : ∀ t, i' + 1 ≤ t → t ≤ m → J t ≠ 0 → (j : Int) ≤ J t := by
      intro t ht htl htne
      rcases Nat.eq_or_lt_of_le ht with rfl | hlt'
      · omega
      · have := h.increasing (i' + 1) t (by omega) hlt' htl (hne hlt) htne
        omega
    refine ⟨j - 1, by omega, by omega, ⟨by omega, by omega, ?_, by omega, fun t ht htl htne => ?_,
      fun t t' ht htt' htl => ?_, fun k hk hkn hk' => ?_, hlast⟩, fun h => by omega,
      fun k hk hkj => hskip k hk (by omega) fun t ht htl hJ => ?_⟩
    · rw [Nat.add_sub_cancel, update_self]
      omega
    · rw [hother t ht] at htne ⊢
      obtain ⟨j', hj', -, hjl', heq'⟩ := h.rest t (by omega) htl htne
      have := hafter t ht htl htne
      exact ⟨j', hj', by omega, hjl', heq'⟩
    · rw [hother t ht, hother t' (by omega)]
      exact h.increasing t t' (by omega) htt' htl
    · refine hskip k (by omega) hkn fun t ht htl => ?_
      rw [← hother t ht]
      exact hk' t ht htl
    · have := hafter t ht htl (by omega)
      omega

/-- The changes from the line `i` on lead from the first file to what is told. -/
theorem InStep.output (hm : m ≤ old.length) (hn : n ≤ told.length)
    (htail : told.drop n = old.drop m) (fuel : Nat) (h : InStep old new told m n J i p)
    (hend : m < i → p = n)
    (hfuel : 2 * (m + 1 - i) + (if J i = J (i - 1) + 1 then 0 else 1) < fuel) :
    (output m fuel i J).foldr (Change.apply new) old = front old told (i - 1) p := by
  induction fuel generalizing i p J with
  | zero => omega
  | succ fuel ih =>
    rw [Diff.output]
    split
    · next hi =>
      obtain ⟨i0, p0, hi0, hin, hle, hfront, hadv⟩ := h.inStep hm (m + 1) (by omega)
      have hile := hin.le
      obtain ⟨i1, hi1, hle1, hl1, hne, hzero⟩ :=
        unmatched_spec J m m (i0 - 1) (by omega) (by omega)
      obtain ⟨q, hq, hpq, hin', hend', hsame⟩ :=
        hin.change (by omega) hl1 hne fun t ht => hzero t (Nat.sub_one_lt_of_le hin.pos ht)
      dsimp only
      rw [hi0, hi1, hin.eq, foldr_append, ← hfront]
      have hrest := ih hin' (fun hlt => hend' (by omega)) ?_
      · rw [hrest, Nat.add_sub_cancel, hq]
        exact foldr_change (by omega) (by omega) hpq (hin'.p_le.trans hn) hsame
      -- a line is passed, or the next one is in step
      have hstep : i1 < m → update J i1 (J (i1 + 1) - 1) (i1 + 1) =
          update J i1 (J (i1 + 1) - 1) (i1 + 1 - 1) + 1 := by
        intro _
        rw [Nat.add_sub_cancel, update_self, update_of_ne (by omega)]
        omega
      by_cases hlast : i1 = m
      · split_ifs at hfuel ⊢ <;> omega
      · rw [if_pos (hstep (by omega))]
        split_ifs at hfuel with hJ
        · omega
        · omega
    · next hi =>
      have hile := h.le
      obtain rfl : i = m + 1 := by omega
      rw [hend (by omega), front, Nat.add_sub_cancel, htail, take_append_drop]
      rfl

/-! ## The loop of output for ed -/

/-- The lines after `i` are settled, and the first one of them comes after `q` lines of the second
file. -/
structure InStepEd (old new told : List α) (m n : Nat) (J : Nat → Int) (i q : Nat) : Prop where
  le : i ≤ m
  eq : J (i + 1) = q + 1
  q_le : q ≤ n
  rest : ∀ t, 1 ≤ t → t ≤ i → J t ≠ 0 → ∃ j : Nat, J t = j ∧ 1 ≤ j ∧ j ≤ q ∧
    old[t - 1]? = told[j - 1]?
  increasing : ∀ t t', 1 ≤ t → t < t' → t' ≤ i → J t ≠ 0 → J t' ≠ 0 → J t < J t'
  others : ∀ k, k < q → (∀ t, 1 ≤ t → t ≤ i → J t ≠ k + 1) → told[k]? = new[k]?
  first : J 0 = 0

theorem InStepEd.inStepEd (hm : m ≤ old.length) (h : InStepEd old new told m n J i q) :
    ∃ i' q', inStepEd J i = i' ∧ InStepEd old new told m n J i' q' ∧ i' ≤ i ∧
      front old told i' q' = front old told i q ∧
      (1 ≤ i → J i = J (i + 1) - 1 → J i ≠ 0 → i' < i) := by
  induction i generalizing q with
  | zero => exact ⟨0, q, rfl, h, Nat.le_refl 0, rfl, fun h => by omega⟩
  | succ i ih =>
    rw [Diff.inStepEd]
    split
    · next hstep =>
      have heq : J (i + 2) = q + 1 := h.eq
      obtain ⟨j, hj, hpos, hjq, hline⟩ := h.rest (i + 1) (by omega) le_rfl hstep.2
      obtain rfl : j = q := by omega
      obtain _ | q := j
      · omega
      have hile := h.le
      have hqle := h.q_le
      have hnext : InStepEd old new told m n J i q := by
        refine ⟨by omega, by exact_mod_cast hj, by omega, fun t ht hti hne => ?_,
          fun t t' ht htt' hti => h.increasing t t' ht htt' (by omega), fun k hk hother =>
            h.others k (by omega) fun t ht hti => ?_, h.first⟩
        · obtain ⟨j, hj', hpos', -, hline'⟩ := h.rest t ht (by omega) hne
          have := h.increasing t (i + 1) ht (by omega) le_rfl hne (by omega)
          exact ⟨j, hj', hpos', by omega, hline'⟩
        · rcases Nat.eq_or_lt_of_le hti with rfl | hlt
          · omega
          · exact hother t ht (by omega)
      obtain ⟨i', q', hi', hin, hle, hfront, -⟩ := ih hnext
      refine ⟨i', q', hi', hin, by omega, ?_, fun _ _ _ => by omega⟩
      rw [hfront]
      exact (front_step hline (by omega)).symm
    · next hnot =>
      exact ⟨i + 1, q, rfl, h, le_rfl, rfl, fun _ hstep hne => absurd ⟨hstep, hne⟩ hnot⟩

theorem unmatchedEd_spec (J : Nat → Int) (i : Nat) :
    ∃ i', unmatchedEd J i = i' + 1 ∧ i' ≤ i ∧ (1 ≤ i' → J i' ≠ 0) ∧
      ∀ t, i' < t → t ≤ i → J t = 0 := by
  induction i with
  | zero => exact ⟨0, rfl, Nat.le_refl 0, fun h => by omega, fun t ht hti => by omega⟩
  | succ i ih =>
    rw [unmatchedEd]
    split
    · next h =>
      obtain ⟨i', hi', hle, hne, hzero⟩ := ih
      refine ⟨i', hi', by omega, hne, fun t ht hti => ?_⟩
      rcases Nat.eq_or_lt_of_le hti with rfl | hlt
      · exact h
      · exact hzero t ht (by omega)
    · next hne => exact ⟨i + 1, rfl, le_rfl, fun _ => hne, fun t ht hti => by omega⟩

/-- A change settles the lines down to the next match. -/
theorem InStepEd.change (h : InStepEd old new told m n J i q) (hi : i' ≤ i)
    (hne : 1 ≤ i' → J i' ≠ 0) (hzero : ∀ t, i' < t → t ≤ i → J t = 0) :
    ∃ p : Nat, J i' = p ∧ p ≤ q ∧ InStepEd old new told m n (update J (i' + 1) (J i' + 1)) i' p ∧
      (i' = 0 → p = 0) ∧ ∀ k, p ≤ k → k < q → told[k]? = new[k]? := by
  have hile := h.le
  have hqle := h.q_le
  have hskip : ∀ k, k < q → (∀ t, 1 ≤ t → t ≤ i' → J t ≠ k + 1) → told[k]? = new[k]? := by
    intro k hk hbefore
    refine h.others k hk fun t ht hti => ?_
    by_cases hti' : t ≤ i'
    · exact hbefore t ht hti'
    · rw [hzero t (by omega) hti]
      omega
  have hother : ∀ t, t ≤ i' → update J (i' + 1) (J i' + 1) t = J t :=
    fun t ht => update_of_ne (by omega) _ _
  have hfirst : update J (i' + 1) (J i' + 1) 0 = 0 := (hother 0 (Nat.zero_le _)).trans h.first
  rcases Nat.eq_zero_or_pos i' with rfl | hpos
  · refine ⟨0, h.first, Nat.zero_le _, ⟨Nat.zero_le _, ?_, Nat.zero_le _, fun t ht hti => by omega,
      fun t t' ht htt' hti => by omega, fun k hk => absurd hk (Nat.not_lt_zero k), hfirst⟩,
      fun _ => rfl, fun k _ hk => hskip k hk fun t ht hti => by omega⟩
    rw [update_self, h.first]
    rfl
  · obtain ⟨j, hj, hjpos, hjq, -⟩ := h.rest i' hpos hi (hne hpos)
    have hbefore : ∀ t, 1 ≤ t → t ≤ i' → J t ≠ 0 → J t ≤ j := by
      intro t ht hti htne
      rcases Nat.eq_or_lt_of_le hti with rfl | hlt'
      · omega
      · have := h.increasing t i' ht hlt' hi htne (hne hpos)
        omega
    refine ⟨j, hj, hjq, ⟨by omega, ?_, by omega, fun t ht hti htne => ?_,
      fun t t' ht htt' hti => ?_, fun k hk hk' => ?_, hfirst⟩, fun h => by omega,
      fun k hk hkq => hskip k hkq fun t ht hti hJ => ?_⟩
    · rw [update_self, hj]
    · rw [hother t hti] at htne ⊢
      obtain ⟨j', hj', hjpos', -, heq'⟩ := h.rest t ht (by omega) htne
      have := hbefore t ht hti htne
      exact ⟨j', hj', hjpos', by omega, heq'⟩
    · rw [hother t (by omega), hother t' hti]
      exact h.increasing t t' ht htt' (by omega)
    · refine hskip k (by omega) fun t ht hti => ?_
      rw [← hother t hti]
      exact hk' t ht hti
    · have := hbefore t ht hti (by omega)
      omega

theorem foldl_change (i0 i1 : Nat) (c d : Int) (text : List α) :
    (change i0 i1 c d).foldl (fun text ch => ch.apply new text) text =
      (change i0 i1 c d).foldr (Change.apply new) text := by
  rw [change]
  split <;> rfl

theorem InStepEd.outputEd (hm : m ≤ old.length) (hn : n ≤ told.length) (fuel : Nat)
    (h : InStepEd old new told m n J i q) (hend : i = 0 → q = 0)
    (hfuel : 2 * i + (if J i = J (i + 1) - 1 ∧ J i ≠ 0 then 0 else 1) < fuel) :
    (outputEd fuel i J).foldl (fun text ch => ch.apply new text) (front old told i q) = told := by
  induction fuel generalizing i q J with
  | zero => omega
  | succ fuel ih =>
    rw [Diff.outputEd]
    split
    · next hi =>
      obtain ⟨i0, q0, hi0, hin, hle, hfront, hadv⟩ := h.inStepEd hm
      obtain ⟨i1, hi1, hle1, hne, hzero⟩ := unmatchedEd_spec J i0
      obtain ⟨p, hp, hpq, hin', hend', hsame⟩ := hin.change hle1 hne hzero
      have heq : J (i0 + 1) - 1 = q0 := by
        rw [hin.eq]
        omega
      dsimp only
      rw [hi0, hi1, Nat.add_sub_cancel, foldl_append, ← hfront, foldl_change, heq, hp,
        foldr_change (by omega) (hin.le.trans hm) hpq (hin.q_le.trans hn) hsame,
        Nat.add_sub_cancel, ← hp]
      refine ih hin' hend' ?_
      by_cases hzero : i1 = 0
      · split_ifs at hfuel ⊢ <;> omega
      have hstep : update J (i1 + 1) (J i1 + 1) i1 =
          update J (i1 + 1) (J i1 + 1) (i1 + 1) - 1 ∧
          update J (i1 + 1) (J i1 + 1) i1 ≠ 0 := by
        rw [update_self, update_of_ne (by omega)]
        exact ⟨by omega, hne (by omega)⟩
      rw [if_pos hstep]
      split_ifs at hfuel with hJ
      · omega
      · omega
    · next hi =>
      obtain rfl : i = 0 := by omega
      rw [hend rfl]
      rfl

/-! ## The changes of a match vector -/

/-- Only the matches of the lines that were read matter. -/
theorem Tells.congr (h : Tells old new m n J told) (heq : ∀ t, 1 ≤ t → t ≤ m → J' t = J t) :
    Tells old new m n J' told where
  le := h.le
  le' := h.le'
  increasing t t' ht htt' htm := by
    rw [heq t ht (by omega), heq t' (by omega) htm]
    exact h.increasing t t' ht htt' htm
  mates t ht htm := by
    rw [heq t ht htm]
    exact h.mates t ht htm
  others k hk hJ' := h.others k hk fun t ht htm => by
    rw [← heq t ht htm]
    exact hJ' t ht htm
  rest := h.rest

/-- The changes that are reported lead from the first file to what they tell. -/
theorem Tells.apply_changes (h : Tells old new m n J told) (mode : Mode) :
    apply mode old new (changes mode m n J) = told := by
  have hm := h.le
  have hn := h.le'
  have hfront : front old told m n = old := by rw [front, h.rest, take_append_drop]
  rcases Nat.eq_zero_or_pos m with rfl | hpos
  · -- nothing was read of the first file
    have hchange : (change 1 0 1 n).foldr (Change.apply new) old = told := by
      have := foldr_change (by omega : 1 ≤ 0 + 1) hm (Nat.zero_le n) hn
        fun k _ hk => h.others k hk fun t ht htm => by omega
      rw [hfront] at this
      exact this
    cases mode with
    | other => simpa [apply, changes, output] using hchange
    | ed => simpa [apply, changes, outputEd, foldl_change] using hchange
  obtain ⟨K, hK⟩ : ∃ K, K = update (update J 0 0) (m + 1) (n + 1 : Int) := ⟨_, rfl⟩
  have hKJ : ∀ t, 1 ≤ t → t ≤ m → K t = J t := by
    intro t ht htm
    rw [hK, update_of_ne (by omega), update_of_ne (by omega)]
  have hfirst : K 0 = 0 := by rw [hK, update_of_ne (by omega), update_self]
  have hlast : K (m + 1) = n + 1 := by rw [hK, update_self]
  have hK' := h.congr hKJ
  cases mode with
  | other =>
    rw [apply, changes, if_neg (by omega), append_nil, ← hK]
    have hin : InStep old new told m n K 1 0 :=
      ⟨Nat.le_refl 1, by omega, hfirst, Nat.zero_le _, hK'.mates, hK'.increasing,
        fun k _ => hK'.others k, hlast⟩
    exact hin.output hm hn h.rest _ (fun hlt => by omega) (by split_ifs <;> omega)
  | ed =>
    rw [apply, changes, if_neg (by omega), append_nil, ← hK]
    have hin : InStepEd old new told m n K m n :=
      ⟨le_rfl, hlast, le_rfl, hK'.mates, hK'.increasing, hK'.others, hfirst⟩
    have := hin.outputEd hm hn (2 * m + 2) (fun hz => by omega) (by split_ifs <;> omega)
    rwa [hfront] at this

end Plan9Port.Diff
