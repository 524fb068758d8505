import Plan9Port.Diff.Classes

/-!
# Candidates

A line of the first file is compared with all the lines of its class. What the candidates say after
it follows from what they said before: a length can be reached if it could be reached before, or if
a line of the class comes after a candidate that is shorter by one.

## Main results

* `search_spec`: the candidate that a line replaces
* `stoneLine_spec`: what the inner loop of `stone` does
-/

namespace Plan9Port.Diff

open List

open Function

/-! ## Chains -/

/-- The pairs of a candidate and of those before it, the last one first. -/
inductive Chain (clist : List Cand) : Nat → List (Nat × Nat) → Prop
  | nil {p : Nat} : clist[p]? = some ⟨0, 0, 0⟩ → Chain clist p []
  | cons {p pred x y : Nat} {ps : List (Nat × Nat)} : clist[p]? = some ⟨x, y, pred⟩ → 0 < y →
      Chain clist pred ps → Chain clist p ((x, y) :: ps)

variable {p : Nat}

theorem getElem?_of_extends {α : Type} {l l' : List α} (h : l <+: l') {q : α}
    (hp : l[p]? = some q) :
    l'[p]? = some q := by
  obtain ⟨new, rfl⟩ := h
  exact List.getElem?_append_left (List.getElem?_eq_some_iff.mp hp).1 ▸ hp

variable {clist clist' : List Cand} {ps : List (Nat × Nat)}

theorem Chain.mono (h : Chain clist p ps) (hpre : clist <+: clist') : Chain clist' p ps := by
  induction h with
  | nil hp => exact .nil (getElem?_of_extends hpre hp)
  | cons hp hy _ ih => exact .cons (getElem?_of_extends hpre hp) hy ih

theorem Chain.lt_length (h : Chain clist p ps) : p < clist.length := by
  cases h with
  | nil hp => exact (List.getElem?_eq_some_iff.mp hp).1
  | cons hp => exact (List.getElem?_eq_some_iff.mp hp).1

theorem cand_of_extends (h : clist <+: clist') (hp : p < clist.length) :
    cand clist' p = cand clist p := by
  have hget := getElem?_eq_getElem hp
  rw [cand, cand, getD_eq_getElem?_getD, getD_eq_getElem?_getD, hget, getElem?_of_extends h hget]

/-! ## The invariant -/

/-- The line of the second file that the candidate for the length `l` ends with. -/
def Klist.y (s : Klist) (l : Nat) : Int := (cand s.clist (s.c l)).y

/-- The pairs of the candidate for the length `l` are matched, and before the line `i`. -/
def Path (R : Nat → Nat → Prop) (i : Nat) (s : Klist) (l : Nat) : Prop :=
  ∃ ps, Chain s.clist (s.c l) ps ∧ ps.length = l ∧
    ps.Pairwise (fun p q => q.1 < p.1 ∧ q.2 < p.2) ∧
    ∀ p ∈ ps, 1 ≤ p.1 ∧ p.1 < i ∧ (p.2 : Int) ≤ s.y l ∧ R p.1 p.2

/-- What holds of the candidates before the line `i`. -/
structure Candidates (R : Nat → Nat → Prop) (i : Nat) (s : Klist) : Prop where
  zero : s.y 0 = 0
  incr : ∀ l, l < s.k → s.y l < s.y (l + 1)
  paths : ∀ l, l ≤ s.k → Path R i s l
  bound : s.k < s.clist.length

variable {R : Nat → Nat → Prop} {i : Nat} {s₀ s : Klist}

variable {l' l : Nat}

section

variable (h : Candidates R i s)
include h

theorem Candidates.lt (hl : l < l') (hk : l' ≤ s.k) : s.y l < s.y l' := by
  induction l' with
  | zero => omega
  | succ l' ih =>
    have hlast := h.incr l' (by omega)
    rcases Nat.lt_succ_iff_lt_or_eq.mp hl with hlt | rfl
    · exact (ih hlt (by omega)).trans hlast
    · exact hlast

theorem Candidates.le (hl : l ≤ l') (hk : l' ≤ s.k) : s.y l ≤ s.y l' := by
  rcases Nat.eq_or_lt_of_le hl with rfl | hlt
  · exact le_rfl
  · exact (h.lt hlt hk).le

theorem Candidates.lt_iff (hl : l ≤ s.k) (hl' : l' ≤ s.k) : s.y l < s.y l' ↔ l < l' := by
  refine ⟨fun hlt => ?_, fun hlt => h.lt hlt hl'⟩
  by_contra hge
  exact absurd (h.le (Nat.le_of_not_lt hge) hl) (not_le.mpr hlt)

theorem Candidates.c_lt (hl : l ≤ s.k) : s.c l < s.clist.length := by
  obtain ⟨ps, hchain, -⟩ := h.paths l hl
  exact hchain.lt_length

end

/-! ## search -/

variable {j : Nat}

theorem bisect_spec (ys : Nat → Int) {y : Int} {k : Nat}
    (hmono : ∀ l l', l < l' → l' ≤ k → ys l < ys l') (fuel : Nat) {i : Nat} (hfuel : j ≤ i + fuel)
    (hij : i < j) (hj : j ≤ k + 1) (hi : ys i < y) (hjy : j ≤ k → y < ys j) :
    ∃ l, bisect ys y fuel i j = l + 1 ∧ l ≤ k ∧ ys l < y ∧ (l < k → y ≤ ys (l + 1)) := by
  induction fuel generalizing i j with
  | zero => omega
  | succ fuel ih =>
    rw [bisect]
    split
    · next hl =>
      split
      · next hlt =>
        exact ih (by omega) hl (by omega) hi fun _ => hlt
      split
      · next hlt => exact ih (by omega) (by omega) hj hlt hjy
      next hnot hnot' =>
      -- it is found
      obtain ⟨l, hl'⟩ : ∃ l, (i + j) / 2 = l + 1 := ⟨(i + j) / 2 - 1, by omega⟩
      rw [hl'] at hnot hnot' ⊢
      have := hmono l (l + 1) (by omega) (by omega)
      exact ⟨l, rfl, by omega, by omega, fun _ => by omega⟩
    · next hl =>
      have hmid : (i + j) / 2 = i := by omega
      rw [hmid]
      obtain rfl : j = i + 1 := by omega
      exact ⟨i, rfl, by omega, hi, fun h => (hjy h).le⟩

/-- `search` finds the first candidate that is not before `y`, or the place after all of them. -/
theorem search_spec (h : Candidates R i s) {y : Int} (hy : 0 < y) :
    ∃ l, search s.clist s.c s.k y = l + 1 ∧ l ≤ s.k ∧ s.y l < y ∧ (l < s.k → y ≤ s.y (l + 1)) := by
  rw [search]
  split
  · next hlt => exact ⟨s.k, rfl, le_rfl, hlt, fun h => absurd h (Nat.lt_irrefl _)⟩
  · refine bisect_spec s.y (fun l l' hl hk => h.lt hl hk) _ (by omega) (by omega)
      le_rfl ?_ fun h => by omega
    rw [h.zero]
    exact hy

/-! ## The lines of a class -/

/-- The length `l` can be reached within the first `Y` lines, with one line of `ys` at most. -/
def Reached (s₀ : Klist) (ys : List Nat) (l : Nat) (Y : Int) : Prop :=
  (l ≤ s₀.k ∧ s₀.y l ≤ Y) ∨ ∃ y ∈ ys, (y : Int) ≤ Y ∧ l - 1 ≤ s₀.k ∧ s₀.y (l - 1) < y

/-- The state of the inner loop of `stone`: the lines `done` of the class were compared, and `y` and
those after it were not. Only candidates up to `oldl` were replaced, and `oldc` is one that was
there before. -/
structure Scan (R : Nat → Nat → Prop) (i : Nat) (s₀ s : Klist) (oldl oldc : Nat) (done : List Nat)
    (y : Nat) : Prop where
  cands : Candidates R (i + 1) s
  k : s.k = s₀.k
  clist : s₀.clist <+: s.clist
  later : ∀ l, oldl < l → s.c l = s₀.c l
  oldl_le : oldl ≤ s.k
  oldl_lt : s.y oldl < y
  old : ∃ p, oldl ≤ p ∧ p ≤ s.k ∧ oldc = s₀.c p ∧ (p ≠ oldl → s₀.y p < y)
  le : ∀ l, l ≤ s.k → s.y l ≤ s₀.y l
  reached : ∀ l Y, 1 ≤ l → (l ≤ s.k ∧ s.y l ≤ Y ↔ Reached s₀ done l Y)

theorem reached_concat (s₀ : Klist) (done : List Nat) (y l : Nat) (Y : Int) :
    Reached s₀ (done ++ [y]) l Y ↔
      Reached s₀ done l Y ∨ (y : Int) ≤ Y ∧ l - 1 ≤ s₀.k ∧ s₀.y (l - 1) < y := by
  simp only [Reached, mem_append, mem_singleton, or_and_right, exists_or, or_assoc, exists_eq_left]

variable {oldl oldc y : Nat} {done : List Nat}

theorem Scan.y_later (h₀ : Candidates R i s₀) (h : Scan R i s₀ s oldl oldc done y) (hl : oldl < l)
    (hk : l ≤ s.k) : s.y l = s₀.y l := by
  rw [Klist.y, h.later l hl, Klist.y, cand_of_extends h.clist (h₀.c_lt (h.k ▸ hk))]

section Newcand

variable {pred : Nat}

theorem newcand_extends (s : Klist) (l i : Nat) (y : Int) (pred : Nat) :
    s.clist <+: (s.newcand l i y pred).clist :=
  prefix_append _ _

theorem newcand_y_self (s : Klist) (l i : Nat) (y : Int) (pred : Nat) :
    (s.newcand l i y pred).y l = y := by
  simp [Klist.y, Klist.newcand, cand]

theorem newcand_y_of_ne (hl : l' ≠ l) (hc : s.c l' < s.clist.length) (i : Nat) (y : Int)
    (pred : Nat) : (s.newcand l i y pred).y l' = s.y l' := by
  have hc' : (s.newcand l i y pred).c l' = s.c l' := update_of_ne hl _ _
  rw [Klist.y, hc', cand_of_extends (newcand_extends s l i y pred) hc, Klist.y]

theorem Path.newcand_of_ne (h : Path R i s l') (hl : l' ≠ l) (x : Nat) (y : Int) (pred : Nat) :
    Path R i (s.newcand l x y pred) l' := by
  obtain ⟨ps, hchain, hlen, hpair, hmem⟩ := h
  have hc' : (s.newcand l x y pred).c l' = s.c l' := update_of_ne hl _ _
  refine ⟨ps, ?_, hlen, hpair, fun p hp => ?_⟩
  · rw [hc']
    exact hchain.mono (newcand_extends s l x y pred)
  · rw [newcand_y_of_ne hl hchain.lt_length]
    exact hmem p hp

/-- A pair is put after a path that was there before. -/
theorem Path.newcand (h : Path R i s₀ l) (hpre : s₀.clist <+: s.clist) (hi : 1 ≤ i) (hy : 0 < y)
    (hlt : s₀.y l < y) (hR : R i y) : Path R (i + 1) (s.newcand (l + 1) i y (s₀.c l)) (l + 1) := by
  obtain ⟨ps, hchain, hlen, hpair, hmem⟩ := h
  refine ⟨(i, y) :: ps, .cons ?_ hy (hchain.mono (hpre.trans (newcand_extends s _ _ _ _))), ?_,
    pairwise_cons.mpr ⟨fun p hp => ?_, hpair⟩, ?_⟩
  · simp [Klist.newcand]
  · rw [length_cons, hlen]
  · obtain ⟨-, hpi, hpy, -⟩ := hmem p hp
    exact ⟨hpi, by exact_mod_cast hpy.trans_lt hlt⟩
  · rw [newcand_y_self, forall_mem_cons]
    refine ⟨⟨hi, Nat.lt_succ_self i, le_rfl, hR⟩, fun p hp => ?_⟩
    obtain ⟨hp1, hpi, hpy, hpR⟩ := hmem p hp
    exact ⟨hp1, by omega, (hpy.trans_lt hlt).le, hpR⟩

end Newcand

theorem Path.mono {i' : Nat} (h : Path R i s l) (hi : i ≤ i') : Path R i' s l := by
  obtain ⟨ps, hchain, hlen, hpair, hmem⟩ := h
  refine ⟨ps, hchain, hlen, hpair, fun p hp => ?_⟩
  obtain ⟨h1, hpi, hpy, hpR⟩ := hmem p hp
  exact ⟨h1, by omega, hpy, hpR⟩

variable {y' : Nat} {b : Nat → Int}

/-- A line after which nothing is new. -/
theorem Scan.next (h : Scan R i s₀ s oldl oldc done y) {oldc' : Nat} (hy : y < y')
    (hold : ∃ p, oldl ≤ p ∧ p ≤ s.k ∧ oldc' = s₀.c p ∧ (p ≠ oldl → s₀.y p < y'))
    (hnew : ∀ l, 1 ≤ l → l - 1 ≤ s.k → s₀.y (l - 1) < y → l ≤ s.k ∧ s.y l ≤ y) :
    Scan R i s₀ s oldl oldc' (done ++ [y]) y' := by
  refine ⟨h.cands, h.k, h.clist, h.later, h.oldl_le, h.oldl_lt.trans (by exact_mod_cast hy), hold,
    h.le, fun l Y hl => ?_⟩
  rw [reached_concat, ← h.reached l Y hl]
  refine ⟨.inl, ?_⟩
  rintro (hreach | ⟨hyY, hk, hlt⟩)
  · exact hreach
  · obtain ⟨hlk, hle⟩ := hnew l hl (h.k ▸ hk) hlt
    exact ⟨hlk, hle.trans hyY⟩

section Scan

variable (h₀ : Candidates R i s₀) (h : Scan R i s₀ s oldl oldc done y)
include h₀ h

/-- What `search` finds: the candidate after which `y` comes was there before, and it is the one
that the new candidate is chained to. -/
theorem Scan.search (hgt : (cand s.clist oldc).y < y) :
    ∃ l, search s.clist s.c s.k y = l + 1 ∧ l ≤ s.k ∧ oldl ≤ l ∧ s.y l < y ∧ s₀.y l < y ∧
      (l < s.k → y ≤ s.y (l + 1)) ∧ (if l + 1 ≠ oldl + 1 then s.c l else oldc) = s₀.c l := by
  obtain ⟨p, holdp, hpk, holdc, hp⟩ := h.old
  have hk := h.k
  rw [holdc, cand_of_extends h.clist (h₀.c_lt (by omega))] at hgt
  change s₀.y p < y at hgt
  have hpos : (0 : Int) < y := by
    have := h₀.le (Nat.zero_le p) (by omega)
    rw [h₀.zero] at this
    omega
  obtain ⟨l, hsearch, hlk, hlt, hge⟩ := search_spec h.cands hpos
  have hol : oldl ≤ l := by
    by_contra hnot
    have := h.cands.le (by omega : l + 1 ≤ oldl) h.oldl_le
    have := h.oldl_lt
    omega
  have hlt0 : s₀.y l < y := by
    rcases Nat.eq_or_lt_of_le hol with rfl | hlt'
    · exact (h₀.le holdp (by omega)).trans_lt hgt
    · rw [← h.y_later h₀ hlt' hlk]
      exact hlt
  refine ⟨l, hsearch, hlk, hol, hlt, hlt0, hge, ?_⟩
  split
  · next hne => exact h.later l (by omega)
  next heq =>
  -- `oldc` is still the candidate that was replaced last
  rw [holdc]
  by_cases hpl : p = l
  · rw [hpl]
  · exfalso
    have hge' := hge (by omega)
    rw [h.y_later h₀ (l := l + 1) (by omega) (by omega)] at hge'
    have := h₀.le (by omega : l + 1 ≤ p) (by omega)
    omega

/-- The line is not after the candidate that was replaced last. -/
theorem Scan.skip (hle : (y : Int) ≤ (cand s.clist oldc).y) (hy : y < y') :
    Scan R i s₀ s oldl oldc (done ++ [y]) y' := by
  obtain ⟨p, holdp, hpk, holdc, hp⟩ := h.old
  have hk := h.k
  rw [holdc, cand_of_extends h.clist (h₀.c_lt (by omega))] at hle
  change (y : Int) ≤ s₀.y p at hle
  obtain rfl : p = oldl := by
    by_contra hne
    exact absurd (hp hne) (not_lt.mpr hle)
  refine h.next hy ⟨p, Nat.le_refl p, hpk, holdc, fun hne => absurd rfl hne⟩ fun l hl hlk hlt => ?_
  have hlp : l - 1 < p := (h₀.lt_iff (by omega) (by omega)).mp (hlt.trans_le hle)
  exact ⟨by omega, (h.cands.le (by omega) hpk).trans h.oldl_lt.le⟩

/-- The line is that of a candidate already. -/
theorem Scan.keep (hlk : l < s.k) (hol : oldl ≤ l) (hlt0 : s₀.y l < y) (hge : y ≤ s.y (l + 1))
    (hle : s.y (l + 1) ≤ y) (hy : y < y') : Scan R i s₀ s oldl (s₀.c l) (done ++ [y]) y' := by
  have hk := h.k
  refine h.next hy ⟨l, hol, by omega, rfl, fun _ => hlt0.trans (by exact_mod_cast hy)⟩
    fun l' hl' hlk' hlt => ?_
  have hy0 : s₀.y (l + 1) = y := by
    rw [← h.y_later h₀ (by omega) (by omega)]
    exact le_antisymm hle hge
  have hll : l' - 1 < l + 1 := (h₀.lt_iff (by omega) (by omega)).mp (hlt.trans_eq hy0.symm)
  exact ⟨by omega, (h.cands.le (by omega) (by omega)).trans hle⟩

/-- The line replaces a candidate. -/
theorem Scan.replace (hi : 1 ≤ i) (hR : R i y) (hlk : l < s.k) (hol : oldl ≤ l) (hlt : s.y l < y)
    (hlt0 : s₀.y l < y) (hgt : y < s.y (l + 1)) (hy : y < y') :
    Scan R i s₀ (s.newcand (l + 1) i y (s₀.c l)) (l + 1) (s.c (l + 1)) (done ++ [y]) y' := by
  have hk := h.k
  have hself := newcand_y_self s (l + 1) i y (s₀.c l)
  have hother : ∀ l', l' ≠ l + 1 → l' ≤ s.k → (s.newcand (l + 1) i y (s₀.c l)).y l' = s.y l' :=
    fun l' hl' hlk' => newcand_y_of_ne hl' (h.cands.c_lt hlk') i y _
  have hpos : 0 < y := by
    have := h.cands.le (Nat.zero_le l) (by omega)
    rw [h.cands.zero] at this
    omega
  have hy0 : s₀.y (l + 1) = s.y (l + 1) := (h.y_later h₀ (by omega) (by omega)).symm
  refine ⟨⟨?_, fun l' hl' => ?_, fun l' hl' => ?_, ?_⟩, hk,
    h.clist.trans (newcand_extends s _ _ _ _), fun l' hl' => ?_, hlk, ?_,
    ⟨l + 1, le_rfl, hlk, h.later _ (by omega), fun hne => absurd rfl hne⟩, fun l' hl' => ?_,
    fun l' Y hl' => ?_⟩
  · rw [hother 0 (by omega) (Nat.zero_le _)]
    exact h.cands.zero
  · change l' < s.k at hl'
    have hincr := h.cands.incr l' hl'
    by_cases hat : l' = l
    · rw [hat, hself, hother l (by omega) (by omega)]
      exact hlt
    rw [hother (l' + 1) (by omega) hl']
    by_cases hup : l' = l + 1
    · rw [hup, hself]
      rw [hup] at hincr
      exact hgt.trans hincr
    · rw [hother l' hup (by omega)]
      exact hincr
  · change l' ≤ s.k at hl'
    by_cases hat : l' = l + 1
    · rw [hat]
      exact (h₀.paths l (by omega)).newcand h.clist hi hpos hlt0 hR
    · exact (h.cands.paths l' hl').newcand_of_ne hat i y _
  · have hlen : s.clist.length ≤ (s.newcand (l + 1) i y (s₀.c l)).clist.length :=
      (newcand_extends s _ _ _ _).length_le
    exact h.cands.bound.trans_le hlen
  · exact (update_of_ne (by omega) _ _).trans (h.later l' (by omega))
  · rw [hself]
    exact_mod_cast hy
  · change l' ≤ s.k at hl'
    by_cases hat : l' = l + 1
    · rw [hat, hself, hy0]
      exact hgt.le
    · rw [hother l' hat hl']
      exact h.le l' hl'
  · change l' ≤ s.k ∧ _ ↔ _
    rw [reached_concat, ← h.reached l' Y hl']
    by_cases hat : l' = l + 1
    · -- the length that was improved
      subst hat
      rw [hself]
      constructor
      · rintro ⟨-, hyY⟩
        exact .inr ⟨hyY, by omega, hlt0⟩
      · rintro (⟨-, hyY⟩ | ⟨hyY, -⟩)
        · exact ⟨hlk, hgt.le.trans hyY⟩
        · exact ⟨hlk, hyY⟩
    · constructor
      · rintro ⟨hl'k, hyY⟩
        rw [hother l' hat hl'k] at hyY
        exact .inl ⟨hl'k, hyY⟩
      rintro (⟨hl'k, hyY⟩ | ⟨hyY, hl'k, hlt'⟩)
      · rw [hother l' hat hl'k]
        exact ⟨hl'k, hyY⟩
      · have hll : l' - 1 < l + 1 := (h₀.lt_iff (by omega) (by omega)).mp
          (hlt'.trans (hgt.trans_eq hy0.symm))
        rw [hother l' hat (by omega)]
        exact ⟨by omega, ((h.cands.le (by omega) (by omega)).trans hlt.le).trans hyY⟩

variable {ys : List Nat}

/-- The line is after all the candidates; those that follow it in its class do not matter. -/
theorem Scan.extend (hi : 1 ≤ i) (hR : R i y) (hlt : s.y s.k < y) (hlt0 : s₀.y s.k < y)
    (hys : ∀ y' ∈ ys, y < y') :
    Candidates R (i + 1) { s.newcand (s.k + 1) i y (s₀.c s.k) with k := s.k + 1 } ∧
      ∀ l Y, 1 ≤ l → (l ≤ s.k + 1 ∧ (s.newcand (s.k + 1) i y (s₀.c s.k)).y l ≤ Y ↔
        Reached s₀ (done ++ y :: ys) l Y) := by
  have hk := h.k
  have hself := newcand_y_self s (s.k + 1) i y (s₀.c s.k)
  have hother : ∀ l', l' ≤ s.k → (s.newcand (s.k + 1) i y (s₀.c s.k)).y l' = s.y l' :=
    fun l' hlk' => newcand_y_of_ne (by omega) (h.cands.c_lt hlk') i y _
  have hpos : 0 < y := by
    have := h.cands.le (Nat.zero_le s.k) (by omega)
    rw [h.cands.zero] at this
    omega
  refine ⟨⟨?_, fun l' hl' => ?_, fun l' hl' => ?_, ?_⟩, fun l' Y hl' => ?_⟩
  · exact (hother 0 (Nat.zero_le _)).trans h.cands.zero
  · change (s.newcand _ i y _).y l' < (s.newcand _ i y _).y (l' + 1)
    change l' < s.k + 1 at hl'
    rw [hother l' (by omega)]
    by_cases hlast : l' = s.k
    · rw [hlast, hself]
      exact hlt
    · rw [hother (l' + 1) (by omega)]
      exact h.cands.incr l' (by omega)
  · change Path R (i + 1) (s.newcand _ i y _) l'
    change l' ≤ s.k + 1 at hl'
    by_cases hlast : l' = s.k + 1
    · rw [hlast]
      exact (h₀.paths s.k (by omega)).newcand h.clist hi hpos hlt0 hR
    · exact (h.cands.paths l' (by omega)).newcand_of_ne hlast i y _
  · have := h.cands.bound
    simp only [Klist.newcand, length_append, length_singleton]
    omega
  · have hsplit : Reached s₀ (done ++ y :: ys) l' Y ↔ Reached s₀ done l' Y ∨
        ∃ y' ∈ y :: ys, (y' : Int) ≤ Y ∧ l' - 1 ≤ s₀.k ∧ s₀.y (l' - 1) < y' := by
      simp only [Reached, mem_append, or_and_right, exists_or, or_assoc]
    rw [hsplit, ← h.reached l' Y hl']
    have hfirst : ∀ y' ∈ y :: ys, (y' : Int) ≤ Y → (y : Int) ≤ Y := by
      intro y' hy' hyY
      rcases mem_cons.mp hy' with rfl | hmem
      · exact hyY
      · exact le_trans (by exact_mod_cast (hys y' hmem).le) hyY
    by_cases hlast : l' = s.k + 1
    · subst hlast
      rw [hself]
      constructor
      · rintro ⟨-, hyY⟩
        exact .inr ⟨y, .head _, hyY, by omega, hlt0⟩
      · rintro (⟨hlk, -⟩ | ⟨y', hy', hyY, -⟩)
        · omega
        · exact ⟨le_rfl, hfirst y' hy' hyY⟩
    · constructor
      · rintro ⟨hlk, hyY⟩
        rw [hother l' (by omega)] at hyY
        exact .inl ⟨by omega, hyY⟩
      rintro (⟨hlk, hyY⟩ | ⟨y', hy', hyY, hlk, -⟩)
      · rw [hother l' hlk]
        exact ⟨by omega, hyY⟩
      · rw [hother l' (by omega)]
        exact ⟨by omega, ((h.cands.le (by omega) le_rfl).trans hlt.le).trans
          (hfirst y' hy' hyY)⟩

end Scan

/-- The inner loop of `stone`, from the line `y` of the class on. -/
theorem stoneLine_spec (h₀ : Candidates R i s₀) (hi : 1 ≤ i) (fuel : Nat)
    (h : Scan R i s₀ s oldl oldc done y) (hreads : Reads b j ys)
    (hsorted : (y :: ys).Pairwise (· < ·)) (hR : ∀ y' ∈ y :: ys, R i y')
    (hfuel : ys.length < fuel) :
    Candidates R (i + 1) (stoneLine b i fuel j y oldl oldc s) ∧
      ∀ l Y, 1 ≤ l → (l ≤ (stoneLine b i fuel j y oldl oldc s).k ∧
        (stoneLine b i fuel j y oldl oldc s).y l ≤ Y ↔ Reached s₀ (done ++ y :: ys) l Y) := by
  induction fuel generalizing j y oldl oldc done ys s with
  | zero => omega
  | succ fuel ih =>
    obtain ⟨hys, hsorted'⟩ := pairwise_cons.mp hsorted
    have hRy := hR y (.head _)
    -- the loop goes on with the next line of the class, or ends
    have next : ∀ {oldl oldc : Nat} {s : Klist},
        (∀ y', y < y' → Scan R i s₀ s oldl oldc (done ++ [y]) y') →
        let s' := if 0 < b (j + 1) then stoneLine b i fuel (j + 1) (b (j + 1)) oldl oldc s else s
        Candidates R (i + 1) s' ∧ ∀ l Y, 1 ≤ l →
          (l ≤ s'.k ∧ s'.y l ≤ Y ↔ Reached s₀ (done ++ y :: ys) l Y) := by
      intro oldl oldc s hscan
      cases ys with
      | nil =>
        have hend : ¬0 < b (j + 1) := not_lt.mpr hreads
        dsimp only
        rw [if_neg hend]
        have hscan' := hscan (y + 1) (Nat.lt_succ_self y)
        exact ⟨hscan'.cands, hscan'.reached⟩
      | cons y' ys =>
        obtain ⟨hb, hpos, hreads'⟩ := hreads
        have hmore : 0 < b (j + 1) := by
          rw [hb]
          exact_mod_cast hpos
        dsimp only
        rw [if_pos hmore, hb]
        have := ih (hscan y' (hys y' (.head _))) hreads' hsorted'
          (fun y'' hy'' => hR y'' (mem_cons_of_mem y hy'')) (by simpa using hfuel)
        rwa [append_assoc, singleton_append] at this
    rw [stoneLine]
    dsimp only
    by_cases hle : (y : Int) ≤ (cand s.clist oldc).y
    · rw [if_pos hle]
      exact next fun y' hy => h.skip h₀ hle hy
    rw [if_neg hle]
    obtain ⟨l, hsearch, hlk, hol, hlt, hlt0, hge, hpred⟩ := h.search h₀ (not_le.mp hle)
    rw [hsearch]
    simp only [Nat.add_sub_cancel]
    rw [hpred]
    by_cases hl : l + 1 ≤ s.k
    · rw [if_pos hl]
      by_cases hkeep : (cand s.clist (s.c (l + 1))).y ≤ y
      · rw [if_pos hkeep]
        exact next fun y' hy => h.keep h₀ hl hol hlt0 (hge hl) hkeep hy
      · rw [if_neg hkeep]
        exact next fun y' hy => h.replace h₀ hi hRy hl hol hlt hlt0 (not_le.mp hkeep) hy
    · rw [if_neg hl]
      obtain rfl : l = s.k := by omega
      exact h.extend h₀ hi hRy hlt hlt0 hys

/-- The inner loop of `stone`, for a line and its class. -/
theorem Candidates.stoneLine (h : Candidates R i s) (fuel : Nat) (hi : 1 ≤ i) {y : Nat}
    (hpos : 0 < y) (hreads : Reads b j ys) (hsorted : (y :: ys).Pairwise (· < ·))
    (hR : ∀ y' ∈ y :: ys, R i y') (hfuel : ys.length < fuel) :
    Candidates R (i + 1) (stoneLine b i fuel j y 0 (s.c 0) s) ∧
      ∀ l Y, 1 ≤ l → (l ≤ (Diff.stoneLine b i fuel j y 0 (s.c 0) s).k ∧
        (Diff.stoneLine b i fuel j y 0 (s.c 0) s).y l ≤ Y ↔ Reached s (y :: ys) l Y) := by
  have hscan : Scan R i s s 0 (s.c 0) [] y := by
    refine ⟨⟨h.zero, h.incr, fun l hl => (h.paths l hl).mono (Nat.le_succ i), h.bound⟩, rfl,
      prefix_refl _, fun _ _ => rfl, Nat.zero_le _, ?_,
      ⟨0, Nat.le_refl 0, Nat.zero_le _, rfl, fun hne => absurd rfl hne⟩, fun _ _ => le_rfl,
      fun l Y _ => ?_⟩
    · rw [h.zero]
      exact_mod_cast hpos
    · simp [Reached]
  exact stoneLine_spec h hi fuel hscan hreads hsorted hR hfuel

end Plan9Port.Diff
