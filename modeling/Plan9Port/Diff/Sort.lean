import Mathlib.Data.Prod.Lex
import Mathlib.Tactic.Ring

/-!
# Sorting lines

The shellsort of diff, on an array that is indexed from 1 on. Each pass only swaps lines, and the
last one is an insertion sort.

## Main definitions

* `Line`: the serial number and the hash of a line
* `sort`: the shellsort

## Main results

* `sort_rearranged`: the lines are rearranged
* `sort_sorted`: they are sorted by the hash, and by the serial number among equal ones
-/

namespace Plan9Port.Diff

open Function

/-- A line with its hash. -/
structure Line where
  serial : Nat
  value : Int
  deriving DecidableEq, Repr

/-- The order of the lines. -/
def Line.Lt (p q : Line) : Prop := p.value < q.value ∨ p.value = q.value ∧ p.serial < q.serial

instance (p q : Line) : Decidable (p.Lt q) := by
  unfold Line.Lt
  infer_instance

/-- The inner loop of `sort`, which compares `ai` with `ai + m`, and goes down by `m`. -/
def sift (m : Nat) : Nat → Nat → (Nat → Line) → Nat → Line
  | 0, _, a => a
  | fuel + 1, ai, a =>
    let aim := ai + m
    if (a ai).Lt (a aim) then a
    else
      let a := update (update a aim (a ai)) ai (a aim)
      if m < ai then sift m fuel (ai - m) a else a

/-- A pass of `sort`, from `j` on. -/
def pass (m : Nat) : Nat → Nat → (Nat → Line) → Nat → Line
  | 0, _, a => a
  | count + 1, j, a => pass m count (j + 1) (sift m j j a)

/-- The passes of `sort`. -/
def passes (n : Nat) : Nat → Nat → (Nat → Line) → Nat → Line
  | 0, _, a => a
  | fuel + 1, m, a => if m ≠ 0 then passes n fuel (m / 2) (pass m (n - m) 1 a) else a

/-- The distance that `sort` starts with, before it is halved. -/
def distance (n : Nat) : Nat → Nat → Nat → Nat
  | 0, _, m => m
  | fuel + 1, i, m => if i ≤ n then distance n fuel (i * 2) (2 * i - 1) else m

/-- The Shell sort. -/
def sort (a : Nat → Line) (n : Nat) : Nat → Line :=
  let m := distance n n 1 0
  passes n m (m / 2) a

/-! ## Rearranged lines -/

/-- The lines from 1 to `n` are rearranged. -/
def Rearranged (n : Nat) (a a' : Nat → Line) : Prop :=
  ∃ σ : Equiv.Perm Nat, (∀ i, ¬(1 ≤ i ∧ i ≤ n) → σ i = i) ∧ a' = a ∘ σ

theorem Rearranged.refl (n : Nat) (a : Nat → Line) : Rearranged n a a :=
  ⟨Equiv.refl _, fun _ _ => rfl, rfl⟩

variable {n j ai m : Nat} {a : Nat → Line}

theorem Rearranged.trans {a' a'' : Nat → Line} (h : Rearranged n a a') (h' : Rearranged n a' a'') :
    Rearranged n a a'' := by
  obtain ⟨σ, hσ, rfl⟩ := h
  obtain ⟨τ, hτ, rfl⟩ := h'
  refine ⟨τ.trans σ, fun i hi => ?_, rfl⟩
  rw [Equiv.trans_apply, hτ i hi, hσ i hi]

theorem Rearranged.swap {i : Nat} (a : Nat → Line) (hi : 1 ≤ i ∧ i ≤ n) (hj : 1 ≤ j ∧ j ≤ n) :
    Rearranged n a (update (update a j (a i)) i (a j)) := by
  refine ⟨Equiv.swap i j, fun t ht => ?_, (Equiv.comp_swap_eq_update i j a).symm⟩
  refine Equiv.swap_apply_of_ne_of_ne ?_ ?_
  · rintro rfl
    exact ht hi
  · rintro rfl
    exact ht hj

theorem sift_rearranged (fuel : Nat) (a : Nat → Line) (hai : 1 ≤ ai) (hn : ai + m ≤ n) :
    Rearranged n a (sift m fuel ai a) := by
  induction fuel generalizing ai a with
  | zero => exact Rearranged.refl n a
  | succ fuel ih =>
    rw [sift]
    dsimp only
    split
    · exact Rearranged.refl n a
    · have hswap := Rearranged.swap a (n := n) (i := ai) (j := ai + m) (by omega) (by omega)
      split
      · exact hswap.trans (ih _ (by omega) (by omega))
      · exact hswap

theorem pass_rearranged (count : Nat) (a : Nat → Line) (hj : 1 ≤ j) (hn : j + count + m ≤ n + 1) :
    Rearranged n a (pass m count j a) := by
  induction count generalizing j a with
  | zero => exact Rearranged.refl n a
  | succ count ih =>
    exact (sift_rearranged j a hj (by omega)).trans (ih _ (by omega) (by omega))

theorem passes_rearranged (n : Nat) (fuel m : Nat) (a : Nat → Line) :
    Rearranged n a (passes n fuel m a) := by
  induction fuel generalizing m a with
  | zero => exact Rearranged.refl n a
  | succ fuel ih =>
    rw [passes]
    split
    · refine Rearranged.trans ?_ (ih _ _)
      by_cases hm : m ≤ n
      · exact pass_rearranged _ a le_rfl (by omega)
      · -- the distance is larger than the array
        rw [Nat.sub_eq_zero_of_le (Nat.le_of_not_le hm)]
        exact Rearranged.refl n a
    · exact Rearranged.refl n a

theorem sort_rearranged (a : Nat → Line) (n : Nat) : Rearranged n a (sort a n) :=
  passes_rearranged n _ _ a

/-! ## Sorted lines -/

/-- What lines are sorted by. -/
def Line.key (p : Line) : ℤ ×ₗ ℕ := toLex (p.value, p.serial)

theorem Line.lt_iff (p q : Line) : p.Lt q ↔ p.key < q.key :=
  (Prod.Lex.toLex_lt_toLex (x := (p.value, p.serial)) (y := (q.value, q.serial))).symm

/-- The lines from 1 to `n` are sorted, apart from the one at `hole`. -/
def SortedBut (a : Nat → Line) (n hole : Nat) : Prop :=
  ∀ p q, 1 ≤ p → p < q → q ≤ n → q ≠ hole → (a p).key ≤ (a q).key

/-- Insertion: the line at `ai + 1` moves down to its place. -/
theorem sift_sorted (fuel : Nat) (hai : 1 ≤ ai) (hn : ai + 1 ≤ n) (hfuel : ai ≤ fuel)
    (hbut : SortedBut a n (ai + 1)) : SortedBut (sift 1 fuel ai a) n 0 := by
  induction fuel generalizing ai a with
  | zero => omega
  | succ fuel ih =>
    rw [sift]
    dsimp only
    split
    · next hlt =>
      -- the line is at its place
      rw [Line.lt_iff] at hlt
      intro p q hp hpq hq _
      by_cases hhole : q = ai + 1
      · subst hhole
        by_cases hpai : p = ai
        · rw [hpai]
          exact hlt.le
        · exact (hbut p ai hp (by omega) (by omega) (by omega)).trans hlt.le
      · exact hbut p q hp hpq hq hhole
    · next hnot =>
      rw [Line.lt_iff, not_lt] at hnot
      obtain ⟨a', ha'⟩ : ∃ a', a' = update (update a (ai + 1) (a ai)) ai (a (ai + 1)) := ⟨_, rfl⟩
      have hat : a' ai = a (ai + 1) := by rw [ha', update_self]
      have hup : a' (ai + 1) = a ai := by
        rw [ha', update_of_ne (Nat.succ_ne_self ai), update_self]
      have hother : ∀ t, t ≠ ai → t ≠ ai + 1 → a' t = a t := by
        intro t h h'
        rw [ha', update_of_ne h, update_of_ne h']
      have hbut' : SortedBut a' n ai := by
        intro p q hp hpq hq hne
        by_cases hq' : q = ai + 1
        · rw [hq', hup]
          by_cases hpai : p = ai
          · rw [hpai, hat]
            exact hnot
          · rw [hother p hpai (by omega)]
            exact hbut p ai hp (by omega) (by omega) (by omega)
        · rw [hother q hne hq']
          by_cases hpai : p = ai
          · rw [hpai, hat]
            exact hbut (ai + 1) q (by omega) (by omega) hq hq'
          · by_cases hpai' : p = ai + 1
            · rw [hpai', hup]
              exact hbut ai q hai (by omega) hq hq'
            · rw [hother p hpai hpai']
              exact hbut p q hp hpq hq hq'
      rw [← ha']
      split
      · refine ih (by omega) (by omega) (by omega) ?_
        rw [Nat.sub_add_cancel hai]
        exact hbut'
      · -- the line is the first one
        intro p q hp hpq hq _
        exact hbut' p q hp hpq hq (by omega)

theorem pass_sorted (count : Nat) (hj : 1 ≤ j) (hn : j + count = n) (hsorted : SortedBut a j 0) :
    SortedBut (pass 1 count j a) n 0 := by
  induction count generalizing j a with
  | zero =>
    rw [← hn]
    exact hsorted
  | succ count ih =>
    refine ih (by omega) (by omega) (sift_sorted j hj le_rfl le_rfl ?_)
    intro p q hp hpq hq hne
    exact hsorted p q hp hpq (by omega) (by omega)

theorem passes_sorted (hn : 1 ≤ n) (e fuel : Nat) (a : Nat → Line)
    (hfuel : 2 ^ (e + 1) - 1 ≤ fuel) :
    SortedBut (passes n fuel (2 ^ (e + 1) - 1) a) n 0 := by
  induction e generalizing fuel a with
  | zero =>
    obtain _ | fuel := fuel
    · omega
    have hpass : SortedBut (pass 1 (n - 1) 1 a) n 0 :=
      pass_sorted _ le_rfl (by omega) fun p q _ _ _ _ => by omega
    have hzero : passes n fuel 0 (pass 1 (n - 1) 1 a) = pass 1 (n - 1) 1 a := by
      cases fuel <;> rfl
    rw [passes, if_pos (by decide)]
    change SortedBut (passes n fuel 0 (pass 1 (n - 1) 1 a)) n 0
    rw [hzero]
    exact hpass
  | succ e ih =>
    have hpos : 0 < 2 ^ (e + 1) := Nat.two_pow_pos _
    obtain _ | fuel := fuel
    · omega
    have hhalf : (2 ^ (e + 1 + 1) - 1) / 2 = 2 ^ (e + 1) - 1 := by omega
    rw [passes, if_pos (by omega), hhalf]
    exact ih fuel _ (by omega)

/-- The distance is one less than a power of 2. -/
theorem distance_pow (n fuel e : Nat) :
    ∃ e', e ≤ e' ∧ distance n fuel (2 ^ e) (2 ^ e - 1) = 2 ^ e' - 1 := by
  induction fuel generalizing e with
  | zero => exact ⟨e, Nat.le_refl e, rfl⟩
  | succ fuel ih =>
    rw [distance]
    split
    · obtain ⟨e', he, h⟩ := ih (e + 1)
      rw [Nat.pow_succ, Nat.mul_comm (2 ^ e)] at h
      rw [Nat.mul_comm (2 ^ e)]
      exact ⟨e', by omega, h⟩
    · exact ⟨e, Nat.le_refl e, rfl⟩

theorem sort_sorted (a : Nat → Line) (n : Nat) : SortedBut (sort a n) n 0 := by
  by_cases hn : n < 2
  · intro p q hp hpq hq
    omega
  obtain ⟨n, rfl⟩ : ∃ n', n = n' + 2 := ⟨n - 2, by omega⟩
  obtain ⟨e, he, hdist⟩ := distance_pow (n + 2) n 2
  have hm : distance (n + 2) (n + 2) 1 0 = 2 ^ e - 1 := by
    rw [distance, if_pos (by omega), distance, if_pos (by omega)]
    exact hdist
  obtain ⟨e, rfl⟩ : ∃ e', e = e' + 1 + 1 := ⟨e - 2, by omega⟩
  have hhalf : (2 ^ (e + 1 + 1) - 1) / 2 = 2 ^ (e + 1) - 1 := by omega
  rw [sort, hm, hhalf]
  exact passes_sorted (by omega) e _ a (by omega)

/-- Lines with their serial numbers, after they were sorted. -/
theorem sort_spec (v : Nat → Int) (n : Nat) :
    ∃ σ : Equiv.Perm Nat, (∀ i, 1 ≤ i ∧ i ≤ n ↔ 1 ≤ σ i ∧ σ i ≤ n) ∧
      (sort (fun i => ⟨i, v i⟩) n = fun i => ⟨σ i, v (σ i)⟩) ∧
      ∀ i j, 1 ≤ i → i < j → j ≤ n → v (σ i) < v (σ j) ∨ v (σ i) = v (σ j) ∧ σ i < σ j := by
  obtain ⟨σ, hσ, heq⟩ := sort_rearranged (fun i => ⟨i, v i⟩) n
  refine ⟨σ, fun i => ?_, heq, fun i j hi hij hj => ?_⟩
  · by_cases hi : 1 ≤ i ∧ i ≤ n
    · refine iff_of_true hi ?_
      by_contra hnot
      -- what is outside stays where it is
      have := σ.injective (hσ _ hnot)
      rw [this] at hnot
      exact hnot hi
    · rw [hσ i hi]
  · have hle := sort_sorted (fun i => ⟨i, v i⟩) n i j hi hij hj (by omega)
    rw [heq] at hle
    have hne : σ i ≠ σ j := fun h => by
      have := σ.injective h
      omega
    have hlt := lt_of_le_of_ne hle fun h => hne (congrArg (fun k => (ofLex k).2) h)
    exact (Line.lt_iff _ _).mpr hlt

end Plan9Port.Diff
