import Mathlib.Data.Nat.Count

/-!
# Canonical prefix codes

A canonical code is told by the number `n b` of its code words of each length `b`. The words of one
length are consecutive numbers, and the first of them comes right after the last shorter word,
extended with a zero. So shorter words are smaller, in the order of the strings of bits.

A string of bits is a function here, which makes it infinite; `value σ b` is the number that its
first `b` bits make, the first of them being the most significant.
-/

namespace Plan9Port.Canonical

/-- The number that the first `b` bits make. -/
def value (σ : Nat → Bool) : Nat → Nat
  | 0 => 0
  | b + 1 => 2 * value σ b + (σ b).toNat

theorem value_succ (σ : Nat → Bool) (b : Nat) : value σ (b + 1) = 2 * value σ b + (σ b).toNat := rfl

theorem value_lt (σ : Nat → Bool) (b : Nat) : value σ b < 2 ^ b := by
  induction b with
  | zero => exact Nat.one_pos
  | succ b ih =>
    have := Bool.toNat_le (σ b)
    rw [value_succ, pow_succ]
    omega

theorem value_congr {σ τ : Nat → Bool} {b : Nat} (h : ∀ i < b, σ i = τ i) :
    value σ b = value τ b := by
  induction b with
  | zero => rfl
  | succ b ih =>
    rw [value_succ, value_succ, ih fun i hi => h i (Nat.lt_succ_of_lt hi), h b (Nat.lt_succ_self b)]

/-- More bits only add to what fewer make. -/
theorem mul_value_le (σ : Nat → Bool) (b k : Nat) : 2 ^ k * value σ b ≤ value σ (b + k) := by
  induction k with
  | zero => simp
  | succ k ih =>
    rw [← add_assoc, value_succ, pow_succ, mul_comm _ 2, mul_assoc]
    omega

theorem value_lt_mul (σ : Nat → Bool) (b k : Nat) : value σ (b + k) < 2 ^ k * (value σ b + 1) := by
  induction k with
  | zero => simp
  | succ k ih =>
    have := Bool.toNat_le (σ (b + k))
    rw [← add_assoc, value_succ, pow_succ, mul_comm _ 2, mul_assoc]
    omega

theorem value_div (σ : Nat → Bool) (b k : Nat) : value σ (b + k) / 2 ^ k = value σ b := by
  have h1 := mul_value_le σ b k
  have h2 := value_lt_mul σ b k
  rw [mul_comm] at h1 h2
  exact Nat.div_eq_of_lt_le h1 h2

/-- Zeros for the bits from `k` on. -/
def cut (σ : Nat → Bool) (k : Nat) : Nat → Bool := fun i => if i < k then σ i else false

theorem value_cut_of_le (σ : Nat → Bool) {k b : Nat} (h : b ≤ k) : value (cut σ k) b = value σ b :=
  value_congr fun _ hi => if_pos (hi.trans_le h)

theorem value_cut_le (σ : Nat → Bool) (k b : Nat) : value (cut σ k) b ≤ value σ b := by
  induction b with
  | zero => exact Nat.le_refl 0
  | succ b ih =>
    have : (cut σ k b).toNat ≤ (σ b).toNat := by
      rw [cut]
      split_ifs
      · exact le_rfl
      · exact Nat.zero_le _
    rw [value_succ, value_succ]
    omega

theorem value_cut_add (σ : Nat → Bool) (k s : Nat) :
    value (cut σ k) (k + s) = 2 ^ s * value σ k := by
  induction s with
  | zero => rw [add_zero, pow_zero, one_mul, value_cut_of_le σ le_rfl]
  | succ s ih =>
    have hzero : cut σ k (k + s) = false := if_neg (by omega)
    rw [← add_assoc, value_succ, ih, hzero, pow_succ, mul_comm _ 2, mul_assoc]
    rfl

/-! ## Words -/

section Code

variable (n : Nat → Nat)

/-- The first word of length `b`. -/
def first : Nat → Nat
  | 0 => 0
  | b + 1 => 2 * (first b + n b)

/-- One past the last word of length `b`. -/
def limit (b : Nat) : Nat := first n b + n b

theorem first_succ (b : Nat) : first n (b + 1) = 2 * limit n b := rfl

theorem first_le_limit (b : Nat) : first n b ≤ limit n b := Nat.le_add_right _ _

/-- The longer words come after the shorter ones. -/
theorem mul_limit_le_first (b k : Nat) : 2 ^ (k + 1) * limit n b ≤ first n (b + k + 1) := by
  induction k with
  | zero => rw [zero_add, pow_one, add_zero, first_succ]
  | succ k ih =>
    have := first_le_limit n (b + k + 1)
    rw [← add_assoc b k 1, first_succ, pow_succ, mul_comm _ 2, mul_assoc]
    omega

theorem mul_first_le (b k : Nat) : 2 ^ k * first n b ≤ first n (b + k) := by
  cases k with
  | zero => simp
  | succ k =>
    exact (Nat.mul_le_mul_left _ (first_le_limit n b)).trans (mul_limit_le_first n b k)

theorem mul_limit_le_limit (b k : Nat) : 2 ^ k * limit n b ≤ limit n (b + k) := by
  cases k with
  | zero => simp
  | succ k => exact (mul_limit_le_first n b k).trans (first_le_limit n _)

theorem limit_pos_of_le {b b' : Nat} (h : b ≤ b') (hpos : 0 < limit n b) : 0 < limit n b' := by
  obtain ⟨k, rfl⟩ := Nat.exists_eq_add_of_le h
  exact (Nat.mul_pos (Nat.two_pow_pos k) hpos).trans_le (mul_limit_le_limit n b k)

/-- A word of length `b` begins `σ`. -/
def Has (σ : Nat → Bool) (b : Nat) : Prop := first n b ≤ value σ b ∧ value σ b < limit n b

variable {n} {σ : Nat → Bool} {b b' : Nat}

/-- What begins with a longer word is past the shorter ones. -/
theorem limit_le_value_of_first_le (h : first n b ≤ value σ b) (hlt : b' < b) :
    limit n b' ≤ value σ b' := by
  obtain ⟨k, rfl⟩ := Nat.exists_eq_add_of_lt hlt
  have h1 := mul_limit_le_first n b' k
  have h2 := value_lt_mul σ b' (k + 1)
  rw [← add_assoc] at h2
  have h3 : 2 ^ (k + 1) * limit n b' < 2 ^ (k + 1) * (value σ b' + 1) := by omega
  exact Nat.le_of_lt_succ (Nat.lt_of_mul_lt_mul_left h3)

/-- What is before the end of the words of a length is before the longer words. -/
theorem value_lt_first_of_lt_limit (h : value σ b < limit n b) (hlt : b < b') :
    value σ b' < first n b' := by
  by_contra hle
  have := limit_le_value_of_first_le (Nat.le_of_not_lt hle) hlt
  omega

/-- **No word begins another.** -/
theorem Has.unique (h : Has n σ b) (h' : Has n σ b') : b = b' := by
  rcases lt_trichotomy b b' with hlt | heq | hlt
  · have := limit_le_value_of_first_le h'.1 hlt
    exact absurd h.2 (by omega)
  · exact heq
  · have := limit_le_value_of_first_le h.1 hlt
    exact absurd h'.2 (by omega)

/-- A string that is before the end of the words of a length begins with a word. -/
theorem exists_has (h : value σ b < limit n b) : ∃ b' ≤ b, Has n σ b' := by
  induction b with
  | zero => exact ⟨0, Nat.le_refl 0, Nat.le_refl 0, h⟩
  | succ b ih =>
    rcases lt_or_ge (value σ (b + 1)) (first n (b + 1)) with hlt | hge
    · have hbefore : value σ b < limit n b := by
        rw [first_succ, value_succ] at hlt
        omega
      obtain ⟨b', hb', hhas⟩ := ih hbefore
      exact ⟨b', Nat.le_succ_of_le hb', hhas⟩
    · exact ⟨b + 1, le_rfl, hge, h⟩

end Code

end Plan9Port.Canonical
