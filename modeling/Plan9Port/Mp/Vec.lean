import Plan9Port.Lib.Memory
import Plan9Port.Mp.Digit

/-!
# Vectors of digits

The loops of `libmp/port` over vectors of digits: `mpveccmp`, `mpvecadd`, `mpvecsub`,
`mpvecdigmuladd` and `mpvecdigmulsub`. An operand is the list of the digits the function is
given. A destination is the list of the digits at it that the function may touch, and the
result is what it then holds; the result is `none` if the loop runs past either. Each loop reads
digit `i` of its operands before it writes digit `i`, so the result is the same if the
destination is one of the operands.
-/

namespace Plan9Port.Mp

open Memory List

/-- The array `arr` with `f` run on the `len` digits at `off`, which have to lie in it. -/
def update (arr : List mpdigit) (off len : Nat) (f : List mpdigit → Option (List mpdigit)) :
    Option (List mpdigit) :=
  if off + len ≤ arr.length then (f (Memory.slice arr off len)).map (Memory.patch arr off) else none

variable {arr : List mpdigit} {len : Nat} {ds : List mpdigit} {off : Nat}

theorem update_eq {f : List mpdigit → Option (List mpdigit)} (hlen : off + len ≤ arr.length)
    (hf : f (slice arr off len) = some ds) : update arr off len f = some (patch arr off ds) := by
  rw [update, if_pos hlen, hf]
  rfl

/-- The number after a store, and what was there before it. -/
theorem val_patch (arr ds : List mpdigit) (h : off + ds.length ≤ arr.length) :
    val (patch arr off ds) + R ^ off * val (slice arr off ds.length) =
      val arr + R ^ off * val ds := by
  have harr := take_append_slice_append_drop arr off ds.length
  have hoff : (arr.take off).length = off := length_take_of_le (by omega)
  have hval := congrArg val harr
  rw [patch_eq_append h]
  simp only [val_append, hoff, length_append, length_slice h] at hval ⊢
  omega

theorem val_take_drop (ds : List mpdigit) (n : Nat) :
    val ds = val (ds.take n) + R ^ (ds.take n).length * val (ds.drop n) := by
  rw [← val_append, take_append_drop]

theorem val_take_le (ds : List mpdigit) (n : Nat) : val (ds.take n) ≤ val ds := by
  rw [val_take_drop ds n]
  exact Nat.le_add_right _ _

theorem val_slice_le (arr : List mpdigit) (off len : Nat) :
    R ^ off * val (slice arr off len) ≤ val arr := by
  rcases Nat.le_total off arr.length with h | h
  · have := Nat.mul_le_mul_left (R ^ off) (val_take_le (arr.drop off) len)
    rw [val_take_drop arr off, length_take_of_le h]
    exact this.trans (Nat.le_add_left _ _)
  · rw [slice, drop_eq_nil_of_le h]
    simp

section

variable (h : off + len + 1 ≤ arr.length) (hlt : val arr < R ^ (off + len))
include h hlt

/-- The digit above a number is 0. -/
theorem slice_succ_of_lt : slice arr off (len + 1) = slice arr off len ++ [0] := by
  rw [slice_add]
  congr 1
  refine val_inj (b := [0]) (length_slice h) ?_
  have hle := val_slice_le arr (off + len) 1
  by_contra hne
  have := Nat.le_mul_of_pos_right (R ^ (off + len)) (Nat.pos_of_ne_zero hne)
  omega

/-- A window with `x` added, and one more digit overwritten, where the number ends below it. -/
theorem val_patch_window {x : Nat} (hlen : ds.length = len + 1)
    (hds : val ds = val (slice arr off len) + x) :
    val (patch arr off ds) = val arr + R ^ off * x := by
  have hval := val_patch arr ds (by omega : off + _ ≤ _)
  rw [hlen, slice_succ_of_lt h hlt, val_append, hds] at hval
  simp only [val_singleton, UInt32.toNat_zero, mul_zero, add_zero, mul_add] at hval
  omega

end

variable {n : Nat}

theorem val_take_of_lt (h : val ds < R ^ n) : val (ds.take n) = val ds := by
  rcases Nat.le_total n ds.length with hn | hn
  · rw [val_take_drop ds n, length_take_of_le hn] at h ⊢
    rcases Nat.eq_zero_or_pos (val (ds.drop n)) with h0 | h0
    · rw [h0, mul_zero, add_zero]
    · have := Nat.le_mul_of_pos_right (R ^ n) h0
      omega
  · rw [take_of_length_le hn]

/-! ## Comparison -/

/-- The common digits, the highest first. -/
def veccmpLoop : List (mpdigit × mpdigit) → Int
  | [] => 0
  | (x, y) :: ds =>
    let d := x - y
    if d = 0 then veccmpLoop ds else if d > x then -1 else 1

/-- The sign of the difference. -/
def mpveccmp (a b : List mpdigit) : Int :=
  if (a.drop b.length).any (· != 0) then 1
  else if (b.drop a.length).any (· != 0) then -1
  else veccmpLoop (a.zip b).reverse

theorem veccmpLoop_append (ds es : List (mpdigit × mpdigit)) :
    veccmpLoop (ds ++ es) = if veccmpLoop ds = 0 then veccmpLoop es else veccmpLoop ds := by
  induction ds with
  | nil => simp [veccmpLoop]
  | cons d ds ih =>
    simp only [cons_append, veccmpLoop, ih]
    split_ifs <;> simp_all

/-- Two numbers that differ in a digit and in the digits above it. -/
theorem cmp_digits {x y m : Nat} (hx : x < R) (hy : y < R) :
    (x + R * m < y + R * n ↔ m < n ∨ m = n ∧ x < y) := by
  rcases lt_trichotomy m n with h | rfl | h
  · have := Nat.mul_le_mul_left R (Nat.succ_le_of_lt h)
    rw [Nat.mul_succ] at this
    omega
  · omega
  · have := Nat.mul_le_mul_left R (Nat.succ_le_of_lt h)
    rw [Nat.mul_succ] at this
    omega

variable {a b : List mpdigit}

theorem veccmpLoop_zip (hlen : a.length = b.length) :
    veccmpLoop (a.zip b).reverse =
      if val a < val b then -1 else if val b < val a then 1 else 0 := by
  induction a generalizing b with
  | nil => simp [length_eq_zero_iff.mp hlen.symm, veccmpLoop]
  | cons x a ih =>
    obtain ⟨y, b, rfl⟩ := exists_cons_of_length_eq_add_one hlen.symm
    have hsub := toNat_sub_borrow x y
    simp only [zip_cons_cons, reverse_cons, veccmpLoop_append, ih (Nat.succ.inj hlen), val_cons,
      cmp_digits (toNat_lt x) (toNat_lt y), cmp_digits (toNat_lt y) (toNat_lt x), veccmpLoop,
      gt_iff_lt, UInt32.lt_iff_toNat_lt, ← UInt32.toNat_inj, UInt32.toNat_zero] at hsub ⊢
    have hy := toNat_lt y
    rw [R_eq] at *
    split_ifs at * <;> omega

theorem any_ne_zero (ds : List mpdigit) : ds.any (· != 0) = true ↔ val ds ≠ 0 := by
  simp [Ne, val_eq_zero]

/-- A number with a digit above those of the other is the greater one. -/
theorem val_lt_of_drop (h : val (a.drop b.length) ≠ 0) : val b < val a := by
  have hlen : b.length ≤ a.length := by
    by_contra hlen
    exact h (by rw [drop_eq_nil_of_le (by omega)]; rfl)
  calc val b < R ^ b.length := val_lt b
    _ ≤ R ^ b.length * val (a.drop b.length) := Nat.le_mul_of_pos_right _ (Nat.pos_of_ne_zero h)
    _ ≤ val a := by
      rw [val_take_drop a b.length, length_take_of_le hlen]
      exact Nat.le_add_left _ _

theorem val_take_of_drop (h : val (a.drop n) = 0) : val (a.take n) = val a := by
  rw [val_take_drop a n, h, mul_zero, add_zero]

theorem mpveccmp_eq (a b : List mpdigit) :
    mpveccmp a b = if val a < val b then -1 else if val b < val a then 1 else 0 := by
  simp only [mpveccmp, any_ne_zero]
  by_cases ha : val (a.drop b.length) = 0
  · by_cases hb : val (b.drop a.length) = 0
    · have hzip : a.zip b = (a.take b.length).zip (b.take a.length) := by
        rw [zip_eq_zip_take_min, ← take_length (l := a), ← take_length (l := b)]
        simp only [take_take, length_take]
        simp [Nat.min_comm]
      rw [if_neg (not_not.mpr ha), if_neg (not_not.mpr hb), hzip,
        veccmpLoop_zip (by simp [Nat.min_comm]), val_take_of_drop ha, val_take_of_drop hb]
    · rw [if_neg (not_not.mpr ha), if_pos hb, if_pos (val_lt_of_drop hb)]
  · have := val_lt_of_drop ha
    rw [if_pos ha, if_neg (by omega), if_pos this]

theorem mpveccmp_neg (a b : List mpdigit) : mpveccmp a b < 0 ↔ val a < val b := by
  rw [mpveccmp_eq]
  split_ifs <;> simp <;> omega

/-! ## Addition and subtraction -/

theorem toNat_add_carry_one (x c : mpdigit) :
    let carry : mpdigit := if x + c < c then 1 else 0
    (x + c).toNat + R * carry.toNat = x.toNat + c.toNat ∧ carry.toNat ≤ 1 := by
  intro carry
  have hcarry : carry.toNat = if x + c < c then 1 else 0 := by
    simp only [carry]
    split_ifs <;> rfl
  rw [hcarry]
  exact ⟨toNat_add_carry x c, by split_ifs <;> omega⟩

variable {y x : mpdigit}

/-- A sum of three digits, with the carries of its two additions counted. -/
theorem toNat_add_carry_carry {c : mpdigit} (hc : c.toNat ≤ 1) :
    let carry : mpdigit := if x + c < c then 1 else 0
    let carry' := if x + c + y < y then carry + 1 else carry
    (x + c + y).toNat + R * carry'.toNat = x.toNat + c.toNat + y.toNat ∧ carry'.toNat ≤ 1 := by
  intro carry carry'
  have h1 := toNat_add_carry x c
  have h2 := toNat_add_carry (x + c) y
  have hx := toNat_lt x
  have hy := toNat_lt y
  have hcarry : carry'.toNat = (if x + c < c then 1 else 0) + (if x + c + y < y then 1 else 0) := by
    simp only [carry', carry]
    split_ifs <;> rfl
  rw [hcarry]
  rw [R_eq] at *
  constructor <;> split_ifs at * <;> omega

/-- The loop of `mpvecadd` over both. -/
def vecaddLoop : List mpdigit → List mpdigit → mpdigit → Option (List mpdigit)
  | x :: a, y :: b, carry =>
    let x := x + carry
    let carry := if x < carry then 1 else 0
    let x := x + y
    let carry := if x < y then carry + 1 else carry
    (vecaddLoop a b carry).map (x :: ·)
  | x :: a, [], carry =>
    let x := x + carry
    let carry := if x < carry then 1 else 0
    (vecaddLoop a [] carry).map (x :: ·)
  | [], [], carry => some [carry]
  | [], _ :: _, _ => none

/-- The sum of `a` and `b`, which has one digit more than `a`. -/
def mpvecadd (a b : List mpdigit) : Option (List mpdigit) :=
  vecaddLoop a b 0

variable {carry : mpdigit}

theorem vecaddLoop_spec (hlen : b.length ≤ a.length) (hc : carry.toNat ≤ 1) :
    ∃ s, vecaddLoop a b carry = some s ∧ s.length = a.length + 1 ∧
      val s = val a + val b + carry.toNat := by
  induction a generalizing b carry with
  | nil =>
    obtain rfl := length_eq_zero_iff.mp (Nat.le_zero.mp hlen)
    exact ⟨[carry], rfl, rfl, by simp⟩
  | cons x a ih =>
    cases b with
    | nil =>
      obtain ⟨hsum, hc'⟩ := toNat_add_carry_one x carry
      obtain ⟨s, hs, hslen, hsval⟩ := ih (b := []) (Nat.zero_le _) hc'
      refine ⟨(x + carry) :: s, ?_, by simp [hslen], ?_⟩
      · simp only [vecaddLoop, hs, Option.map_some]
      · rw [val_cons, hsval, val_cons, val_nil, mul_add, mul_add]
        omega
    | cons y b =>
      obtain ⟨hsum, hc'⟩ := toNat_add_carry_carry (x := x) (y := y) hc
      obtain ⟨s, hs, hslen, hsval⟩ := ih (Nat.le_of_succ_le_succ hlen) hc'
      refine ⟨(x + carry + y) :: s, ?_, by simp [hslen], ?_⟩
      · simp only [vecaddLoop, hs, Option.map_some]
      · rw [val_cons, hsval, val_cons, val_cons, mul_add, mul_add]
        omega

theorem mpvecadd_spec (hlen : b.length ≤ a.length) :
    ∃ s, mpvecadd a b = some s ∧ s.length = a.length + 1 ∧ val s = val a + val b :=
  vecaddLoop_spec hlen (Nat.zero_le 1)

/-- The loop of `mpvecsub` over both. -/
def vecsubLoop : List mpdigit → List mpdigit → mpdigit → Option (List mpdigit)
  | x :: a, y :: b, borrow =>
    let y := y + borrow
    let borrow := if y < borrow then 1 else 0
    let borrow := if x < y then borrow + 1 else borrow
    (vecsubLoop a b borrow).map ((x - y) :: ·)
  | x :: a, [], borrow =>
    let y := x - borrow
    let borrow := if y > x then 1 else 0
    (vecsubLoop a [] borrow).map (y :: ·)
  | [], [], _ => some []
  | [], _ :: _, _ => none

/-- The difference of `a` and `b`, which has as many digits as `a`. -/
def mpvecsub (a b : List mpdigit) : Option (List mpdigit) :=
  vecsubLoop a b 0

/-- A difference of digits, the second one raised by the borrow. -/
theorem toNat_sub_borrow_borrow {b : mpdigit} (hb : b.toNat ≤ 1) :
    let borrow : mpdigit := if y + b < b then 1 else 0
    let borrow' := if x < y + b then borrow + 1 else borrow
    (x - (y + b)).toNat + y.toNat + b.toNat = x.toNat + R * borrow'.toNat ∧ borrow'.toNat ≤ 1 := by
  intro borrow borrow'
  have h1 := toNat_add_carry y b
  have h2 := toNat_sub_borrow x (y + b)
  have hborrow : borrow'.toNat = (if y + b < b then 1 else 0) + (if x < y + b then 1 else 0) := by
    simp only [borrow', borrow]
    split_ifs <;> rfl
  rw [hborrow]
  simp only [UInt32.lt_iff_toNat_lt] at *
  rw [R_eq] at *
  constructor <;> split_ifs at * <;> omega

/-- A difference has wrapped around if and only if it is more than what it was taken from. -/
theorem toNat_sub_wrap (x y : mpdigit) :
    (x - y).toNat + y.toNat = x.toNat + R * (if x - y > x then 1 else 0) := by
  have h := toNat_sub_borrow x y
  have hy := toNat_lt y
  simp only [gt_iff_lt, UInt32.lt_iff_toNat_lt] at *
  rw [R_eq] at *
  split_ifs at * <;> omega

theorem toNat_sub_borrow_one (x b : mpdigit) :
    let borrow : mpdigit := if x - b > x then 1 else 0
    (x - b).toNat + b.toNat = x.toNat + R * borrow.toNat ∧ borrow.toNat ≤ 1 := by
  intro borrow
  have hborrow : borrow.toNat = if x - b > x then 1 else 0 := by
    simp only [borrow]
    split_ifs <;> rfl
  rw [hborrow]
  exact ⟨toNat_sub_wrap x b, by split_ifs <;> omega⟩

variable {borrow : mpdigit}

/-- What is borrowed from beyond the digits is a multiple `k` of the next power. -/
theorem vecsubLoop_spec (hlen : b.length ≤ a.length) (hb : borrow.toNat ≤ 1) :
    ∃ d k, vecsubLoop a b borrow = some d ∧ d.length = a.length ∧
      val d + val b + borrow.toNat = val a + R ^ a.length * k := by
  induction a generalizing b borrow with
  | nil =>
    obtain rfl := length_eq_zero_iff.mp (Nat.le_zero.mp hlen)
    exact ⟨[], borrow.toNat, rfl, rfl, by simp⟩
  | cons x a ih =>
    cases b with
    | nil =>
      obtain ⟨hdiff, hb'⟩ := toNat_sub_borrow_one x borrow
      obtain ⟨d, k, hd, hdlen, hdval⟩ := ih (b := []) (Nat.zero_le _) hb'
      refine ⟨(x - borrow) :: d, k, ?_, by simp [hdlen], ?_⟩
      · simp only [vecsubLoop, hd, Option.map_some]
      · have := congrArg (R * ·) hdval
        simp only [val_nil, mul_add, add_zero, ← mul_assoc, ← pow_succ'] at this
        simp only [val_cons, val_nil, length_cons]
        omega
    | cons y b =>
      obtain ⟨hdiff, hb'⟩ := toNat_sub_borrow_borrow (x := x) (y := y) hb
      obtain ⟨d, k, hd, hdlen, hdval⟩ := ih (Nat.le_of_succ_le_succ hlen) hb'
      refine ⟨(x - (y + borrow)) :: d, k, ?_, by simp [hdlen], ?_⟩
      · simp only [vecsubLoop, hd, Option.map_some]
      · have := congrArg (R * ·) hdval
        simp only [mul_add, ← mul_assoc, ← pow_succ'] at this
        simp only [val_cons, length_cons]
        omega

theorem mpvecsub_spec (hlen : b.length ≤ a.length) (h : val b ≤ val a) :
    ∃ d, mpvecsub a b = some d ∧ d.length = a.length ∧ val d + val b = val a := by
  obtain ⟨d, k, hd, hdlen, hdval⟩ := vecsubLoop_spec hlen (show (0 : mpdigit).toNat ≤ 1 by decide)
  refine ⟨d, hd, hdlen, ?_⟩
  -- nothing was borrowed, since the difference fits
  have hlt := val_lt d
  have hk : k = 0 := by
    by_contra hk
    have := Nat.le_mul_of_pos_right (R ^ a.length) (Nat.pos_of_ne_zero hk)
    rw [hdlen] at hlt
    rw [UInt32.toNat_zero] at hdval
    omega
  simpa [hk] using hdval

/-! ## Multiplication by a digit -/

/-- `part1` is the high digit of the product before, and `carry` what was carried then. -/
def vecdigmuladdLoop (m : mpdigit) :
    List mpdigit → List mpdigit → mpdigit → mpdigit → Option (List mpdigit)
  | b :: bs, y :: p, part1, carry =>
    let x := part1 + carry
    let carry := if x < carry then 1 else 0
    let part := mpdigmul b m
    let x := x + part.1
    let carry := if x < part.1 then carry + 1 else carry
    let x := x + y
    let carry := if x < y then carry + 1 else carry
    (vecdigmuladdLoop m bs p part.2 carry).map (x :: ·)
  | [], [_], part1, carry => some [part1 + carry]
  | _, _, _, _ => none

/-- Adds `b * m` to `p`, which has one digit more than `b`; that digit is overwritten. -/
def mpvecdigmuladd (b : List mpdigit) (m : mpdigit) (p : List mpdigit) : Option (List mpdigit) :=
  vecdigmuladdLoop m b p 0 0

variable {part1 m : mpdigit}

/-- One digit of the product, added to what came from below and to the digit there. -/
theorem digmuladd_step {b : mpdigit} (h : part1.toNat + carry.toNat < R) :
    let x := part1 + carry
    let carry1 : mpdigit := if x < carry then 1 else 0
    let part := mpdigmul b m
    let x1 := x + part.1
    let carry2 := if x1 < part.1 then carry1 + 1 else carry1
    let x2 := x1 + y
    let carry3 := if x2 < y then carry2 + 1 else carry2
    x2.toNat + R * (part.2.toNat + carry3.toNat) =
        part1.toNat + carry.toNat + b.toNat * m.toNat + y.toNat ∧
      part.2.toNat + carry3.toNat < R := by
  intro x carry1 part x1 carry2 x2 carry3
  have h1 : x.toNat + R * (if x < carry then 1 else 0) = _ := toNat_add_carry part1 carry
  have h2 : x1.toNat + R * (if x1 < part.1 then 1 else 0) = _ := toNat_add_carry x part.1
  have h3 : x2.toNat + R * (if x2 < y then 1 else 0) = _ := toNat_add_carry x1 y
  have hmul : part.1.toNat + R * part.2.toNat = b.toNat * m.toNat := mpdigmul_eq b m
  have hcarry : carry3.toNat = (if x < carry then 1 else 0) + (if x1 < part.1 then 1 else 0) +
      (if x2 < y then 1 else 0) := by
    simp only [carry3, carry2, carry1]
    split_ifs <;> rfl
  have heq : x2.toNat + R * (part.2.toNat + carry3.toNat) =
      part1.toNat + carry.toNat + b.toNat * m.toNat + y.toNat := by
    rw [hcarry]
    simp only [mul_add]
    omega
  refine ⟨heq, ?_⟩
  -- the whole sum is less than `R * R`
  have hb := toNat_lt b
  have hm := toNat_lt m
  have hy := toNat_lt y
  have hprod : b.toNat * m.toNat ≤ (R - 1) * (R - 1) := Nat.mul_le_mul (by omega) (by omega)
  by_contra hge
  simp only [R_eq] at *
  omega

variable {p : List mpdigit} {z : mpdigit}

theorem vecdigmuladdLoop_spec (hlen : p.length = b.length) (h : part1.toNat + carry.toNat < R) :
    ∃ q, vecdigmuladdLoop m b (p ++ [z]) part1 carry = some q ∧ q.length = b.length + 1 ∧
      val q = val p + val b * m.toNat + (part1.toNat + carry.toNat) := by
  induction b generalizing p part1 carry with
  | nil =>
    obtain rfl := length_eq_zero_iff.mp hlen
    refine ⟨[part1 + carry], rfl, rfl, ?_⟩
    rw [val_singleton, UInt32.toNat_add, Nat.mod_eq_of_lt (by exact h)]
    simp
  | cons b bs ih =>
    obtain ⟨y, p, rfl⟩ := exists_cons_of_length_eq_add_one hlen
    obtain ⟨heq, hlt⟩ := digmuladd_step (b := b) (m := m) (y := y) h
    obtain ⟨q, hq, hqlen, hqval⟩ := ih (Nat.succ.inj hlen) hlt
    refine ⟨(part1 + carry + (mpdigmul b m).1 + y) :: q, ?_, by simp [hqlen], ?_⟩
    · simp only [cons_append, vecdigmuladdLoop, hq, Option.map_some]
    · rw [val_cons, hqval, val_cons, val_cons, add_mul, mul_add, mul_add, mul_assoc]
      omega

theorem mpvecdigmuladd_spec (hlen : p.length = b.length) :
    ∃ q, mpvecdigmuladd b m (p ++ [z]) = some q ∧ q.length = b.length + 1 ∧
      val q = val p + val b * m.toNat :=
  vecdigmuladdLoop_spec hlen (by decide)

/-- As in `vecdigmuladdLoop`, with what is borrowed. The result has the sign of the difference. -/
def vecdigmulsubLoop (m : mpdigit) :
    List mpdigit → List mpdigit → mpdigit → mpdigit → Option (List mpdigit × Int)
  | b :: bs, x :: p, part1, borrow =>
    let y := x - borrow
    let borrow := if y > x then 1 else 0
    let x := part1
    let part := mpdigmul b m
    let x := x + part.1
    let borrow := if x < part.1 then borrow + 1 else borrow
    let x := y - x
    let borrow := if x > y then borrow + 1 else borrow
    (vecdigmulsubLoop m bs p part.2 borrow).map fun r => (x :: r.1, r.2)
  | [], [x], part1, borrow =>
    let y := x - borrow - part1
    some ([y], if y > x then -1 else 1)
  | _, _, _, _ => none

/-- Subtracts `b * m` from `p`, which has one digit more than `b`. -/
def mpvecdigmulsub (b : List mpdigit) (m : mpdigit) (p : List mpdigit) :
    Option (List mpdigit × Int) :=
  vecdigmulsubLoop m b p 0 0

theorem digmulsub_step {b : mpdigit} (h : part1.toNat + borrow.toNat < R) :
    let y := x - borrow
    let borrow1 : mpdigit := if y > x then 1 else 0
    let part := mpdigmul b m
    let x1 := part1 + part.1
    let borrow2 := if x1 < part.1 then borrow1 + 1 else borrow1
    let x2 := y - x1
    let borrow3 := if x2 > y then borrow2 + 1 else borrow2
    x2.toNat + (part1.toNat + borrow.toNat) + b.toNat * m.toNat =
        x.toNat + R * (part.2.toNat + borrow3.toNat) ∧
      part.2.toNat + borrow3.toNat < R := by
  intro y borrow1 part x1 borrow2 x2 borrow3
  have h1 : y.toNat + borrow.toNat = x.toNat + R * (if y > x then 1 else 0) :=
    toNat_sub_wrap x borrow
  have h2 : x1.toNat + R * (if x1 < part.1 then 1 else 0) = _ := toNat_add_carry part1 part.1
  have h3 : x2.toNat + x1.toNat = y.toNat + R * (if x2 > y then 1 else 0) := toNat_sub_wrap y x1
  have hmul : part.1.toNat + R * part.2.toNat = b.toNat * m.toNat := mpdigmul_eq b m
  have hborrow : borrow3.toNat = (if y > x then 1 else 0) + (if x1 < part.1 then 1 else 0) +
      (if x2 > y then 1 else 0) := by
    simp only [borrow3, borrow2, borrow1]
    split_ifs <;> rfl
  have heq : x2.toNat + (part1.toNat + borrow.toNat) + b.toNat * m.toNat =
      x.toNat + R * (part.2.toNat + borrow3.toNat) := by
    rw [hborrow]
    simp only [mul_add]
    omega
  refine ⟨heq, ?_⟩
  have hb := toNat_lt b
  have hm := toNat_lt m
  have hx := toNat_lt x2
  have hprod : b.toNat * m.toNat ≤ (R - 1) * (R - 1) := Nat.mul_le_mul (by omega) (by omega)
  by_contra hge
  simp only [R_eq] at *
  omega

/-- The last digit wraps around if and only if what is left to subtract is more than it. -/
theorem digmulsub_last (h : part1.toNat + borrow.toNat < R) :
    (x - borrow - part1).toNat + (part1.toNat + borrow.toNat) =
      x.toNat + R * (if x - borrow - part1 > x then 1 else 0) := by
  have h1 := toNat_sub_borrow x borrow
  have h2 := toNat_sub_borrow (x - borrow) part1
  have hd := toNat_lt (x - borrow - part1)
  simp only [gt_iff_lt, UInt32.lt_iff_toNat_lt] at *
  rw [R_eq] at *
  split_ifs at * <;> omega

theorem vecdigmulsubLoop_spec (hlen : p.length = b.length + 1)
    (h : part1.toNat + borrow.toNat < R) :
    ∃ q sign, vecdigmulsubLoop m b p part1 borrow = some (q, sign) ∧ q.length = b.length + 1 ∧
      (sign = 1 ∧ val q + val b * m.toNat + (part1.toNat + borrow.toNat) = val p ∨
        sign = -1 ∧ val q + val b * m.toNat + (part1.toNat + borrow.toNat) =
          val p + R ^ (b.length + 1)) := by
  induction b generalizing p part1 borrow with
  | nil =>
    obtain ⟨x, p, rfl⟩ := exists_cons_of_length_eq_add_one hlen
    obtain rfl := length_eq_zero_iff.mp (Nat.succ.inj hlen)
    have hlast := digmulsub_last (x := x) h
    refine ⟨[x - borrow - part1], if x - borrow - part1 > x then -1 else 1, rfl, rfl, ?_⟩
    simp only [val_singleton, val_nil, zero_mul, add_zero, length_nil, zero_add, pow_one]
    split_ifs at hlast ⊢ with hwrap
    · exact .inr ⟨rfl, by omega⟩
    · exact .inl ⟨rfl, by omega⟩
  | cons b bs ih =>
    obtain ⟨x, p, rfl⟩ := exists_cons_of_length_eq_add_one hlen
    obtain ⟨heq, hlt⟩ := digmulsub_step (b := b) (m := m) (x := x) h
    obtain ⟨q, sign, hq, hqlen, hqval⟩ := ih (Nat.succ.inj hlen) hlt
    refine ⟨(x - borrow - (part1 + (mpdigmul b m).1)) :: q, sign, ?_, by simp [hqlen], ?_⟩
    · simp only [vecdigmulsubLoop, hq, Option.map_some]
    rw [val_cons, val_cons, val_cons, add_mul, mul_assoc]
    rcases hqval with ⟨rfl, hqval⟩ | ⟨rfl, hqval⟩
    · have := congrArg (R * ·) hqval
      simp only [mul_add] at this heq
      exact .inl ⟨rfl, by omega⟩
    · have := congrArg (R * ·) hqval
      simp only [mul_add, ← pow_succ'] at this heq
      exact .inr ⟨rfl, by rw [length_cons]; omega⟩

theorem mpvecdigmulsub_spec (hlen : p.length = b.length + 1) :
    ∃ q sign, mpvecdigmulsub b m p = some (q, sign) ∧ q.length = b.length + 1 ∧
      (sign = 1 ∧ val q + val b * m.toNat = val p ∨
        sign = -1 ∧ val q + val b * m.toNat = val p + R ^ (b.length + 1)) :=
  vecdigmulsubLoop_spec hlen (by decide)

end Plan9Port.Mp
