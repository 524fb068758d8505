import Mathlib.Tactic.Ring

/-!
# Little-endian byte strings

## Main definitions

* `le w v`: the `w` low bytes of `v`, least significant first
* `ofLe bs`: the number whose bytes are `bs`

## Main results

* `ofLe_le`, `le_ofLe`: the two are inverse, up to truncation to `w` bytes
-/

namespace LittleEndian

open Nat

/-- The `w` low bytes of `v`, least significant first. -/
def le : Nat → Nat → List UInt8
  | 0, _ => []
  | w + 1, v => .ofNat v :: le w (v / 256)

/-- The number whose bytes are `bs`, least significant first. -/
def ofLe : List UInt8 → Nat
  | [] => 0
  | b :: bs => b.toNat + 256 * ofLe bs

@[simp] theorem length_le (w v : Nat) : (le w v).length = w := by
  induction w generalizing v with
  | zero => rfl
  | succ w ih => rw [le, List.length_cons, ih]

theorem ofLe_lt (bs : List UInt8) : ofLe bs < 256 ^ bs.length := by
  induction bs with
  | nil => simp [ofLe]
  | cons b bs ih =>
    have hb := b.toNat_lt
    rw [ofLe, List.length_cons, pow_succ]
    omega

/-- Reading back `w` bytes gives the number modulo `256 ^ w`. -/
theorem ofLe_le (w v : Nat) : ofLe (le w v) = v % 256 ^ w := by
  induction w generalizing v with
  | zero => simp [le, ofLe, mod_one]
  | succ w ih =>
    rw [le, ofLe, ih, pow_succ, mul_comm (256 ^ w), mod_mul]
    simp

theorem ofLe_le_of_lt {w v : Nat} (h : v < 256 ^ w) : ofLe (le w v) = v := by
  rw [ofLe_le, mod_eq_of_lt h]

/-- Every byte string is the encoding of its number. -/
theorem le_ofLe (bs : List UInt8) : le bs.length (ofLe bs) = bs := by
  induction bs with
  | nil => rfl
  | cons b bs ih =>
    have hb := b.toNat_lt
    have hdiv : (b.toNat + 256 * ofLe bs) / 256 = ofLe bs := by omega
    rw [List.length_cons, ofLe, le, hdiv, ih]
    congr 1
    apply UInt8.toNat_inj.mp
    simp only [UInt8.toNat_ofNat']
    omega

/-- Only the low bytes count. -/
theorem le_mod (w v : Nat) : le w (v % 256 ^ w) = le w v := by
  have h := le_ofLe (le w v)
  rwa [length_le, ofLe_le] at h

theorem le_injOn {w a b : Nat} (ha : a < 256 ^ w) (hb : b < 256 ^ w) (h : le w a = le w b) :
    a = b := by
  rw [← ofLe_le_of_lt ha, h, ofLe_le_of_lt hb]

/-! ## Bytes by shifting, words by or-ing -/

theorem le_two (v : Nat) : le 2 v = [.ofNat v, .ofNat (v >>> 8)] := by
  simp [le, shiftRight_eq_div_pow]

theorem le_four (v : Nat) :
    le 4 v = [.ofNat v, .ofNat (v >>> 8), .ofNat (v >>> 16), .ofNat (v >>> 24)] := by
  simp [le, shiftRight_eq_div_pow, Nat.div_div_eq_div_mul]

theorem le_eight (v : Nat) :
    le 8 v = [.ofNat v, .ofNat (v >>> 8), .ofNat (v >>> 16), .ofNat (v >>> 24),
      .ofNat (v >>> 32), .ofNat (v >>> 40), .ofNat (v >>> 48), .ofNat (v >>> 56)] := by
  simp [le, shiftRight_eq_div_pow, Nat.div_div_eq_div_mul]

/-- Or-ing a number above the low `i` bits adds. -/
theorem or_shiftLeft {a i : Nat} (ha : a < 2 ^ i) (b : Nat) : a ||| (b <<< i) = a + b * 2 ^ i := by
  rw [Nat.or_comm, ← shiftLeft_add_eq_or_of_lt ha, shiftLeft_eq, add_comm]

theorem ofLe_two (a b : UInt8) : ofLe [a, b] = a.toNat ||| (b.toNat <<< 8) := by
  have ha := a.toNat_lt
  rw [or_shiftLeft (by omega)]
  simp only [ofLe]
  omega

theorem ofLe_four (a b c d : UInt8) :
    ofLe [a, b, c, d] = a.toNat ||| (b.toNat <<< 8) ||| (c.toNat <<< 16) ||| (d.toNat <<< 24) := by
  have ha := a.toNat_lt
  have hb := b.toNat_lt
  have hc := c.toNat_lt
  rw [or_shiftLeft (i := 8) (by omega), or_shiftLeft (i := 16) (by omega),
    or_shiftLeft (i := 24) (by omega)]
  simp only [ofLe]
  omega

/-- A double word is its low word or-ed with its high word. -/
theorem ofLe_append (xs ys : List UInt8) :
    ofLe (xs ++ ys) = ofLe xs ||| (ofLe ys <<< (8 * xs.length)) := by
  have hpow : 2 ^ (8 * xs.length) = 256 ^ xs.length := by rw [Nat.pow_mul]
  rw [or_shiftLeft (hpow ▸ ofLe_lt xs), hpow]
  induction xs with
  | nil => simp [ofLe]
  | cons x xs ih =>
    rw [List.cons_append, ofLe, ih (by rw [Nat.pow_mul]), ofLe, List.length_cons]
    ring

/-! ## The most significant byte first -/

/-- The `w` low bytes of `v`, most significant first. -/
def be (w v : Nat) : List UInt8 := (le w v).reverse

/-- The number whose bytes are `bs`, most significant first. -/
def ofBe (bs : List UInt8) : Nat := ofLe bs.reverse

@[simp] theorem length_be (w v : Nat) : (be w v).length = w := by
  rw [be, List.length_reverse, length_le]

theorem ofBe_be (w v : Nat) : ofBe (be w v) = v % 256 ^ w := by
  rw [ofBe, be, List.reverse_reverse, ofLe_le]

theorem be_two (v : Nat) : be 2 v = [.ofNat (v >>> 8), .ofNat v] := by
  rw [be, le_two]
  rfl

theorem be_four (v : Nat) :
    be 4 v = [.ofNat (v >>> 24), .ofNat (v >>> 16), .ofNat (v >>> 8), .ofNat v] := by
  rw [be, le_four]
  rfl

theorem ofBe_two (a b : UInt8) : ofBe [a, b] = (a.toNat <<< 8) ||| b.toNat := by
  rw [Nat.or_comm]
  exact ofLe_two b a

theorem ofBe_four (a b c d : UInt8) :
    ofBe [a, b, c, d] = (a.toNat <<< 24) ||| (b.toNat <<< 16) ||| (c.toNat <<< 8) ||| d.toNat := by
  rw [show ofBe [a, b, c, d] = ofLe [d, c, b, a] from rfl, ofLe_four]
  -- the shifted words are opaque to what follows
  generalize a.toNat <<< 24 = x, b.toNat <<< 16 = y, c.toNat <<< 8 = z
  ac_rfl

end LittleEndian
