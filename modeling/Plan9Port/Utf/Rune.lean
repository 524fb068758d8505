import Mathlib.Tactic.Ring
import Plan9Port.Lib.Except

/-!
# Runes and their UTF-8 forms

The conversions of `lib9/utf/rune.c`. A `char*` is the list of bytes from the pointer to the end
of its object, and every access is checked: reading past the end gives `none`, so a `some` says
which bytes a call looked at. The `int`s that count bytes and runes are unbounded.

## Main definitions

* `chartorune`, `runetochar`: one rune from bytes, and the bytes of one rune
* `runelen`, `runenlen`, `fullrune`: the separate length computations

## Main results

* `chartorune_runetochar`: decoding undoes encoding
* `chartorune_cases`: what `chartorune` can return: a bad byte, or a rune whose encoding it read
* `chartorune_take_of_fullrune`: a prefix that `fullrune` calls full decides the result
-/

namespace Plan9Port.Utf

open List Option UInt32 Nat

/-- `typedef unsigned int Rune`. -/
abbrev Rune := UInt32

/-- Maximum bytes per rune. -/
def UTFmax : Nat := 4

/-- Bytes below are runes of their own. -/
def Runeself : Nat := 0x80

/-- The rune that stands for a decoding error. -/
def Runeerror : Nat := 0xFFFD

/-- The largest rune value. -/
def Runemax : Nat := 0x10FFFF

/-- The bits of a rune in the bytes of its form. -/
def Bit1 : Nat := 7
def Bitx : Nat := 6
def Bit2 : Nat := 5
def Bit3 : Nat := 4
def Bit4 : Nat := 3
def Bit5 : Nat := 2

/-- The marks of these bytes. -/
def Tx : Nat := ((1 <<< (Bitx + 1)) - 1) ^^^ 0xFF
def T2 : Nat := ((1 <<< (Bit2 + 1)) - 1) ^^^ 0xFF
def T3 : Nat := ((1 <<< (Bit3 + 1)) - 1) ^^^ 0xFF
def T4 : Nat := ((1 <<< (Bit4 + 1)) - 1) ^^^ 0xFF
def T5 : Nat := ((1 <<< (Bit5 + 1)) - 1) ^^^ 0xFF

/-- The largest runes of each length. -/
def Rune1 : Nat := (1 <<< (Bit1 + 0 * Bitx)) - 1
def Rune2 : Nat := (1 <<< (Bit2 + 1 * Bitx)) - 1
def Rune3 : Nat := (1 <<< (Bit3 + 2 * Bitx)) - 1
def Rune4 : Nat := (1 <<< (Bit4 + 3 * Bitx)) - 1

/-- What is in a byte after the first, and its mark. -/
def Maskx : Nat := (1 <<< Bitx) - 1
def Testx : Nat := Maskx ^^^ 0xFF

/-- The `goto bad` exit of `chartorune`. -/
def bad : Rune × Nat := (.ofNat Runeerror, 1)

/-- `*(uchar*)(str+i)`. -/
def uchar (str : List UInt8) (i : Nat) : Option Nat :=
  str[i]?.map UInt8.toNat

/-- The rune at `str` and the number of bytes it takes. The bytes are read in order, each only
when the earlier ones did not decide. -/
def chartorune (str : List UInt8) : Option (Rune × Nat) := do
  let c ← uchar str 0
  if c < Tx then
    return (.ofNat c, 1)
  else
    let c1 := (← uchar str 1) ^^^ Tx
    if c1 &&& Testx ≠ 0 then
      return bad
    else if c < T3 then
      if c < T2 then
        return bad
      else
        let l := ((c <<< Bitx) ||| c1) &&& Rune2
        if l ≤ Rune1 then return bad else return (.ofNat l, 2)
    else
      let c2 := (← uchar str 2) ^^^ Tx
      if c2 &&& Testx ≠ 0 then
        return bad
      else if c < T4 then
        let l := ((((c <<< Bitx) ||| c1) <<< Bitx) ||| c2) &&& Rune3
        if l ≤ Rune2 then return bad else return (.ofNat l, 3)
      else
        -- `UTFmax >= 4` holds, so the four byte form is always tried
        let c3 := (← uchar str 3) ^^^ Tx
        if c3 &&& Testx ≠ 0 then
          return bad
        else if c < T5 then
          let l := ((((((c <<< Bitx) ||| c1) <<< Bitx) ||| c2) <<< Bitx) ||| c3) &&& Rune4
          if l ≤ Rune3 then return bad
          else if l > Runemax then return bad
          else return (.ofNat l, 4)
        else
          return bad

/-- The bytes written for `rune`; their number is the value returned. -/
def runetochar (rune : Rune) : List UInt8 :=
  let c := rune.toNat
  if c ≤ Rune1 then
    [.ofNat c]
  else if c ≤ Rune2 then
    [.ofNat (T2 ||| (c >>> (1 * Bitx))), .ofNat (Tx ||| (c &&& Maskx))]
  else
    let c := if c > Runemax then Runeerror else c
    if c ≤ Rune3 then
      [.ofNat (T3 ||| (c >>> (2 * Bitx))), .ofNat (Tx ||| ((c >>> (1 * Bitx)) &&& Maskx)),
        .ofNat (Tx ||| (c &&& Maskx))]
    else
      [.ofNat (T4 ||| (c >>> (3 * Bitx))), .ofNat (Tx ||| ((c >>> (2 * Bitx)) &&& Maskx)),
        .ofNat (Tx ||| ((c >>> (1 * Bitx)) &&& Maskx)), .ofNat (Tx ||| (c &&& Maskx))]

/-- `runetochar` into a scratch array. -/
def runelen (c : Rune) : Nat :=
  (runetochar c).length

/-- The bytes that `nrune` runes take, computed without encoding them. A rune is read into an
`int`. -/
def runenlen : List Rune → Nat
  | [] => 0
  | r :: rs =>
    let c := r.toInt32.toInt
    (if c ≤ Rune1 then 1
      else if c ≤ Rune2 then 2
      else if c ≤ Rune3 ∨ c > Runemax then 3
      else 4) + runenlen rs

/-- Do the first `n` bytes of `str` hold a whole rune? -/
def fullrune (str : List UInt8) (n : Nat) : Option Bool :=
  if n = 0 then some false
  else do
    let c ← uchar str 0
    if c < Tx then return true
    else if c < T3 then return decide (n ≥ 2)
    else if UTFmax = 3 ∨ c < T4 then return decide (n ≥ 3)
    else return decide (n ≥ 4)

/-! ## The masks as arithmetic -/

theorem rune1_eq : Rune1 = 0x7F := rfl
theorem rune2_eq : Rune2 = 0x7FF := rfl
theorem rune3_eq : Rune3 = 0xFFFF := rfl
theorem runemax_eq : Runemax = 0x10FFFF := rfl

/-- A byte of the form `10xxxxxx`. -/
def Cont (b : UInt8) : Prop := 0x80 ≤ b.toNat ∧ b.toNat < 0xC0

instance (b : UInt8) : Decidable (Cont b) := inferInstanceAs (Decidable (_ ∧ _))

theorem xor_tx_and_testx (b : UInt8) : (b.toNat ^^^ Tx) &&& Testx = 0 ↔ Cont b := by
  have h : ∀ n < 256, (n ^^^ Tx) &&& Testx = 0 ↔ 0x80 ≤ n ∧ n < 0xC0 := by decide +kernel
  exact h _ b.toNat_lt

variable {b : UInt8}

theorem Cont.xor_tx (hb : Cont b) : b.toNat ^^^ Tx = b.toNat - 0x80 := by
  have h : ∀ n < 256, 0x80 ≤ n ∧ n < 0xC0 → n ^^^ Tx = n - 0x80 := by decide +kernel
  exact h _ b.toNat_lt hb

theorem Cont.low (hb : Cont b) : b.toNat - 0x80 < 64 := by
  obtain ⟨_, h⟩ := hb
  omega

theorem Cont.test (hb : Cont b) : (b.toNat - 0x80) &&& Testx = 0 := by
  rw [← hb.xor_tx]
  exact (xor_tx_and_testx b).mpr hb

/-- Or-ing into the low bits of a multiple of `2 ^ i` adds. -/
theorem shiftLeft_or {i b : Nat} (a : Nat) (hb : b < 2 ^ i) : (a <<< i) ||| b = a * 2 ^ i + b := by
  rw [← shiftLeft_add_eq_or_of_lt hb, shiftLeft_eq]

variable {c1 : Nat}

theorem two_byte_value {c : Nat} (h1 : c1 < 64) :
    ((c <<< Bitx) ||| c1) &&& Rune2 = (c * 64 + c1) % 2048 := by
  rw [shiftLeft_or c (i := Bitx) h1]
  exact and_two_pow_sub_one_eq_mod _ 11

theorem three_byte_value {c c2 : Nat} (h1 : c1 < 64) (h2 : c2 < 64) :
    ((((c <<< Bitx) ||| c1) <<< Bitx) ||| c2) &&& Rune3 = (c * 4096 + c1 * 64 + c2) % 65536 := by
  rw [shiftLeft_or _ (i := Bitx) h2, shiftLeft_or c (i := Bitx) h1]
  refine (and_two_pow_sub_one_eq_mod _ 16).trans ?_
  simp only [Bitx]
  congr 1
  ring

theorem four_byte_value {c c2 c3 : Nat} (h1 : c1 < 64) (h2 : c2 < 64) (h3 : c3 < 64) :
    ((((((c <<< Bitx) ||| c1) <<< Bitx) ||| c2) <<< Bitx) ||| c3) &&& Rune4 =
      (c * 262144 + c1 * 4096 + c2 * 64 + c3) % 2097152 := by
  rw [shiftLeft_or _ (i := Bitx) h3, shiftLeft_or _ (i := Bitx) h2, shiftLeft_or c (i := Bitx) h1]
  refine (and_two_pow_sub_one_eq_mod _ 21).trans ?_
  simp only [Bitx]
  congr 1
  ring

variable {x : Nat} {r : Rune}

theorem tx_or (hx : x < 64) : Tx ||| x = 0x80 + x := shiftLeft_or (i := 6) 2 hx

theorem t2_or (hx : x < 32) : T2 ||| x = 0xC0 + x := shiftLeft_or (i := 5) 6 hx

theorem t3_or (hx : x < 16) : T3 ||| x = 0xE0 + x := shiftLeft_or (i := 4) 14 hx

theorem t4_or (hx : x < 8) : T4 ||| x = 0xF0 + x := shiftLeft_or (i := 3) 30 hx

theorem and_maskx (x : Nat) : x &&& Maskx = x % 64 := and_two_pow_sub_one_eq_mod x 6

/-! ## The encoder, one length at a time -/

section Encoder

theorem runetochar_one (h : r.toNat < 0x80) : runetochar r = [.ofNat r.toNat] := by
  have h1 : r.toNat ≤ Rune1 := le_of_lt_succ h
  simp only [runetochar, if_pos h1]

theorem runetochar_two (hl : 0x80 ≤ r.toNat) (hu : r.toNat < 0x800) :
    runetochar r = [.ofNat (0xC0 + r.toNat / 64), .ofNat (0x80 + r.toNat % 64)] := by
  have h1 : ¬ r.toNat ≤ Rune1 := Nat.not_le_of_lt hl
  have h2 : r.toNat ≤ Rune2 := le_of_lt_succ hu
  simp only [runetochar, if_neg h1, if_pos h2, and_maskx, shiftRight_eq_div_pow, Bitx]
  rw [t2_or (by omega), tx_or (by omega)]

theorem runetochar_three (hl : 0x800 ≤ r.toNat) (hu : r.toNat < 0x10000) :
    runetochar r = [.ofNat (0xE0 + r.toNat / 4096), .ofNat (0x80 + r.toNat / 64 % 64),
      .ofNat (0x80 + r.toNat % 64)] := by
  have h1 : ¬ r.toNat ≤ Rune1 := Nat.not_le_of_lt (Nat.lt_of_lt_of_le (by decide) hl)
  have h2 : ¬ r.toNat ≤ Rune2 := Nat.not_le_of_lt hl
  have h3 : r.toNat ≤ Rune3 := le_of_lt_succ hu
  have hm : ¬ r.toNat > Runemax := Nat.not_lt_of_le (h3.trans (by decide))
  simp only [runetochar, if_neg h1, if_neg h2, if_neg hm, if_pos h3, and_maskx,
    shiftRight_eq_div_pow, Bitx]
  rw [t3_or (by omega), tx_or (by omega), tx_or (by omega)]

theorem runetochar_four (hl : 0x10000 ≤ r.toNat) (hu : r.toNat ≤ Runemax) :
    runetochar r = [.ofNat (0xF0 + r.toNat / 262144), .ofNat (0x80 + r.toNat / 4096 % 64),
      .ofNat (0x80 + r.toNat / 64 % 64), .ofNat (0x80 + r.toNat % 64)] := by
  have h1 : ¬ r.toNat ≤ Rune1 := Nat.not_le_of_lt (Nat.lt_of_lt_of_le (by decide) hl)
  have h2 : ¬ r.toNat ≤ Rune2 := Nat.not_le_of_lt (Nat.lt_of_lt_of_le (by decide) hl)
  have h3 : ¬ r.toNat ≤ Rune3 := Nat.not_le_of_lt hl
  have hm : ¬ r.toNat > Runemax := Nat.not_lt_of_le hu
  have hu' : r.toNat ≤ 0x10FFFF := hu
  simp only [runetochar, if_neg h1, if_neg h2, if_neg hm, if_neg h3, and_maskx,
    shiftRight_eq_div_pow, Bitx]
  rw [t4_or (by omega), tx_or (by omega), tx_or (by omega), tx_or (by omega)]

end Encoder

/-! ## The decoder, one length at a time -/

variable {n : Nat} {s : List UInt8}

section Decoder

variable {a c d : UInt8} {rest : List UInt8}

theorem chartorune_one (h : a.toNat < 0x80) :
    chartorune (a :: rest) = some (.ofNat a.toNat, 1) := by
  simp [chartorune, uchar, show a.toNat < Tx from h]

/-- A first byte of at least `Tx` followed by no continuation byte is bad. -/
theorem chartorune_not_cont (h : 0x80 ≤ a.toNat) (hb : ¬ Cont b) :
    chartorune (a :: b :: rest) = some bad := by
  have ha : ¬ a.toNat < Tx := Nat.not_lt_of_le h
  simp [chartorune, uchar, ha, xor_tx_and_testx, hb]

/-- The symbolic steps through a `chartorune` whose bytes are known. -/
theorem chartorune_lt_t3 (hl : 0x80 ≤ a.toNat) (hu : a.toNat < 0xE0) (hb : Cont b) :
    chartorune (a :: b :: rest) =
      some (if a.toNat < 0xC2 then bad
        else (.ofNat ((a.toNat - 0xC0) * 64 + (b.toNat - 0x80)), 2)) := by
  have ha : ¬ a.toNat < Tx := Nat.not_lt_of_le hl
  have h3 : a.toNat < T3 := hu
  simp only [chartorune, uchar, getElem?_cons_zero, getElem?_cons_succ, map_some, Lib.some_bind,
    if_neg ha, ne_eq, hb.test, hb.xor_tx, not_true, if_false, if_pos h3, two_byte_value hb.low]
  obtain ⟨hb1, hb2⟩ := hb
  by_cases h2 : a.toNat < T2
  · rw [if_pos h2, if_pos (h2.trans_le (by decide))]
    rfl
  have h2' : 0xC0 ≤ a.toNat := Nat.le_of_not_lt h2
  have hv : (a.toNat * 64 + (b.toNat - 0x80)) % 2048 =
      (a.toNat - 0xC0) * 64 + (b.toNat - 0x80) := by omega
  have hc : (a.toNat - 0xC0) * 64 + (b.toNat - 0x80) ≤ Rune1 ↔ a.toNat < 0xC2 := by
    rw [rune1_eq]
    omega
  rw [if_neg h2, hv]
  by_cases hlt : a.toNat < 0xC2
  · rw [if_pos hlt, if_pos (hc.mpr hlt)]
    rfl
  · rw [if_neg hlt, if_neg (mt hc.mp hlt)]
    rfl

theorem chartorune_not_cont2 (h : 0xE0 ≤ a.toNat) (hb : Cont b) (hc : ¬ Cont c) :
    chartorune (a :: b :: c :: rest) = some bad := by
  have ha : ¬ a.toNat < Tx := Nat.not_lt_of_le (Nat.le_trans (by decide) h)
  have h3 : ¬ a.toNat < T3 := Nat.not_lt_of_le h
  simp [chartorune, uchar, ha, h3, xor_tx_and_testx, hb, hc]

theorem chartorune_lt_t4 (hl : 0xE0 ≤ a.toNat) (hu : a.toNat < 0xF0) (hb : Cont b) (hc : Cont c) :
    chartorune (a :: b :: c :: rest) =
      some (if (a.toNat - 0xE0) * 64 + (b.toNat - 0x80) < 0x20 then bad
        else (.ofNat ((a.toNat - 0xE0) * 4096 + (b.toNat - 0x80) * 64 + (c.toNat - 0x80)), 3)) := by
  have ha : ¬ a.toNat < Tx := Nat.not_lt_of_le (Nat.le_trans (by decide) hl)
  have h3 : ¬ a.toNat < T3 := Nat.not_lt_of_le hl
  have h4 : a.toNat < T4 := hu
  simp only [chartorune, uchar, getElem?_cons_zero, getElem?_cons_succ, map_some,
    Lib.some_bind, if_neg ha, ne_eq, hb.test, hb.xor_tx, hc.test, hc.xor_tx, not_true, if_false,
    if_neg h3, if_pos h4, three_byte_value hb.low hc.low]
  have hbl := hb.low
  have hcl := hc.low
  have hv : (a.toNat * 4096 + (b.toNat - 0x80) * 64 + (c.toNat - 0x80)) % 65536 =
      (a.toNat - 0xE0) * 4096 + (b.toNat - 0x80) * 64 + (c.toNat - 0x80) := by omega
  have hlt : (a.toNat - 0xE0) * 4096 + (b.toNat - 0x80) * 64 + (c.toNat - 0x80) ≤ Rune2 ↔
      (a.toNat - 0xE0) * 64 + (b.toNat - 0x80) < 0x20 := by
    rw [rune2_eq]
    omega
  rw [hv]
  simp only [hlt]
  split <;> rfl

theorem chartorune_not_cont3 (h : 0xF0 ≤ a.toNat) (hb : Cont b) (hc : Cont c) (hd : ¬ Cont d) :
    chartorune (a :: b :: c :: d :: rest) = some bad := by
  have ha : ¬ a.toNat < Tx := Nat.not_lt_of_le (Nat.le_trans (by decide) h)
  have h3 : ¬ a.toNat < T3 := Nat.not_lt_of_le (Nat.le_trans (by decide) h)
  have h4 : ¬ a.toNat < T4 := Nat.not_lt_of_le h
  simp [chartorune, uchar, ha, h3, h4, xor_tx_and_testx, hb, hc, hd]

theorem chartorune_ge_t4 (hl : 0xF0 ≤ a.toNat) (hb : Cont b) (hc : Cont c) (hd : Cont d) :
    chartorune (a :: b :: c :: d :: rest) =
      some (if 0xF8 ≤ a.toNat ∨ (a.toNat - 0xF0) * 64 + (b.toNat - 0x80) < 0x10 ∨
          0x110 ≤ (a.toNat - 0xF0) * 64 + (b.toNat - 0x80) then bad
        else (.ofNat ((a.toNat - 0xF0) * 262144 + (b.toNat - 0x80) * 4096 +
          (c.toNat - 0x80) * 64 + (d.toNat - 0x80)), 4)) := by
  have ha : ¬ a.toNat < Tx := Nat.not_lt_of_le (Nat.le_trans (by decide) hl)
  have h3 : ¬ a.toNat < T3 := Nat.not_lt_of_le (Nat.le_trans (by decide) hl)
  have h4 : ¬ a.toNat < T4 := Nat.not_lt_of_le hl
  simp only [chartorune, uchar, getElem?_cons_zero, getElem?_cons_succ, map_some,
    Lib.some_bind, if_neg ha, ne_eq, hb.test, hb.xor_tx, hc.test, hc.xor_tx, hd.test, hd.xor_tx,
    not_true, if_false, if_neg h3, if_neg h4, four_byte_value hb.low hc.low hd.low]
  have hbl := hb.low
  have hcl := hc.low
  have hdl := hd.low
  by_cases h5 : a.toNat < T5
  · have h5' : a.toNat < 0xF8 := h5
    have hv : (a.toNat * 262144 + (b.toNat - 0x80) * 4096 + (c.toNat - 0x80) * 64 +
        (d.toNat - 0x80)) % 2097152 = (a.toNat - 0xF0) * 262144 + (b.toNat - 0x80) * 4096 +
          (c.toNat - 0x80) * 64 + (d.toNat - 0x80) := by omega
    rw [if_pos h5, hv, rune3_eq, runemax_eq]
    split_ifs <;> first | omega | rfl
  · have h5' : 0xF8 ≤ a.toNat := Nat.le_of_not_lt h5
    rw [if_neg h5, if_pos (Or.inl h5')]
    rfl

/-- Bytes that decided a rune decide it whatever follows them. -/
theorem chartorune_append {v : Rune × Nat} (h : chartorune s = some v) (t : List UInt8) :
    chartorune (s ++ t) = some v := by
  rcases s with _ | ⟨a, s⟩
  · simp [chartorune, uchar] at h
  by_cases ha : a.toNat < Tx
  · simpa [chartorune, uchar, ha] using h
  rcases s with _ | ⟨b, s⟩
  · simp [chartorune, uchar, ha] at h
  by_cases hb : Cont b
  swap
  · simpa [chartorune, uchar, ha, xor_tx_and_testx, hb] using h
  by_cases h3 : a.toNat < T3
  · simpa [chartorune, uchar, ha, h3] using h
  rcases s with _ | ⟨c, s⟩
  · simp [chartorune, uchar, ha, h3, xor_tx_and_testx, hb] at h
  by_cases hc : Cont c
  swap
  · simpa [chartorune, uchar, ha, h3, xor_tx_and_testx, hb, hc] using h
  by_cases h4 : a.toNat < T4
  · simpa [chartorune, uchar, ha, h3, h4] using h
  rcases s with _ | ⟨d, s⟩
  · simp [chartorune, uchar, ha, h3, h4, xor_tx_and_testx, hb, hc] at h
  · exact h

/-- Decoding finds what encoding wrote, whatever follows it. -/
theorem chartorune_runetochar (hr : r.toNat ≤ Runemax) (t : List UInt8) :
    chartorune (runetochar r ++ t) = some (r, (runetochar r).length) := by
  refine chartorune_append (s := runetochar r) ?_ t
  have hmax : r.toNat ≤ 0x10FFFF := hr
  have hrune : ∀ v n : Nat, v = r.toNat → some (UInt32.ofNat v, n) = some (r, n) := by
    rintro _ n rfl
    rw [UInt32.ofNat_toNat]
  rcases lt_or_ge r.toNat 0x80 with h1 | h1
  · rw [runetochar_one h1, chartorune_one (by simp; omega)]
    simp [mod_eq_of_lt (show r.toNat < 256 by omega)]
  rcases lt_or_ge r.toNat 0x800 with h2 | h2
  · rw [runetochar_two h1 h2, chartorune_lt_t3 (by simp; omega) (by simp; omega)
      (by simp [Cont]; omega), if_neg (by simp; omega)]
    exact hrune _ _ (by simp; omega)
  rcases lt_or_ge r.toNat 0x10000 with h3 | h3
  · rw [runetochar_three h2 h3, chartorune_lt_t4 (by simp; omega) (by simp; omega)
      (by simp [Cont]; omega) (by simp [Cont]; omega), if_neg (by simp; omega)]
    exact hrune _ _ (by simp; omega)
  · rw [runetochar_four h3 hr, chartorune_ge_t4 (by simp; omega)
      (by simp [Cont]; omega) (by simp [Cont]; omega) (by simp [Cont]; omega),
      if_neg (by simp; omega)]
    exact hrune _ _ (by simp; omega)

/-! Re-encoding the value of a well-formed sequence gives the sequence back. -/

theorem runetochar_two_bytes (hl : 0xC2 ≤ a.toNat) (hu : a.toNat < 0xE0) (hb : Cont b)
    (hr : r.toNat = (a.toNat - 0xC0) * 64 + (b.toNat - 0x80)) : runetochar r = [a, b] := by
  obtain ⟨hb1, hb2⟩ := hb
  rw [runetochar_two (by omega) (by omega), hr]
  simp only [cons.injEq, and_true, ← UInt8.toNat_inj, UInt8.toNat_ofNat']
  omega

theorem runetochar_three_bytes (hl : 0xE0 ≤ a.toNat) (hu : a.toNat < 0xF0) (hb : Cont b)
    (hc : Cont c) (hlong : ¬ (a.toNat - 0xE0) * 64 + (b.toNat - 0x80) < 0x20)
    (hr : r.toNat = (a.toNat - 0xE0) * 4096 + (b.toNat - 0x80) * 64 + (c.toNat - 0x80)) :
    runetochar r = [a, b, c] := by
  obtain ⟨hb1, hb2⟩ := hb
  obtain ⟨hc1, hc2⟩ := hc
  rw [runetochar_three (by omega) (by omega), hr]
  simp only [cons.injEq, and_true, ← UInt8.toNat_inj, UInt8.toNat_ofNat']
  omega

theorem runetochar_four_bytes (hl : 0xF0 ≤ a.toNat) (hb : Cont b) (hc : Cont c) (hd : Cont d)
    (hlong : ¬ (0xF8 ≤ a.toNat ∨ (a.toNat - 0xF0) * 64 + (b.toNat - 0x80) < 0x10 ∨
      0x110 ≤ (a.toNat - 0xF0) * 64 + (b.toNat - 0x80)))
    (hr : r.toNat = (a.toNat - 0xF0) * 262144 + (b.toNat - 0x80) * 4096 + (c.toNat - 0x80) * 64 +
      (d.toNat - 0x80)) : runetochar r = [a, b, c, d] := by
  obtain ⟨hb1, hb2⟩ := hb
  obtain ⟨hc1, hc2⟩ := hc
  obtain ⟨hd1, hd2⟩ := hd
  rw [runetochar_four (by omega) (by rw [runemax_eq]; omega), hr]
  simp only [cons.injEq, and_true, ← UInt8.toNat_inj, UInt8.toNat_ofNat']
  omega

/-- What `chartorune` can return: the bad byte, or a rune whose encoding it has read. -/
theorem chartorune_cases (h : chartorune s = some (r, n)) :
    (r, n) = bad ∨ runetochar r = s.take n ∧ n = (runetochar r).length := by
  rcases s with _ | ⟨a, s⟩
  · simp [chartorune, uchar] at h
  have hval : ∀ x < 0x200000, (UInt32.ofNat x).toNat = x := fun x hx =>
    toNat_ofNat_of_lt (hx.trans (by decide))
  rcases lt_or_ge a.toNat 0x80 with h1 | h1
  · rw [chartorune_one h1] at h
    obtain ⟨rfl, rfl⟩ := Prod.mk.inj (some.inj h)
    right
    have hv := hval a.toNat (by omega)
    rw [runetochar_one (by omega), hv]
    simp
  rcases s with _ | ⟨b, s⟩
  · simp [chartorune, uchar, show ¬ a.toNat < Tx from Nat.not_lt_of_le h1] at h
  by_cases hb : Cont b
  swap
  · rw [chartorune_not_cont h1 hb] at h
    exact Or.inl (some.inj h).symm
  have hbl := hb.low
  rcases lt_or_ge a.toNat 0xE0 with h3 | h3
  · rw [chartorune_lt_t3 h1 h3 hb] at h
    split_ifs at h with h2
    · exact Or.inl (some.inj h).symm
    · obtain ⟨rfl, rfl⟩ := Prod.mk.inj (some.inj h)
      right
      rw [runetochar_two_bytes (by omega) h3 hb (hval _ (by omega))]
      simp
  have h3' : ¬ a.toNat < T3 := Nat.not_lt_of_le h3
  have h1' : ¬ a.toNat < Tx := Nat.not_lt_of_le h1
  rcases s with _ | ⟨c, s⟩
  · simp [chartorune, uchar, h1', h3', xor_tx_and_testx, hb] at h
  by_cases hc : Cont c
  swap
  · rw [chartorune_not_cont2 h3 hb hc] at h
    exact Or.inl (some.inj h).symm
  have hcl := hc.low
  rcases lt_or_ge a.toNat 0xF0 with h4 | h4
  · rw [chartorune_lt_t4 h3 h4 hb hc] at h
    split_ifs at h with h2
    · exact Or.inl (some.inj h).symm
    · obtain ⟨rfl, rfl⟩ := Prod.mk.inj (some.inj h)
      right
      rw [runetochar_three_bytes h3 h4 hb hc h2 (hval _ (by omega))]
      simp
  have h4' : ¬ a.toNat < T4 := Nat.not_lt_of_le h4
  rcases s with _ | ⟨d, s⟩
  · simp [chartorune, uchar, h1', h3', h4', xor_tx_and_testx, hb, hc] at h
  by_cases hd : Cont d
  swap
  · rw [chartorune_not_cont3 h4 hb hc hd] at h
    exact Or.inl (some.inj h).symm
  have hdl := hd.low
  rw [chartorune_ge_t4 h4 hb hc hd] at h
  split_ifs at h with h2
  · exact Or.inl (some.inj h).symm
  · obtain ⟨rfl, rfl⟩ := Prod.mk.inj (some.inj h)
    right
    rw [runetochar_four_bytes h4 hb hc hd h2 (hval _ (by omega))]
    simp

/-- A `chartorune` that succeeds advances, by no more bytes than it has seen. -/
theorem chartorune_len (h : chartorune s = some (r, n)) : 0 < n ∧ n ≤ s.length := by
  rcases s with _ | ⟨a, s⟩
  · simp [chartorune, uchar] at h
  rcases chartorune_cases h with hbad | ⟨htake, hn⟩
  · cases hbad
    simp
  have hlen := congrArg length htake
  rw [← hn, length_take] at hlen
  refine ⟨Nat.pos_of_ne_zero fun h0 => ?_, by omega⟩
  subst h0
  simp only [runetochar] at hn
  split_ifs at hn

/-- Where `chartorune` is undecided, the first byte asks for more continuation bytes. -/
theorem chartorune_eq_none (h : chartorune s = none) :
    s = [] ∨ ∃ a t, s = a :: t ∧ 0x80 ≤ a.toNat ∧ (∀ b ∈ t, Cont b) ∧
      (t.length = 0 ∨ t.length = 1 ∧ 0xE0 ≤ a.toNat ∨ t.length = 2 ∧ 0xF0 ≤ a.toNat) := by
  rcases s with _ | ⟨a, s⟩
  · exact .inl rfl
  right
  rcases lt_or_ge a.toNat 0x80 with h1 | h1
  · cases (chartorune_one h1).symm.trans h
  rcases s with _ | ⟨b, s⟩
  · exact ⟨a, [], rfl, h1, nofun, .inl rfl⟩
  by_cases hb : Cont b
  swap
  · cases (chartorune_not_cont h1 hb).symm.trans h
  rcases lt_or_ge a.toNat 0xE0 with h3 | h3
  · cases (chartorune_lt_t3 h1 h3 hb).symm.trans h
  rcases s with _ | ⟨c, s⟩
  · exact ⟨a, [b], rfl, h1, by simpa using hb, .inr (.inl ⟨rfl, h3⟩)⟩
  by_cases hc : Cont c
  swap
  · cases (chartorune_not_cont2 h3 hb hc).symm.trans h
  rcases lt_or_ge a.toNat 0xF0 with h4 | h4
  · cases (chartorune_lt_t4 h3 h4 hb hc).symm.trans h
  rcases s with _ | ⟨d, s⟩
  · exact ⟨a, [b, c], rfl, h1, by simp [hb, hc], .inr (.inr ⟨rfl, h4⟩)⟩
  by_cases hd : Cont d
  · cases (chartorune_ge_t4 h4 hb hc hd).symm.trans h
  · cases (chartorune_not_cont3 h4 hb hc hd).symm.trans h

/-- A prefix that `fullrune` calls full decides `chartorune`: it reads nothing past it. -/
theorem chartorune_take_of_fullrune (hn : n ≤ s.length) (h : fullrune s n = some true) :
    ∃ v, chartorune (s.take n) = some v := by
  rw [← Option.ne_none_iff_exists']
  intro hnone
  obtain _ | n := n
  · simp [fullrune] at h
  obtain _ | ⟨a, s⟩ := s
  · simp at hn
  rcases chartorune_eq_none hnone with hnil | ⟨a', t, htake, ha, -, hmore⟩
  · cases hnil
  obtain ⟨rfl, rfl⟩ := cons.inj htake
  have hlen : (s.take n).length = n := length_take_of_le (by simpa using hn)
  have hx : Tx = 0x80 := rfl
  have h3 : T3 = 0xE0 := rfl
  have h4 : T4 = 0xF0 := rfl
  simp [fullrune, uchar, UTFmax, hx, h3, h4] at h
  split_ifs at h <;> simp at h <;> omega

/-- A string always has a rune at its front: a NUL decides what comes before it. -/
theorem chartorune_of_mem_zero (h : 0 ∈ s) : ∃ v, chartorune s = some v := by
  rw [← Option.ne_none_iff_exists']
  intro hnone
  rcases chartorune_eq_none hnone with rfl | ⟨a, t, rfl, ha, hcont, -⟩
  · exact not_mem_nil h
  · rcases mem_cons.mp h with rfl | h
    · exact absurd ha (by decide)
    · exact absurd (hcont 0 h) (by decide)

end Decoder

/-! ## The lengths agree -/

/-- An encoding is full, and so is anything longer that starts with it. -/
theorem fullrune_runetochar (hr : r.toNat ≤ Runemax) (t : List UInt8)
    (hn : (runetochar r).length ≤ n) : fullrune (runetochar r ++ t) n = some true := by
  have hx : Tx = 0x80 := rfl
  have h3 : T3 = 0xE0 := rfl
  have h4 : T4 = 0xF0 := rfl
  rcases lt_or_ge r.toNat 0x80 with h | h
  · rw [runetochar_one h] at hn ⊢
    simp only [length_cons, length_nil] at hn
    simp [fullrune, uchar, hx, show n ≠ 0 by omega]
    omega
  rcases lt_or_ge r.toNat 0x800 with h' | h'
  · rw [runetochar_two h h'] at hn ⊢
    simp only [length_cons, length_nil] at hn
    simp [fullrune, uchar, hx, h3, show n ≠ 0 by omega, show 2 ≤ n by omega]
    omega
  rcases lt_or_ge r.toNat 0x10000 with h'' | h''
  · rw [runetochar_three h' h''] at hn ⊢
    simp only [length_cons, length_nil] at hn
    simp [fullrune, uchar, hx, h3, h4, show n ≠ 0 by omega, show 2 ≤ n by omega,
      show 3 ≤ n by omega]
    omega
  · rw [runetochar_four h'' hr] at hn ⊢
    simp only [length_cons, length_nil] at hn
    simp [fullrune, uchar, hx, h3, h4, show n ≠ 0 by omega, show 2 ≤ n by omega,
      show 3 ≤ n by omega, show 4 ≤ n by omega]

theorem length_runetochar (r : Rune) :
    (runetochar r).length = if r.toNat ≤ Rune1 then 1 else if r.toNat ≤ Rune2 then 2
      else if r.toNat ≤ Rune3 ∨ r.toNat > Runemax then 3 else 4 := by
  have herr : Runeerror ≤ Rune3 := by decide
  simp only [runetochar]
  split_ifs <;> first | rfl | omega

theorem runenlen_cons (hr : r.toNat ≤ Runemax) (rs : List Rune) :
    runenlen (r :: rs) = (runetochar r).length + runenlen rs := by
  have hmax : Runemax = 0x10FFFF := rfl
  have hc : r.toInt32.toInt = r.toNat := by
    have hlt : 2 * r.toNat < 2 ^ 32 := by omega
    exact BitVec.toInt_eq_toNat_of_lt hlt
  simp only [runenlen, hc, length_runetochar, gt_iff_lt, Int.ofNat_le, Int.ofNat_lt]

/-- `runenlen` is the length of what `runetochar` writes. -/
theorem runenlen_eq {rs : List Rune} (hrs : ∀ r ∈ rs, r.toNat ≤ Runemax) :
    runenlen rs = (rs.flatMap runetochar).length := by
  induction rs with
  | nil => rfl
  | cons r rs ih =>
    rw [runenlen_cons (hrs r (.head _)), flatMap_cons, length_append,
      ih fun r hr => hrs r (.tail _ hr)]

end Plan9Port.Utf
