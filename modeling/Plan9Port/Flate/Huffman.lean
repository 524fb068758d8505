import Plan9Port.Lib.Canonical

/-!
# Huffman decoding

`hufftab` of `libflate/inflate.c` builds the tables to decode symbols from a vector of code lengths,
and `decode` looks symbols up in them: first in `flat`, by the next few bits, and by `hdecsym` for
longer codes. The three loops that decode a symbol (`dynamicblock` has one, `decode` two) are the
same, and are `decsym` here.

An entry of a table that the call of `hufftab` has not filled in is `none`. To use such an entry, or
one that is not there at all, is an error `wild` here.
-/

namespace Plan9Port.Flate

/-- More than the bits of a code. -/
def MaxHuffBits : Nat := 17

/-- The symbols of the largest code. -/
def Nlitlen : Nat := 288

/-- The bits to look up at once. -/
def MaxFlatBits : Nat := 7

/-- The most symbols. -/
def MaxLeaf : Nat := Nlitlen

/-- The tables of a code. -/
structure Huff where
  maxbits : Nat
  minbits : Nat
  flatmask : Nat
  flat : List (Option UInt64)
  maxcode : List (Option UInt64)
  last : List (Option UInt64)
  decode : List (Option UInt64)

/-- Tables in which nothing is filled in. -/
def Huff.blank : Huff where
  maxbits := 0
  minbits := 0
  flatmask := 0
  flat := List.replicate (1 <<< MaxFlatBits) none
  maxcode := List.replicate MaxHuffBits none
  last := List.replicate MaxHuffBits none
  decode := List.replicate MaxLeaf none

/-- Why a call ends early: `hufftab` returns 0, or an index is outside of its array. -/
inductive Stop where
  | rejected
  | wild
  deriving DecidableEq, Repr

/-! ## Reversing bits -/

/-- An entry of `revtab`, as `inflateinit` makes it. -/
def revtab (i : Nat) : Nat :=
  (List.range 8).foldl (fun r j => if i &&& (1 <<< j) ≠ 0 then r ||| (0x80 >>> j) else r) 0

/-- The low `b` bits in reverse. -/
def revcode (c b : Nat) : Nat :=
  let c := c <<< (16 - b)
  revtab (c >>> 8) ||| (revtab (c &&& 0xff) <<< 8)

/-! ## The tables -/

/-- `xs[i] = x`. -/
def put (xs : List (Option UInt64)) (i : Nat) (x : UInt64) : Except Stop (List (Option UInt64)) :=
  if i < xs.length then .ok (xs.set i (some x)) else .error .wild

/-- What is counted of the code lengths. -/
structure Tally where
  bitcount : List Nat
  minbits : Int
  maxbits : Int

/-- The loop body that counts a code length, a `char`. -/
def Tally.add (t : Tally) (b : Int) : Except Stop Tally :=
  if b = 0 then .ok t
  else if 0 ≤ b ∧ b < MaxHuffBits then
    .ok { bitcount := t.bitcount.modify b.toNat (· + 1)
          minbits := if b < t.minbits then b else t.minbits
          maxbits := if b > t.maxbits then b else t.maxbits }
  else .error .wild

/-- How many codes of each length there are. -/
def tally (hb : List Int) : Except Stop Tally :=
  hb.foldlM Tally.add ⟨List.replicate MaxHuffBits 0, MaxHuffBits + 1, -1⟩

/-- The codes of each length: `code` and `c` run along, `nc`, `maxcode` and `last` are filled. -/
structure Ranges where
  code : Nat
  c : Nat
  nc : List Nat
  maxcode : List (Option UInt64)
  last : List (Option UInt64)

/-- The loop body for the length `b`. -/
def Ranges.add (bitcount : List Nat) (r : Ranges) (b : Nat) : Except Stop Ranges := do
  let count := bitcount.getD b 0
  let mincode := r.code <<< 1
  let code := mincode + count
  if code > 1 <<< b then .error .rejected
  else do
    let maxcode ← put r.maxcode b (.ofNat code - 1)
    let last ← put r.last b (.ofNat r.c + (.ofNat code - 1))
    return { code, c := r.c + count, nc := r.nc ++ [mincode], maxcode, last }

/-- The codes of each length. -/
def ranges (bitcount : List Nat) (maxbits : Nat) : Except Stop Ranges :=
  (List.range (maxbits + 1)).foldlM (Ranges.add bitcount)
    ⟨0, 0, [], List.replicate MaxHuffBits none, List.replicate MaxHuffBits none⟩

/-- Puts `x` into `flat` for the codes from `lo` on, `k` of them. -/
def fill (flatbits : Nat) (x : UInt64) (flat : List (Option UInt64)) (lo k : Nat) :
    Except Stop (List (Option UInt64)) :=
  (List.range' lo k).foldlM (fun flat m => put flat (revcode m flatbits) x) flat

/-- The least length of a code with each prefix, for the codes that are longer than `flatbits`. The
longest ones are entered first. -/
def hints (bitcount : List Nat) (maxcode : List (Option UInt64)) (flatbits : Nat) :
    Nat → List (Option UInt64) → Except Stop (List (Option UInt64))
  | 0, flat => .ok flat
  | b + 1, flat =>
    if b + 1 > flatbits then
      match (maxcode[b + 1]?).join with
      | none => .error .wild
      | some code =>
        if code = -1 then .ok flat
        else do
          let mincode := (code + 1 - .ofNat (bitcount.getD (b + 1) 0)).toNat
          let lo := mincode >>> (b + 1 - flatbits)
          let hi := code.toNat >>> (b + 1 - flatbits)
          let flat ← fill flatbits (.ofNat (((b + 1) <<< 8) ||| 0xff)) flat lo (hi + 1 - lo)
          hints bitcount maxcode flatbits b flat
    else .ok flat

/-- The tables while symbols are entered. -/
structure Entries where
  nc : List Nat
  flat : List (Option UInt64)
  decode : List (Option UInt64)

/-- The loop body for the symbol `i` with the code length `b`. -/
def Entries.add (last : List (Option UInt64)) (maxleaf flatbits minbits : Nat) (e : Entries)
    (ib : Nat × Int) : Except Stop Entries :=
  let (i, b) := ib
  if b ≤ 0 then .ok e
  else do
    let b := b.toNat
    let c := e.nc.getD b 0
    let nc := e.nc.modify b (· + 1)
    let flat ←
      (if b ≤ flatbits then
        let ec := (c + 1) <<< (flatbits - b)
        if ec > 1 <<< flatbits then .error .rejected
        else
          let lo := c <<< (flatbits - b)
          fill flatbits (.ofNat ((i <<< 8) ||| b)) e.flat lo (ec - lo)
      else .ok e.flat)
    if b > minbits then
      match (last[b]?).join with
      | none => .error .wild
      | some l =>
        let c := l - .ofNat c
        if c ≥ .ofNat maxleaf then .error .rejected
        else do
          let decode ← put e.decode c.toNat (.ofNat i)
          return { nc, flat, decode }
    else return { nc, flat, decode := e.decode }

/-- The tables for a vector of lengths. -/
def hufftab (hb : List Int) (flatbits : Nat) : Except Stop Huff := do
  let t ← tally hb
  if t.maxbits ≤ 0 then return Huff.blank
  else do
    let maxbits := t.maxbits.toNat
    let r ← ranges t.bitcount maxbits
    let flatbits := if flatbits > maxbits then maxbits else flatbits
    let minbits := if t.minbits.toNat > flatbits then flatbits else t.minbits.toNat
    let flat₀ := Huff.blank.flat
    let flat ← (List.range (1 <<< flatbits)).foldlM (fun flat i => put flat i (-1)) flat₀
    let flat ← hints t.bitcount r.maxcode flatbits maxbits flat
    let e ← (hb.zipIdx.map Prod.swap).foldlM (Entries.add r.last hb.length flatbits minbits)
      ⟨r.nc, flat, Huff.blank.decode⟩
    return { maxbits, minbits, flatmask := (1 <<< flatbits) - 1, flat := e.flat
             maxcode := r.maxcode, last := r.last, decode := e.decode }

/-! ## Decoding a symbol -/

/-- What is read: `bytes` is what `get` will return. -/
structure Input where
  bytes : List UInt8
  sreg : Nat
  nbits : Nat
  deriving DecidableEq

/-- Why no symbol is decoded. The last one is for a loop that does not end. -/
inductive Fault where
  | corrupted
  | inputFail
  | wild
  | stuck
  deriving DecidableEq, Repr

/-- The loop of `sregfill`. -/
def sregfillLoop (n : Nat) : List UInt8 → Nat → Nat → Except Fault Input
  | bytes, sreg, nbits =>
    if n > nbits then
      match bytes with
      | [] => .error .inputFail
      | c :: bytes => sregfillLoop n bytes (sreg ||| (c.toNat <<< nbits)) (nbits + 8)
    else .ok ⟨bytes, sreg, nbits⟩
termination_by structural bytes => bytes

/-- Bytes are read until there are `n` bits. -/
def sregfill (inp : Input) (n : Nat) : Except Fault Input :=
  sregfillLoop n inp.bytes inp.sreg inp.nbits

/-- The register without its first `nb` bits. -/
def Input.drop (inp : Input) (nb : Nat) : Input :=
  { inp with sreg := inp.sreg >>> nb, nbits := inp.nbits - nb }

/-- An entry of a table. -/
def entry (xs : List (Option UInt64)) (i : Nat) : Except Fault UInt64 :=
  match (xs[i]?).join with
  | none => .error .wild
  | some x => .ok x

/-- The loop of `hdecsym`, for `nb` and the lengths up to `maxbits`, `k` in all. -/
def hdecLoop (h : Huff) : Nat → Nat → Input → Except Fault (Nat × Input)
  | 0, _, _ => .error .corrupted
  | k + 1, nb, inp => do
    let inp ← (if inp.nbits < nb then sregfill inp nb else .ok inp)
    let c := revtab (inp.sreg &&& 0xff) <<< 8
    let c := c ||| revtab ((inp.sreg >>> 8) &&& 0xff)
    let c := c >>> (16 - nb)
    let maxcode ← entry h.maxcode nb
    -- the comparison is one of unsigned numbers
    if UInt64.ofNat c ≤ maxcode then do
      let l ← entry h.last nb
      let sym ← entry h.decode (l - .ofNat c).toNat
      return (sym.toNat, inp.drop nb)
    else hdecLoop h k (nb + 1) inp

/-- `hdecsym`, with an entry of `flat` as an `int`. -/
def hdecsym (h : Huff) (inp : Input) (nb : Int) : Except Fault (Nat × Input) :=
  let nb := if nb % 256 = 0xff then nb / 256 else nb % 256
  -- the loop begins with maxcode[nb]
  if nb < 0 then .error .wild
  else hdecLoop h (h.maxbits + 1 - nb.toNat) nb.toNat inp

/-- The loop that decodes a symbol, with the number `nb` of bits to get first. -/
def decsymLoop (h : Huff) : Nat → Nat → Input → Except Fault (Nat × Input)
  | 0, _, _ => .error .stuck
  | fuel + 1, nb, inp => do
    let inp ← (if inp.nbits < nb then sregfill inp nb else .ok inp)
    let x ← entry h.flat (inp.sreg &&& h.flatmask)
    let c : Int := x.toUInt32.toInt32.toInt
    let nb := (c % 256).toNat
    if nb > inp.nbits then
      if nb ≠ 0xff then decsymLoop h fuel nb inp
      else hdecsym h inp c
    else return ((c / 256).toNat, inp.drop nb)

/-- The number of bits to get grows with each round, and is less than 255. -/
def decsym (h : Huff) (inp : Input) : Except Fault (Nat × Input) :=
  decsymLoop h 256 h.minbits inp

/-! ## Bits -/

open Canonical Input List Nat

theorem testBit_value (σ : Nat → Bool) (b j : Nat) :
    (value σ b).testBit j = (decide (j < b) && σ (b - 1 - j)) := by
  induction b generalizing j with
  | zero => simp [value]
  | succ b ih =>
    have hbit : value σ (b + 1) = 2 * value σ b + (σ b).toNat := rfl
    rcases j with _ | j
    · rw [hbit, testBit_zero]
      cases hσ : σ b <;> simp [hσ]
    · have hdiv : value σ (b + 1) / 2 = value σ b := by
        have := Bool.toNat_le (σ b)
        omega
      rw [testBit_succ, hdiv, ih]
      simp only [Nat.add_lt_add_iff_right, show b + 1 - 1 - (j + 1) = b - 1 - j by omega]

variable {b x i : Nat}

/-- The bits that a number below `2 ^ b` is made of, read back. -/
theorem value_testBit (h : x < 2 ^ b) : value (fun i => x.testBit (b - 1 - i)) b = x := by
  refine eq_of_testBit_eq fun j => ?_
  rw [testBit_value]
  by_cases hj : j < b
  · simp [hj, show b - 1 - (b - 1 - j) = j by omega]
  · have hlt : x < 2 ^ j := Nat.lt_of_lt_of_le h (Nat.pow_le_pow_right (by decide) (by omega))
    simp [hj, testBit_lt_two_pow hlt]

theorem testBit_revtab (hi : i < 256) (j : Nat) :
    (revtab i).testBit j = (decide (j < 8) && i.testBit (7 - j)) := by
  have hall : ∀ i : Fin 256, revtab i < 256 ∧
      ∀ j : Fin 8, (revtab i).testBit j = (i : Nat).testBit (7 - j) := by decide +kernel
  obtain ⟨hlt, hbit⟩ := hall ⟨i, hi⟩
  by_cases hj : j < 8
  · simpa [hj] using hbit ⟨j, hj⟩
  · have hpow : 2 ^ 8 ≤ 2 ^ j := Nat.pow_le_pow_right (by decide) (by omega)
    have hsmall : revtab i < 2 ^ j := Nat.lt_of_lt_of_le hlt hpow
    simp [hj, testBit_lt_two_pow hsmall]

variable {c : Nat}

/-- The bits of a code, the first one lowest. -/
theorem testBit_revcode (hc : c < 2 ^ b) (hb : b ≤ 16) (j : Nat) :
    (revcode c b).testBit j = (decide (j < b) && c.testBit (b - 1 - j)) := by
  obtain ⟨x, hx⟩ : ∃ x, x = c <<< (16 - b) := ⟨_, rfl⟩
  have hlt : x < 2 ^ 16 := by
    have : c * 2 ^ (16 - b) < 2 ^ b * 2 ^ (16 - b) :=
      Nat.mul_lt_mul_of_pos_right hc (Nat.two_pow_pos _)
    rwa [← pow_add, Nat.add_sub_cancel' hb, ← shiftLeft_eq, ← hx] at this
  have hbit : ∀ k ≤ 15, x.testBit (15 - k) = (decide (k < b) && c.testBit (b - 1 - k)) := by
    intro k hk
    rw [hx, testBit_shiftLeft]
    by_cases hkb : k < b
    · simp [hkb, show 16 - b ≤ 15 - k by omega, show 15 - k - (16 - b) = b - 1 - k by omega]
    · simp [hkb, show ¬ 16 - b ≤ 15 - k by omega]
  have hhi : x >>> 8 < 256 := by
    rw [shiftRight_eq_div_pow]
    omega
  have hlo : x &&& 0xff < 256 := and_lt_two_pow x (n := 8) (by decide)
  simp only [revcode, ← hx, testBit_or, testBit_shiftLeft, testBit_revtab hhi,
    testBit_revtab hlo, testBit_shiftRight, testBit_and]
  rcases lt_or_ge j 8 with h8 | h8
  · have := hbit j (by omega)
    rw [← this, show 8 + (7 - j) = 15 - j by omega]
    simp [h8, show ¬ 8 ≤ j by omega]
  rcases lt_or_ge j 16 with h16 | h16
  · have := hbit j (by omega)
    have hmask : (0xff : Nat).testBit (7 - (j - 8)) = true := by
      rw [show (0xff : Nat) = 2 ^ 8 - 1 from rfl, testBit_two_pow_sub_one]
      simp
      omega
    rw [← this, hmask, show 7 - (j - 8) = 15 - j by omega]
    simp [show ¬ j < 8 by omega, h8, show j - 8 < 8 by omega]
  · simp [show ¬ j < 8 by omega, show ¬ j - 8 < 8 by omega, show ¬ j < b by omega]

variable {nb : Nat}

/-- What `hdecsym` makes of the register. -/
theorem reversed_eq_value (hnb : nb ≤ 16) :
    ((revtab (x &&& 0xff) <<< 8) ||| revtab ((x >>> 8) &&& 0xff)) >>> (16 - nb) =
      value x.testBit nb := by
  have hmask : ∀ k < 8, (0xff : Nat).testBit k = true := by decide
  have hlo : ∀ y : Nat, y &&& 0xff < 256 := fun y => and_lt_two_pow y (n := 8) (by decide)
  refine eq_of_testBit_eq fun j => ?_
  rw [testBit_shiftRight, testBit_value]
  simp only [testBit_or, testBit_shiftLeft, testBit_revtab (hlo _), testBit_shiftRight, testBit_and]
  rcases lt_or_ge (16 - nb + j) 8 with h8 | h8
  · rw [hmask (7 - (16 - nb + j)) (by omega), show 8 + (7 - (16 - nb + j)) = nb - 1 - j by omega]
    simp [h8, show ¬ 8 ≤ 16 - nb + j by omega, show j < nb by omega]
  rcases lt_or_ge (16 - nb + j) 16 with h16 | h16
  · rw [hmask (7 - (16 - nb + j - 8)) (by omega), show 7 - (16 - nb + j - 8) = nb - 1 - j by omega]
    simp [h8, show ¬ 16 - nb + j < 8 by omega, show 16 - nb + j - 8 < 8 by omega,
      show j < nb by omega]
  · simp [show ¬ 16 - nb + j < 8 by omega, show ¬ 16 - nb + j - 8 < 8 by omega,
      show ¬ j < nb by omega]

/-- The index into `flat`, for the first bits of the register. -/
theorem and_mask_eq_revcode (x : Nat) (hb : b ≤ 16) :
    x &&& (2 ^ b - 1) = revcode (value x.testBit b) b := by
  refine eq_of_testBit_eq fun j => ?_
  rw [testBit_revcode (value_lt _ _) hb, testBit_value, testBit_and, testBit_two_pow_sub_one]
  by_cases hj : j < b
  · simp [hj, show b - 1 - j < b by omega, show b - 1 - (b - 1 - j) = j by omega]
  · simp [hj]

theorem revcode_inj {c' : Nat} (hc : c < 2 ^ b) (hc' : c' < 2 ^ b) (hb : b ≤ 16)
    (h : revcode c b = revcode c' b) : c = c' := by
  refine eq_of_testBit_eq fun j => ?_
  by_cases hj : j < b
  · have hbit := congrArg (fun x => testBit x (b - 1 - j)) h
    simpa [testBit_revcode hc hb, testBit_revcode hc' hb, show b - 1 - j < b by omega,
      show b - 1 - (b - 1 - j) = j by omega] using hbit
  · have hle : 2 ^ b ≤ 2 ^ j := Nat.pow_le_pow_right (by decide) (by omega)
    rw [testBit_lt_two_pow (by omega), testBit_lt_two_pow (by omega)]

theorem revcode_lt (hc : c < 2 ^ b) (hb : b ≤ 16) : revcode c b < 2 ^ b := by
  refine lt_pow_two_of_testBit _ fun j hj => ?_
  simp [testBit_revcode hc hb, show ¬ j < b by omega]

/-! ## What is left to read -/

/-- The bits of a byte, in the order in which they are read. -/
def byteBits (c : UInt8) : List Bool := (List.range 8).map c.toNat.testBit

/-- The bits that are left: those in the register, and those of the bytes to come. -/
def Input.bits (inp : Input) : List Bool :=
  (List.range inp.nbits).map inp.sreg.testBit ++ inp.bytes.flatMap byteBits

/-- The bits that are left, with zeros after their end. -/
def Input.stream (inp : Input) : Nat → Bool := fun i => inp.bits.getD i false

/-- The register has no other bits than those that were read, and there are few of them. -/
structure Input.Ok (inp : Input) : Prop where
  sreg_lt : inp.sreg < 2 ^ inp.nbits
  nbits_le : inp.nbits ≤ 23

theorem Input.length_bits (inp : Input) : inp.bits.length = inp.nbits + 8 * inp.bytes.length := by
  simp [bits, byteBits, length_flatMap]
  omega

theorem Input.getElem?_bits (inp : Input) (h : i < inp.nbits) :
    inp.bits[i]? = some (inp.sreg.testBit i) := by
  rw [bits, getElem?_append_left (by simpa using h)]
  simp [h]

variable {inp : Input}

/-- The register holds the first bits, with zeros after them. -/
theorem Input.Ok.cut_stream (h : inp.Ok) : cut inp.stream inp.nbits = inp.sreg.testBit := by
  funext i
  rw [cut]
  split_ifs with hi
  · rw [stream, getD_eq_getElem?_getD, inp.getElem?_bits hi, Option.getD_some]
  · have hle : 2 ^ inp.nbits ≤ 2 ^ i := Nat.pow_le_pow_right (by decide) (by omega)
    rw [testBit_lt_two_pow (Nat.lt_of_lt_of_le h.sreg_lt hle)]

/-- One more byte in the register. -/
theorem bits_push (c : UInt8) (bytes : List UInt8) {sreg nbits : Nat} (h : sreg < 2 ^ nbits) :
    bits ⟨bytes, sreg ||| (c.toNat <<< nbits), nbits + 8⟩ = bits ⟨c :: bytes, sreg, nbits⟩ := by
  have hlow : (range nbits).map (sreg ||| (c.toNat <<< nbits)).testBit =
      (range nbits).map sreg.testBit := by
    refine map_congr_left fun i hi => ?_
    rw [mem_range] at hi
    simp [testBit_or, testBit_shiftLeft, show ¬ nbits ≤ i by omega]
  have hhigh : (range 8).map ((sreg ||| (c.toNat <<< nbits)).testBit ∘ (nbits + ·)) =
      byteBits c := by
    refine map_congr_left fun i _ => ?_
    have hpow : 2 ^ nbits ≤ 2 ^ (nbits + i) := Nat.pow_le_pow_right (by decide) (by omega)
    simp [testBit_or, testBit_shiftLeft, testBit_lt_two_pow (h.trans_le hpow)]
  simp only [Input.bits, range_add, map_append, map_map, hlow, hhigh, flatMap_cons, append_assoc]

theorem Input.Ok.push {c : UInt8} {bytes : List UInt8} {sreg nbits : Nat}
    (h : (Input.mk (c :: bytes) sreg nbits).Ok) (hlt : nbits < 16) :
    (Input.mk bytes (sreg ||| (c.toNat <<< nbits)) (nbits + 8)).Ok := by
  refine ⟨?_, by simp only; omega⟩
  have hsreg : sreg < 2 ^ (nbits + 8) :=
    Nat.lt_of_lt_of_le h.sreg_lt (Nat.pow_le_pow_right (by decide) (by simp))
  have hbyte : c.toNat <<< nbits < 2 ^ (nbits + 8) := by
    rw [shiftLeft_eq, pow_add, mul_comm]
    exact Nat.mul_lt_mul_of_pos_left c.toNat_lt (Nat.two_pow_pos _)
  exact or_lt_two_pow hsreg hbyte

theorem sregfillLoop_spec {n : Nat} (hn : n ≤ 16) (bytes : List UInt8) (sreg nbits : Nat)
    (h : (Input.mk bytes sreg nbits).Ok) :
    if n ≤ (Input.mk bytes sreg nbits).bits.length then
      ∃ inp, sregfillLoop n bytes sreg nbits = .ok inp ∧
        inp.bits = (Input.mk bytes sreg nbits).bits ∧ inp.Ok ∧ n ≤ inp.nbits ∧ nbits ≤ inp.nbits
    else sregfillLoop n bytes sreg nbits = .error .inputFail := by
  induction bytes generalizing sreg nbits with
  | nil =>
    rw [sregfillLoop, Input.length_bits]
    split_ifs with h1 h2 h2
    · exact absurd h1 (by simp only [length_nil]; omega)
    · exact ⟨_, rfl, rfl, h, by simp only; omega, le_rfl⟩
    · rfl
    · exact absurd h1 (by simp only [length_nil]; omega)
  | cons c bytes ih =>
    rw [sregfillLoop]
    by_cases hlt : n > nbits
    · have hpush := ih _ _ (h.push (by omega))
      rw [bits_push c bytes h.sreg_lt] at hpush
      rw [if_pos hlt]
      split_ifs at hpush ⊢ with hlen
      · obtain ⟨inp, hrun, hbits, hok, hge, hle⟩ := hpush
        exact ⟨inp, hrun, hbits, hok, hge, by omega⟩
      · exact hpush
    · rw [if_neg hlt, if_pos (by rw [Input.length_bits]; simp only; omega)]
      exact ⟨_, rfl, rfl, h, by simp only; omega, le_rfl⟩

theorem Input.bits_drop (inp : Input) (h : nb ≤ inp.nbits) :
    (inp.drop nb).bits = inp.bits.drop nb := by
  have hrange : (range inp.nbits).drop nb = (range (inp.nbits - nb)).map (nb + ·) := by
    rw [← range'_eq_map_range, range_eq_range', drop_range', mul_one, zero_add]
  rw [bits, bits, drop_append_of_le_length (by simpa using h), ← map_drop, hrange, map_map]
  congr 1
  refine map_congr_left fun i _ => ?_
  simp [drop, testBit_shiftRight]

theorem Input.Ok.drop (h : inp.Ok) (hnb : nb ≤ inp.nbits) : (inp.drop nb).Ok := by
  refine ⟨?_, (sub_le _ _).trans h.nbits_le⟩
  rw [Input.drop, shiftRight_eq_div_pow, Nat.div_lt_iff_lt_mul (Nat.two_pow_pos _),
    ← pow_add, Nat.sub_add_cancel hnb]
  exact h.sreg_lt

/-- The beginning of a round, if there are `nb` bits. -/
theorem Input.Ok.fill (h : inp.Ok) (hnb : nb ≤ 16) (hlen : nb ≤ inp.bits.length) :
    ∃ inp', (if inp.nbits < nb then sregfill inp nb else .ok inp) = .ok inp' ∧
      inp'.bits = inp.bits ∧ inp'.Ok ∧ nb ≤ inp'.nbits ∧ inp.nbits ≤ inp'.nbits := by
  split_ifs with hlt
  · have hloop := sregfillLoop_spec hnb inp.bytes inp.sreg inp.nbits h
    rw [if_pos hlen] at hloop
    exact hloop
  · exact ⟨inp, rfl, rfl, h, Nat.le_of_not_lt hlt, le_rfl⟩

/-- The beginning of a round, if the input ends before. -/
theorem Input.Ok.fill_error (h : inp.Ok) (hnb : nb ≤ 16) (hlen : inp.bits.length < nb) :
    (if inp.nbits < nb then sregfill inp nb else .ok inp) = .error .inputFail := by
  have hlt : inp.nbits < nb := by
    rw [length_bits] at hlen
    omega
  have hloop := sregfillLoop_spec hnb inp.bytes inp.sreg inp.nbits h
  rw [if_neg (Nat.not_le.mpr hlen)] at hloop
  rw [if_pos hlt]
  exact hloop

end Plan9Port.Flate
