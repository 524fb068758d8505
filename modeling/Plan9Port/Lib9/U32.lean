import Mathlib.Data.List.Basic
import Mathlib.Tactic.Ring

/-!
# Base 32

`enc32` and `dec32` of `lib9/u32.c`. Five bytes are eight characters of five bits each. What is
left over at the end has a tail of its own in both functions, and the two do not agree on it: the
encoder stops one character early when two, three or four bytes are left.

## Main definitions

* `enc32`, `dec32`: the text and the bytes, `none` for the result -1 and where an `int` overflows

## Main results

* `dec32_enc32`: the bytes come back if none or one is left over, and only then
-/

namespace Plan9Port.Lib9

open List

/-- The digits, with the NUL that ends the string. -/
def tab32 : List UInt8 :=
  "23456789abcdefghijkmnpqrstuvwxyz".toList.map (fun c => UInt8.ofNat c.toNat) ++ [0]

/-- `tab[j]`. -/
def digit32 (j : Nat) : UInt8 := tab32.getD j 0

/-- `strchr(tab, c) - tab`, or 0. -/
def value32 (c : UInt8) : Nat := (tab32.idxOf? c).getD 0

/-- The value of an `int` expression, which C leaves undefined if it does not fit. -/
def int32 (x : Int) : Option Int := if -2 ^ 31 ≤ x ∧ x < 2 ^ 31 then some x else none

theorem int32_fits {x y : Int} (h : int32 x = some y) : -2 ^ 31 ≤ x ∧ x < 2 ^ 31 :=
  (Option.ite_none_right_eq_some.mp h).1

/-- The loop of `enc32` and its tail. -/
def encode32 : List UInt8 → List UInt8
  | a :: b :: c :: d :: e :: src =>
    let (a, b, c, d, e) := (a.toNat, b.toNat, c.toNat, d.toNat, e.toNat)
    digit32 (0x1f &&& a >>> 3) :: digit32 (0x1c &&& a <<< 2 ||| 0x03 &&& b >>> 6) ::
      digit32 (0x1f &&& b >>> 1) :: digit32 (0x10 &&& b <<< 4 ||| 0x0f &&& c >>> 4) ::
      digit32 (0x1e &&& c <<< 1 ||| 0x01 &&& d >>> 7) :: digit32 (0x1f &&& d >>> 2) ::
      digit32 (0x18 &&& d <<< 3 ||| 0x07 &&& e >>> 5) :: digit32 (0x1f &&& e) :: encode32 src
  | [] => []
  | [a] =>
    let a := a.toNat
    [digit32 (0x1f &&& a >>> 3), digit32 (0x1c &&& a <<< 2)]
  | [a, b] =>
    let (a, b) := (a.toNat, b.toNat)
    [digit32 (0x1f &&& a >>> 3), digit32 (0x1c &&& a <<< 2 ||| 0x03 &&& b >>> 6),
      digit32 (0x1f &&& b >>> 1)]
  | [a, b, _] =>
    let (a, b) := (a.toNat, b.toNat)
    [digit32 (0x1f &&& a >>> 3), digit32 (0x1c &&& a <<< 2 ||| 0x03 &&& b >>> 6),
      digit32 (0x1f &&& b >>> 1), digit32 (0x10 &&& b <<< 4)]
  | [a, b, c, _] =>
    let (a, b, c) := (a.toNat, b.toNat, c.toNat)
    [digit32 (0x1f &&& a >>> 3), digit32 (0x1c &&& a <<< 2 ||| 0x03 &&& b >>> 6),
      digit32 (0x1f &&& b >>> 1), digit32 (0x10 &&& b <<< 4 ||| 0x0f &&& c >>> 4),
      digit32 (0x1e &&& c <<< 1)]

/-- What `enc32` leaves at `dest`, up to the NUL. -/
def enc32 (ndest : Int) (src : List UInt8) : Option (List UInt8) := do
  let n ← int32 (8 * src.length + 4)
  if ndest ≤ n.tdiv 5 then none else some (encode32 src)

/-- The bytes that are made of the values of up to eight characters. -/
def byte32 (u : Nat → Nat) : Nat → UInt8
  | 0 => UInt8.ofNat (u 0 <<< 3 ||| 0x7 &&& u 1 >>> 2)
  | 1 => UInt8.ofNat ((0x3 &&& u 1) <<< 6 ||| u 2 <<< 1 ||| 0x1 &&& u 3 >>> 4)
  | 2 => UInt8.ofNat ((0xf &&& u 3) <<< 4 ||| 0xf &&& u 4 >>> 1)
  | 3 => UInt8.ofNat ((0x1 &&& u 4) <<< 7 ||| u 5 <<< 2 ||| 0x3 &&& u 6 >>> 3)
  | _ => UInt8.ofNat ((0x7 &&& u 6) <<< 5 ||| u 7)

/-- The loop of `dec32`, for as long as there is fuel, and its tail. -/
def decode32 : Nat → List UInt8 → Option (List UInt8)
  | 0, _ => none
  | fuel + 1, src =>
    let u i := value32 (src.getD i 0)
    if src.length ≥ 8 then do
      let rest ← decode32 fuel (src.drop 8)
      return (List.range 5).map (byte32 u) ++ rest
    else if src.length = 1 ∨ src.length = 3 ∨ src.length = 6 then none
    else some ((List.range (src.length * 5 / 8)).map (byte32 u))

/-- Digits of five bits are decoded. -/
def dec32 (ndest : Int) (src : List UInt8) : Option (List UInt8) := do
  let room ← int32 (ndest + 1)
  let n ← int32 (5 * src.length + 7)
  if room < n.tdiv 8 then none else decode32 (src.length + 1) src

/-! ## The bits of a group -/

theorem value32_digit32 : ∀ j < 32, value32 (digit32 j) = j := by decide

theorem or_eq_add (k : Nat) {x y : Nat} (hx : 2 ^ k ∣ x) (hy : y < 2 ^ k) : x ||| y = x + y := by
  obtain ⟨z, rfl⟩ := hx
  exact (Nat.two_pow_add_eq_or_of_lt hy z).symm

/-- What the encoder takes from one byte. -/
theorem masks_byte : ∀ x < 256, 0x1f &&& x >>> 3 = x / 8 ∧ 0x1c &&& x <<< 2 = x % 8 * 4 ∧
    0x03 &&& x >>> 6 = x / 64 ∧ 0x1f &&& x >>> 1 = x / 2 % 32 ∧ 0x10 &&& x <<< 4 = x % 2 * 16 ∧
    0x0f &&& x >>> 4 = x / 16 ∧ 0x1e &&& x <<< 1 = x % 16 * 2 ∧ 0x01 &&& x >>> 7 = x / 128 ∧
    0x1f &&& x >>> 2 = x / 4 % 32 ∧ 0x18 &&& x <<< 3 = x % 4 * 8 ∧ 0x07 &&& x >>> 5 = x / 32 ∧
    0x1f &&& x = x % 32 := by
  decide +kernel

/-- What the decoder takes from one character. -/
theorem masks_digit : ∀ x < 32, x <<< 3 = x * 8 ∧ 0x7 &&& x >>> 2 = x / 4 ∧
    (0x3 &&& x) <<< 6 = x % 4 * 64 ∧ x <<< 1 = x * 2 ∧ 0x1 &&& x >>> 4 = x / 16 ∧
    (0xf &&& x) <<< 4 = x % 16 * 16 ∧ 0xf &&& x >>> 1 = x / 2 ∧ (0x1 &&& x) <<< 7 = x % 2 * 128 ∧
    x <<< 2 = x * 4 ∧ 0x3 &&& x >>> 3 = x / 8 ∧ (0x7 &&& x) <<< 5 = x % 8 * 32 := by
  decide +kernel

/-- The values of eight characters that are those of five bytes. -/
structure Spells (u : Nat → Nat) (a b c d e : Nat) : Prop where
  u0 : u 0 = a / 8
  u1 : u 1 = a % 8 * 4 + b / 64
  u2 : u 2 = b / 2 % 32
  u3 : u 3 = b % 2 * 16 + c / 16
  u4 : u 4 = c % 16 * 2 + d / 128
  u5 : u 5 = d / 4 % 32
  u6 : u 6 = d % 4 * 8 + e / 32
  u7 : u 7 = e % 32

variable {a b c d e : UInt8}

theorem spells_encode32 (src : List UInt8) :
    Spells (fun i => value32 ((encode32 (a :: b :: c :: d :: e :: src)).getD i 0))
      a.toNat b.toNat c.toNat d.toNat e.toNat := by
  have ha := a.toNat_lt
  have hb := b.toNat_lt
  have hc := c.toNat_lt
  have hd := d.toNat_lt
  have he := e.toNat_lt
  obtain ⟨a0, a1, -⟩ := masks_byte _ ha
  obtain ⟨-, -, b1, b2, b3, -⟩ := masks_byte _ hb
  obtain ⟨-, -, -, -, -, c3, c4, -⟩ := masks_byte _ hc
  obtain ⟨-, -, -, -, -, -, -, d4, d5, d6, -⟩ := masks_byte _ hd
  obtain ⟨-, -, -, -, -, -, -, -, -, -, e6, e7⟩ := masks_byte _ he
  simp only [encode32, a0, a1, b1, b2, b3, c3, c4, d4, d5, d6, e6, e7]
  clear a0 a1 b1 b2 b3 c3 c4 d4 d5 d6 e6 e7
  rw [or_eq_add 2 (by omega) (by omega), or_eq_add 4 (by omega) (by omega),
    or_eq_add 1 (by omega) (by omega), or_eq_add 3 (by omega) (by omega)]
  constructor <;> exact value32_digit32 _ (by omega)

theorem Spells.bytes {u : Nat → Nat} (h : Spells u a.toNat b.toNat c.toNat d.toNat e.toNat) :
    (range 5).map (byte32 u) = [a, b, c, d, e] := by
  cases h
  have ha := a.toNat_lt
  have hb := b.toNat_lt
  have hc := c.toNat_lt
  have hd := d.toNat_lt
  have he := e.toNat_lt
  obtain ⟨m0, -⟩ := masks_digit (u 0) (by omega)
  obtain ⟨-, m1, m1', -⟩ := masks_digit (u 1) (by omega)
  obtain ⟨-, -, -, m2, -⟩ := masks_digit (u 2) (by omega)
  obtain ⟨-, -, -, -, m3, m3', -⟩ := masks_digit (u 3) (by omega)
  obtain ⟨-, -, -, -, -, -, m4, m4', -⟩ := masks_digit (u 4) (by omega)
  obtain ⟨-, -, -, -, -, -, -, -, m5, -⟩ := masks_digit (u 5) (by omega)
  obtain ⟨-, -, -, -, -, -, -, -, -, m6, m6'⟩ := masks_digit (u 6) (by omega)
  have hbyte : ∀ (x : UInt8) (n : Nat), n = x.toNat → UInt8.ofNat n = x := by
    rintro x _ rfl
    exact UInt8.ofNat_toNat
  simp only [range, range.loop, map_cons, map_nil, byte32, m0, m1, m1', m2, m3,
    m3', m4, m4', m5, m6, m6', Nat.or_assoc]
  clear m0 m1 m1' m2 m3 m3' m4 m4' m5 m6 m6'
  rw [or_eq_add 3 (by omega) (by omega), or_eq_add 1 (x := u 2 * 2) (by omega) (by omega),
    or_eq_add 6 (by omega) (by omega), or_eq_add 4 (by omega) (by omega),
    or_eq_add 2 (x := u 5 * 4) (by omega) (by omega), or_eq_add 7 (by omega) (by omega),
    or_eq_add 5 (by omega) (by omega)]
  rw [hbyte a _ (by omega), hbyte b _ (by omega), hbyte c _ (by omega), hbyte d _ (by omega),
    hbyte e _ (by omega)]

/-! ## The round trip -/

theorem decode32_encode32 (src : List UInt8) (hlen : src.length % 5 = 0 ∨ src.length % 5 = 1)
    {fuel : Nat} (hfuel : (encode32 src).length < fuel) :
    decode32 fuel (encode32 src) = some src := by
  obtain _ | fuel := fuel
  · omega
  match src with
  | [] => simp [encode32, decode32]
  | [a] =>
    -- two characters, which are also the first two of `a` with four zeros behind it
    have hone := congrArg head? (@spells_encode32 a 0 0 0 0 []).bytes
    simpa [encode32, decode32, range, range.loop, byte32] using hone
  | [_, _] | [_, _, _] | [_, _, _, _] => simp at hlen
  | a :: b :: c :: d :: e :: src =>
    simp only [length_cons] at hlen
    have hdrop : (encode32 (a :: b :: c :: d :: e :: src)).drop 8 = encode32 src := rfl
    have h8 : (encode32 (a :: b :: c :: d :: e :: src)).length = (encode32 src).length + 8 := rfl
    have hrest := decode32_encode32 src (by omega) (by omega : (encode32 src).length < fuel)
    rw [decode32, if_pos (by omega), hdrop, hrest, (spells_encode32 src).bytes]
    rfl

/-- What is left over of two, three or four bytes is refused, or gives one byte less. -/
theorem decode32_encode32_ne (src : List UInt8) (hlen : 2 ≤ src.length % 5) (fuel : Nat) :
    decode32 fuel (encode32 src) ≠ some src := by
  obtain _ | fuel := fuel
  · simp [decode32]
  match src with
  | [] | [_] => simp at hlen
  | [_, _] | [_, _, _] | [_, _, _, _] =>
    intro h
    have := congrArg (Option.map length) h
    simp [encode32, decode32] at this
  | a :: b :: c :: d :: e :: src =>
    simp only [length_cons] at hlen
    have hdrop : (encode32 (a :: b :: c :: d :: e :: src)).drop 8 = encode32 src := rfl
    have h8 : (encode32 (a :: b :: c :: d :: e :: src)).length = (encode32 src).length + 8 := rfl
    have hrest := decode32_encode32_ne src (by omega) fuel
    rw [decode32, if_pos (by omega), hdrop, (spells_encode32 src).bytes]
    intro h
    obtain ⟨rest, hdec, heq⟩ := Option.bind_eq_some_iff.mp h
    exact hrest (hdec.trans (congrArg (fun l => some (l.drop 5)) (Option.some.inj heq)))

theorem length_encode32 (src : List UInt8) (hlen : src.length % 5 < 2) :
    5 * (encode32 src).length = 8 * src.length + 2 * (src.length % 5) := by
  match src with
  | [] | [_] => simp [encode32]
  | [_, _] | [_, _, _] | [_, _, _, _] => simp at hlen
  | a :: b :: c :: d :: e :: src =>
    simp only [length_cons] at hlen
    have := length_encode32 src (by omega)
    simp only [encode32, length_cons]
    omega

/-- **Base 32.** For a text that the encoder made and a destination that has room for the bytes,
the bytes come back exactly if no more than one byte was left over and what the decoder computes
for its own check is an `int`. -/
theorem dec32_enc32 {src text : List UInt8} {ndest ndest' : Int}
    (henc : enc32 ndest src = some text)
    (hdest : src.length ≤ ndest') :
    dec32 ndest' text = some src ↔ src.length % 5 < 2 ∧ ndest' + 1 < 2 ^ 31 ∧
      8 * src.length + 2 * (src.length % 5) + 7 < 2 ^ 31 := by
  rw [enc32, Option.bind_eq_bind] at henc
  obtain ⟨n, -, henc⟩ := Option.bind_eq_some_iff.mp henc
  obtain rfl : encode32 src = text := by
    split at henc
    · cases henc
    · exact Option.some.inj henc
  rcases Nat.lt_or_ge (src.length % 5) 2 with hlen | hlen
  · have htext := length_encode32 src hlen
    have hdec := decode32_encode32 src (by omega) (encode32 src).length.lt_succ_self
    constructor
    · intro h
      rw [dec32, Option.bind_eq_bind] at h
      obtain ⟨room, hroom, h⟩ := Option.bind_eq_some_iff.mp h
      obtain ⟨m, hm, -⟩ := Option.bind_eq_some_iff.mp h
      exact ⟨hlen, (int32_fits hroom).2, by have := (int32_fits hm).2; omega⟩
    · rintro ⟨-, hroom, hm⟩
      rw [dec32, int32, if_pos ⟨by omega, hroom⟩, int32, if_pos ⟨by omega, by omega⟩]
      simp only [Option.bind_eq_bind, Option.bind_some]
      rw [Int.tdiv_eq_ediv_of_nonneg (by omega), if_neg (by omega), hdec]
  · refine iff_of_false (fun h => ?_) (by omega)
    rw [dec32, Option.bind_eq_bind] at h
    obtain ⟨room, -, h⟩ := Option.bind_eq_some_iff.mp h
    obtain ⟨m, -, h⟩ := Option.bind_eq_some_iff.mp h
    exact decode32_encode32_ne src hlen _ (Option.ite_none_left_eq_some.mp h).2

/-- Six bytes there and back. -/
theorem dec32_enc32_six : ∃ text, enc32 11 [104, 105, 33, 0, 255, 7] = some text ∧
    dec32 6 text = some [104, 105, 33, 0, 255, 7] :=
  have henc : enc32 11 [104, 105, 33, 0, 255, 7] = some (encode32 [104, 105, 33, 0, 255, 7]) :=
    by decide +kernel
  ⟨_, henc, (dec32_enc32 henc (by decide)).mpr (by decide)⟩

/-- Two bytes become three characters, which the decoder refuses. -/
theorem dec32_enc32_two : ∃ text, enc32 5 [0, 0] = some text ∧ dec32 2 text = none :=
  ⟨[50, 50, 50], by decide +kernel, by decide +kernel⟩

end Plan9Port.Lib9
