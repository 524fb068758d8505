import Plan9Port.Diff.Reg
import Plan9Port.Lib9.Atoi
import Plan9Port.Utf.Rune

/-!
# Reading, checking and reporting

The part of diff around the match vector: lines are read and hashed, the matches are checked
against the text, and what is not matched is reported as changes. A file is its bytes; `char` is
signed.
-/

namespace Plan9Port.Diff

open Function (update)
open Lib9 (isspace)

/-- The size of the buffer for a line. -/
def MAXLINELEN : Nat := 4096

/-! ## Lines and hashes -/

/-- The rest of a line that is too long. -/
def skipline : List UInt8 → List UInt8
  | [] => []
  | c :: bp => if c = 10 then bp else skipline bp

/-- The loop of `readline`, with room for `n` more bytes. -/
def getline : Nat → List UInt8 → List UInt8 × List UInt8
  | 0, bp => ([], skipline bp)
  | _ + 1, [] => ([], [])
  | n + 1, c :: bp =>
    if c = 10 then ([], bp)
    else
      let (buf, bp) := getline n bp
      (c :: buf, bp)

/-- `readline`: the length, what is in the buffer then, and what is left. At the end of the file
the length is -1, and the buffer is not changed. -/
def readline (bp buf : List UInt8) : Int × List UInt8 × List UInt8 :=
  if bp = [] then (-1, buf, [])
  else
    let (buf, bp) := getline (MAXLINELEN - 1) bp
    (buf.length, buf, bp)

/-- The value of a `char`. -/
def char (c : UInt8) : Int := if c < 128 then c.toNat else c.toNat - 256

/-- `(short)x` -/
def short (x : Int) : Int := x.bmod 65536

/-- Half the bits of a sum. -/
def HALFLONG : Nat := 16

/-- The low half. -/
def low (x : Int) : Int := x % 2 ^ HALFLONG

/-- The rest. -/
def high (x : Int) : Int := x / 2 ^ HALFLONG

/-- `sum` and `shift`. -/
structure Sum where
  sum : Int
  shift : Nat

/-- `sum += (long)*p << (shift &= (HALFLONG-1)); shift += 7;` -/
def Sum.add (s : Sum) (c : UInt8) : Sum :=
  let shift := s.shift % HALFLONG
  ⟨s.sum + char c * 2 ^ shift, shift + 7⟩

/-- White space is stripped. -/
def sumStripped (s : Sum) (buf : List UInt8) : Sum :=
  buf.foldl (fun s c => if isspace c then s else s.add c) s

/-- White space is coalesced; `space` says if there was some before. -/
def sumCoalesced (space : Bool) (s : Sum) : List UInt8 → Sum
  | [] => s
  | c :: buf =>
    if isspace c then sumCoalesced true s buf
    else sumCoalesced false ((if space then { s with shift := s.shift + 7 } else s).add c) buf

/-- The hash of a line. -/
def hash (bflag : Nat) (buf : List UInt8) : Int :=
  let s : Sum := ⟨1, 0⟩
  let sum := match bflag with
    | 0 => (buf.foldl Sum.add s).sum
    | 1 => (sumCoalesced false s buf).sum
    | _ => (sumStripped s buf).sum
  let sum := low sum + high sum
  short (low sum) + short (high sum)

/-- `readhash`: the hash of the next line, or 0 at the end of the file. -/
def readhash (bflag : Nat) (bp buf : List UInt8) : Int × List UInt8 × List UInt8 :=
  match readline bp buf with
  | (-1, buf, bp) => (0, buf, bp)
  | (_, buf, bp) => (hash bflag buf, buf, bp)

/-- The last loop of `prepare`: the hashes, up to the first one that is 0. -/
def readhashes (bflag : Nat) : Nat → List UInt8 → List UInt8 → List Int
  | 0, _, _ => []
  | fuel + 1, bp, buf =>
    let (h, buf, bp) := readhash bflag bp buf
    if h ≠ 0 then h :: readhashes bflag fuel bp buf else []

/-- The first loop of `prepare`, which looks at the bytes that were read: a control rune or a NUL
makes a file binary. -/
def binary (buf : List UInt8) : Nat → Nat → Bool
  | 0, _ => false
  | fuel + 1, cp =>
    if cp + Utf.UTFmax < buf.length then
      match Utf.chartorune (buf.drop cp) with
      | some (r, n) =>
        if r = 0 ∨ 0x7f < r ∧ r ≤ 0xa0 then true else binary buf fuel (cp + n)
      | none => false
    else false

/-- What is read first, to see if the file is binary. -/
def start (bytes : List UInt8) : List UInt8 := bytes.take (min 1024 MAXLINELEN)

/-- `prepare`, unless the file is binary. -/
def prepare (bflag : Nat) (bytes : List UInt8) : Option (List Int) :=
  let buf := start bytes
  if binary buf buf.length 0 then none else some (readhashes bflag (bytes.length + 1) bytes buf)

/-! ## check -/

/-- `squishspace` -/
def squishspace (bflag : Nat) (space : Bool) : List UInt8 → List UInt8
  | [] => []
  | c :: buf =>
    if c = 0 then []
    else if isspace c then squishspace bflag true buf
    else if space ∧ bflag = 1 then 32 :: c :: squishspace bflag false buf
    else c :: squishspace bflag space buf

/-- What `strcmp` compares. -/
def string (buf : List UInt8) : List UInt8 := buf.takeWhile (· ≠ 0)

/-- The inner loop of `check`: lines of the second file are read up to the line `j`. -/
def readto (j : Int) : Nat → Nat → List UInt8 → List UInt8 → Nat × Int × List UInt8 × List UInt8
  | 0, t, bt, tbuf => (t, 0, tbuf, bt)
  | fuel + 1, t, bt, tbuf =>
    let (tlen, tbuf, bt) := readline bt tbuf
    if t < j then readto j fuel (t + 1) bt tbuf else (t + 1, tlen, tbuf, bt)

/-- The loop of `check`, from the line `f` on. -/
def checkLines (bflag : Nat) : Nat → Nat → Nat → List UInt8 → List UInt8 → List UInt8 → List UInt8 →
    (Nat → Int) → Nat → Int
  | 0, _, _, _, _, _, _, J => J
  | count + 1, f, t, bf, fbuf, bt, tbuf, J =>
    let (flen, fbuf, bf) := readline bf fbuf
    if J f = 0 then checkLines bflag count (f + 1) t bf fbuf bt tbuf J
    else
      let (t, tlen, tbuf, bt) := readto (J f) ((J f).toNat + 1) t bt tbuf
      let (flen, fbuf) : Int × List UInt8 :=
        if bflag ≠ 0 then ((squishspace bflag false fbuf).length, squishspace bflag false fbuf)
        else (flen, fbuf)
      let (tlen, tbuf) : Int × List UInt8 :=
        if bflag ≠ 0 then ((squishspace bflag false tbuf).length, squishspace bflag false tbuf)
        else (tlen, tbuf)
      let J := if flen ≠ tlen ∨ string fbuf ≠ string tbuf then update J f 0 else J
      checkLines bflag count (f + 1) t bf fbuf bt tbuf J

/-- `check`, which stops before the last line. -/
def check (bflag : Nat) (len : Nat) (bf bt : List UInt8) (J : Nat → Int) : Nat → Int :=
  checkLines bflag (len - 1) 1 1 bf [] bt [] J

/-! ## output -/

/-- The lines from `a` to `b` of the first file are replaced by those from `c` to `d` of the
second. -/
structure Change where
  a : Nat
  b : Nat
  c : Int
  d : Int
  deriving DecidableEq, Repr

/-- `change` reports nothing if nothing is replaced by nothing. -/
def change (a b : Nat) (c d : Int) : List Change :=
  if b < a ∧ d < c then [] else [⟨a, b, c, d⟩]

/-- `while (i0 <= m && J[i0] == J[i0-1]+1) i0++;` -/
def inStep (J : Nat → Int) (m : Nat) : Nat → Nat → Nat
  | 0, i0 => i0
  | fuel + 1, i0 => if i0 ≤ m ∧ J i0 = J (i0 - 1) + 1 then inStep J m fuel (i0 + 1) else i0

/-- `while (i1 < m && J[i1+1] == 0) i1++;` -/
def unmatched (J : Nat → Int) (m : Nat) : Nat → Nat → Nat
  | 0, i1 => i1
  | fuel + 1, i1 => if i1 < m ∧ J (i1 + 1) = 0 then unmatched J m fuel (i1 + 1) else i1

/-- The loop of `output`, from the line `i0` on. -/
def output (m : Nat) : Nat → Nat → (Nat → Int) → List Change
  | 0, _, _ => []
  | fuel + 1, i0, J =>
    if i0 ≤ m then
      let i0 := inStep J m (m + 1) i0
      let j0 := J (i0 - 1) + 1
      let i1 := unmatched J m m (i0 - 1)
      let j1 := J (i1 + 1) - 1
      change i0 i1 j0 j1 ++ output m fuel (i1 + 1) (update J i1 j1)
    else []

/-- `while (i0 >= 1 && J[i0] == J[i0+1]-1 && J[i0]) i0--;` -/
def inStepEd (J : Nat → Int) : Nat → Nat
  | 0 => 0
  | i0 + 1 => if J (i0 + 1) = J (i0 + 2) - 1 ∧ J (i0 + 1) ≠ 0 then inStepEd J i0 else i0 + 1

/-- `while (i1 > 1 && J[i1-1] == 0) i1--;`, where `i1` is one more. -/
def unmatchedEd (J : Nat → Int) : Nat → Nat
  | 0 => 1
  | i1 + 1 => if J (i1 + 1) = 0 then unmatchedEd J i1 else i1 + 2

/-- The loop of `output` for the mode `e`, from the line `i0` down. -/
def outputEd : Nat → Nat → (Nat → Int) → List Change
  | 0, _, _ => []
  | fuel + 1, i0, J =>
    if 1 ≤ i0 then
      let i0 := inStepEd J i0
      let j0 := J (i0 + 1) - 1
      let i1 := unmatchedEd J i0
      let j1 := J (i1 - 1) + 1
      change i1 i0 j1 j0 ++ outputEd fuel (i1 - 1) (update J i1 j1)
    else []

/-- The mode `e` and the others. -/
inductive Mode where
  | ed
  | other
  deriving DecidableEq, Repr

/-- The changes that are reported. -/
def changes (mode : Mode) (len len' : Nat) (J : Nat → Int) : List Change :=
  let J := update (update J 0 0) (len + 1) (len' + 1)
  let cs := match mode with
    | .other => output len (2 * len + 2) 1 J
    | .ed => outputEd (2 * len + 2) len J
  cs ++ if len = 0 then change 1 0 1 len' else []

/-! ## diffreg -/

/-- What diff says. -/
inductive Result where
  /-- binary files, and if they differ -/
  | binary (differ : Bool)
  | changes (cs : List Change)
  deriving DecidableEq, Repr

/-- `diffreg`; `cmp` compares the bytes of binary files. -/
def diffreg (mode : Mode) (bflag : Nat) (f t : List UInt8) : Result :=
  match prepare bflag f, prepare bflag t with
  | some hashes, some hashes' =>
    let J := check bflag hashes.length f t (matched hashes hashes')
    .changes (changes mode hashes.length hashes'.length J)
  | _, _ => .binary (f ≠ t)

end Plan9Port.Diff
