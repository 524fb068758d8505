import Plan9Port.Lib.Memory
import Plan9Port.Utf.Rune

/-!
# Flat buffers

What a `Buffer` of acme is for: a sequence of runes into which runes are inserted, from which they
are deleted and read, at positions that the calls check. `acme/file.c` and `acme/elog.c` use their
buffers through these calls only.

Runes are copied from one buffer to another in pieces of at most `RBUFSIZE`, the size of what
`fbufalloc` gives. `copyPieces` is the loop that does it, for whatever is done with each piece.
-/

namespace Plan9Port.Acme

open Memory Utf

/-- The runes of a buffer. -/
abbrev Flat := List Rune

/-- A call out of range is an internal error, which ends the program. The number of runes is an
`uint`; a buffer in which it wraps is none that the other calls could read. -/
def Flat.bufinsert (b : Flat) (q0 : Nat) (s : List Rune) : Option Flat :=
  if q0 ≤ b.length ∧ b.length + s.length < 2 ^ 32 then some (b.take q0 ++ s ++ b.drop q0) else none

/-- The buffer without the runes from `q0` to `q1`. -/
def Flat.bufdelete (b : Flat) (q0 q1 : Nat) : Option Flat :=
  if q0 ≤ q1 ∧ q1 ≤ b.length then some (b.take q0 ++ b.drop q1) else none

/-- The `n` runes at `q0`. -/
def Flat.bufread (b : Flat) (q0 n : Nat) : Option (List Rune) :=
  if q0 + n ≤ b.length then some (slice b q0 n) else none

theorem Flat.bufinsert_append {xs ys s : List Rune} (h : (xs ++ s ++ ys).length < 2 ^ 32) :
    Flat.bufinsert (xs ++ ys) xs.length s = some (xs ++ s ++ ys) := by
  simp only [List.length_append] at h
  rw [Flat.bufinsert, if_pos (by simp only [List.length_append]; omega), List.take_left,
    List.drop_left]

theorem Flat.bufinsert_end {b s : List Rune} (h : b.length + s.length < 2 ^ 32) :
    Flat.bufinsert b b.length s = some (b ++ s) := by
  rw [Flat.bufinsert, if_pos ⟨le_rfl, h⟩, List.take_length, List.drop_length, List.append_nil]

theorem Flat.bufdelete_append (xs s ys : List Rune) :
    Flat.bufdelete (xs ++ s ++ ys) xs.length (xs.length + s.length) = some (xs ++ ys) := by
  rw [Flat.bufdelete, if_pos (by simp), List.append_assoc, List.take_left, ← List.append_assoc,
    ← List.length_append, List.drop_left]

theorem Flat.bufdelete_end (xs s : List Rune) :
    Flat.bufdelete (xs ++ s) xs.length (xs ++ s).length = some xs := by
  simp [Flat.bufdelete]

theorem Flat.bufread_append (xs s ys : List Rune) :
    Flat.bufread (xs ++ s ++ ys) xs.length s.length = some s := by
  simp [Flat.bufread, slice]

/-! ## Copying in pieces -/

/-- The runes that are copied at once. -/
def Maxblock : Nat := 32 * 1024

def IOHDRSZ : Nat := 24

def BUFSIZE : Nat := Maxblock + IOHDRSZ

def RBUFSIZE : Nat := BUFSIZE / 4

variable {σ : Type} {src : Flat}

/-- `for(i=0; i<n; i+=m)`, with `m` runes of `src` at `up+i` put away in each turn. -/
def copyPieces (src : Flat) (up n : Nat) (put : Nat → List Rune → σ → Option σ) :
    Nat → Nat → σ → Option σ
  | 0, i, st => if i < n then none else some st
  | fuel + 1, i, st =>
    if i < n then do
      let m := min (n - i) RBUFSIZE
      let r ← Flat.bufread src (up + i) m
      let st ← put i r st
      copyPieces src up n put fuel (i + m) st
    else some st

/-- `st i` is the state once `i` runes are copied. -/
theorem copyPieces_spec {up n : Nat} (put : Nat → List Rune → σ → Option σ)
    (hsrc : up + n ≤ src.length) (st : Nat → σ)
    (hput : ∀ i m, 0 < m → i + m ≤ n → put i (slice src (up + i) m) (st i) = some (st (i + m)))
    {fuel i : Nat} (hi : i ≤ n) (hfuel : n ≤ i + fuel) :
    copyPieces src up n put fuel i (st i) = some (st n) := by
  induction fuel generalizing i with
  | zero =>
    obtain rfl : i = n := by omega
    simp [copyPieces]
  | succ fuel ih =>
    rw [copyPieces]
    split_ifs with hlt
    · have hsize : 0 < RBUFSIZE := by decide
      have hread : Flat.bufread src (up + i) (min (n - i) RBUFSIZE) =
          some (slice src (up + i) (min (n - i) RBUFSIZE)) := if_pos (by omega)
      simp only [hread, Lib.some_bind, hput i (min (n - i) RBUFSIZE) (by omega) (by omega)]
      exact ih (by omega) (by omega)
    · obtain rfl : i = n := by omega
      rfl

/-- Copying to the end of a buffer. -/
theorem copyPieces_bufinsert_end {up n : Nat} {b : Flat} (hsrc : up + n ≤ src.length)
    (hb : b.length + n < 2 ^ 32) :
    copyPieces src up n (fun _ r b => Flat.bufinsert b b.length r) n 0 b =
      some (b ++ slice src up n) := by
  have h := copyPieces_spec (fun _ r b => Flat.bufinsert b b.length r) hsrc
    (fun i => b ++ slice src up i)
    (fun i m _ hm => by
      rw [Flat.bufinsert_end, slice_add, List.append_assoc]
      rw [List.length_append, length_slice (by omega), length_slice (by omega)]
      omega)
    (Nat.zero_le n) (Nat.le_of_eq (zero_add n).symm)
  rwa [slice_zero, List.append_nil] at h

/-- Copying into the middle of a buffer, each piece behind the one before. -/
theorem copyPieces_bufinsert {up n : Nat} {xs ys : List Rune} (hsrc : up + n ≤ src.length)
    (hb : xs.length + n + ys.length < 2 ^ 32) :
    copyPieces src up n (fun i r b => Flat.bufinsert b (xs.length + i) r) n 0 (xs ++ ys) =
      some (xs ++ slice src up n ++ ys) := by
  have h := copyPieces_spec (fun i r b => Flat.bufinsert b (xs.length + i) r) hsrc
    (fun i => xs ++ slice src up i ++ ys)
    (fun i m _ hm => by
      have hins := Flat.bufinsert_append
        (show (xs ++ slice src up i ++ slice src (up + i) m ++ ys).length < 2 ^ 32 by
          simp only [List.length_append, length_slice (show up + i ≤ src.length by omega),
            length_slice (show up + i + m ≤ src.length by omega)]
          omega)
      rwa [List.length_append, length_slice (by omega), List.append_assoc xs (slice src up i)
        (slice src (up + i) m), ← slice_add] at hins)
    (Nat.zero_le n) (Nat.le_of_eq (zero_add n).symm)
  rwa [slice_zero, List.append_nil] at h

end Plan9Port.Acme
