import Mathlib.Data.List.TakeWhile
import Plan9Port.Lib9.Quote

/-!
# Plumb messages

`libplumb/mesg.c`: a message is packed as six lines of text and its data. The lines are the source,
the destination, the directory, the type, the attributes and the length of the data. A value of an
attribute that could be misread is quoted, with its quotes doubled; the buffer for that has 4096
bytes, and is used again for the values that are unpacked.

A string of C is the list of its bytes, without the NUL, and `none` if it is nil. A result of
`none` stands for what C does not define: an `int` that overflows, a store outside a block and a
nil pointer that is followed.
-/

namespace Plan9Port.Plumb

open List
open Option hiding any_eq_true

open Lib9 (int INT_MAX atoi cstr decimal)

/-- An attribute. -/
structure Plumbattr where
  name : List UInt8
  value : Option (List UInt8)
deriving DecidableEq

/-- A message; `data` is what may be read at the pointer of that name. -/
structure Plumbmsg where
  src : Option (List UInt8)
  dst : Option (List UInt8)
  wdir : Option (List UInt8)
  type : Option (List UInt8)
  attr : List Plumbattr
  ndata : Int
  data : List UInt8
deriving DecidableEq

/-! ## Packing -/

/-- `sizeof attrbuf`. -/
def attrbufSize : Nat := 4096

/-- The characters for which a value is quoted: blank, `'`, `=` and tab. -/
def special (c : UInt8) : Bool := c = 0x20 || c = 0x27 || c = 0x3d || c = 0x09

/-- The loop of `quote`, from where `t` is in `attrbuf`. -/
def quoteLoop : Nat → List UInt8 → List UInt8
  | _, [] => []
  | t, c :: s =>
    if t < attrbufSize - 2 then
      if c = 0x27 then c :: c :: quoteLoop (t + 2) s else c :: quoteLoop (t + 1) s
    else []

/-- Quotes an attribute value, if necessary. -/
def quote : Option (List UInt8) → List UInt8
  | none => []
  | some s => if s.any special then 0x27 :: quoteLoop 1 s ++ [0x27] else s

/-- The loop of `plumbpackattr`, when `t` has been stored. -/
def packattrs : List UInt8 → List Plumbattr → List UInt8
  | t, [] => t
  | t, a :: as =>
    packattrs ((if t ≠ [] then t ++ [0x20] else t) ++ a.name ++ [0x3d] ++ quote a.value) as

/-- The attributes as text. -/
def plumbpackattr : List Plumbattr → Option (Option (List UInt8))
  | [] => some none
  | attr => do
    let n ← int (attr.foldl (fun n a => n + (a.name.length + 1 + (quote a.value).length + 1)) 0)
    let t := packattrs [] attr
    if t.length + 1 ≤ n then some (some t) else none

/-- `Strlen(s)`, for a string that may be nil. -/
def Strlen (s : Option (List UInt8)) : Nat := (s.getD []).length

/-- The length of the data, which is a string if `ndata` is negative. -/
def dataLength (m : Plumbmsg) : Option Nat :=
  if m.ndata < 0 then
    if m.data = [] ∨ 0 ∈ m.data then some (m.data.takeWhile (· ≠ 0)).length else none
  else if m.ndata ≤ m.data.length then some m.ndata.toNat else none

/-- What `plumbpack` stores before the data. -/
def plumbhead (m : Plumbmsg) (attr : Option (List UInt8)) (ndata : Nat) : List UInt8 :=
  m.src.getD [] ++ [0x0a] ++ m.dst.getD [] ++ [0x0a] ++ m.wdir.getD [] ++ [0x0a] ++
    m.type.getD [] ++ [0x0a] ++ attr.getD [] ++ [0x0a] ++ decimal ndata ++ [0x0a]

/-- The bytes that `plumbpack` wants for a message, without a NUL. -/
def plumbsize (m : Plumbmsg) (attr : Option (List UInt8)) (ndata : Nat) : Nat :=
  Strlen m.src + 1 + (Strlen m.dst + 1) + (Strlen m.wdir + 1) + (Strlen m.type + 1) +
    (Strlen attr + 1) + 16 + ndata

/-- The bytes of a message, without the NUL after them. -/
def plumbpack (m : Plumbmsg) : Option (List UInt8) := do
  let ndata ← dataLength m
  let attr ← plumbpackattr m.attr
  let n ← int (plumbsize m attr ndata)
  let size ← int (n + 1)
  let buf := plumbhead m attr ndata ++ m.data.take ndata
  if buf.length + 1 ≤ size then some buf else none

/-! ## Unpacking -/

/-- The line at the beginning of `buf`, and what is after it; `none` if no line ends. -/
def plumbline (buf : List UInt8) : Option (List UInt8 × List UInt8) :=
  match buf.dropWhile (· ≠ 0x0a) with
  | [] => none
  | _ :: rest => some (buf.takeWhile (· ≠ 0x0a), rest)

/-- The loop of `plumbunpackattr` over a value, with `v` bytes stored: the bytes that are stored
from there on, and where the loop stops. -/
def unquote : Nat → Bool → List UInt8 → List UInt8 × List UInt8
  | _, _, [] => ([], [])
  | v, quoting, c :: q =>
    if c = 0x0a ∨ v ≥ attrbufSize then ([], c :: q)
    else if quoting then
      if c = 0x27 then
        match q with
        | [] => ([], [])
        | d :: q' =>
          if d = 0x27 then (fun r => (c :: r.1, r.2)) (unquote (v + 1) true q')
          else unquote v false (d :: q')
      else (fun r => (c :: r.1, r.2)) (unquote (v + 1) true q)
    else if c = 0x20 ∨ c = 0x09 then ([], q)
    else if c = 0x27 then unquote v true q
    else (fun r => (c :: r.1, r.2)) (unquote (v + 1) false q)

/-- A space or a tab. -/
def blank (c : UInt8) : Bool := c = 0x20 || c = 0x09

/-- The characters that a name goes up to. -/
def nameEnd (c : UInt8) : Bool := c = 0x0a || c = 0x20 || c = 0x09 || c = 0x3d

/-- The attributes of a line. -/
def unpackattrs : Nat → List UInt8 → List Plumbattr
  | 0, _ => []
  | fuel + 1, p =>
    if p = [] ∨ p.head? = some 0x0a then []
    else
      let p := p.dropWhile blank
      match p.dropWhile (!nameEnd ·) with
      | 0x3d :: q =>
        let r := unquote 0 false q
        ⟨p.takeWhile (!nameEnd ·), some r.1⟩ :: unpackattrs fuel r.2
      -- malformed attribute, or the end
      | _ => []

/-- The attributes of a text. -/
def plumbunpackattr (p : List UInt8) : List Plumbattr := unpackattrs (p.length + 1) p

/-- The message in a buffer, or nil, and how many bytes are missing. If a line is missing then
`plumbunpackattr` or `atoi` is given a nil pointer. -/
def plumbunpackpartial (buf : List UInt8) : Option (Option Plumbmsg × Int) := do
  let (src, buf) ← plumbline buf
  let (dst, buf) ← plumbline buf
  let (wdir, buf) ← plumbline buf
  let (type, buf) ← plumbline buf
  let (attr, buf) ← plumbline buf
  let (ntext, buf) ← plumbline buf
  let ndata := atoi (cstr ntext)
  if ndata ≠ buf.length then
    return (none, if ndata > buf.length then ndata - buf.length else 0)
  else
    return (some ⟨some (cstr src), some (cstr dst), some (cstr wdir), some (cstr type),
      plumbunpackattr (cstr attr), ndata, buf ++ [0]⟩, 0)

/-- `plumbunpackpartial`, with no interest in what is missing. -/
def plumbunpack (buf : List UInt8) : Option (Option Plumbmsg) := do
  let (m, _) ← plumbunpackpartial buf
  return m

/-! ## Values -/

/-- A value with its quotes doubled. -/
def doubled (s : List UInt8) : List UInt8 := s.flatMap fun c => if c = 0x27 then [c, c] else [c]

/-- What a value is packed as, if there is room for it. -/
def quoted (s : List UInt8) : List UInt8 :=
  if s.any special then 0x27 :: doubled s ++ [0x27] else s

theorem length_le_doubled (s : List UInt8) : s.length ≤ (doubled s).length := by
  induction s with
  | nil => exact Nat.le_refl 0
  | cons c s ih =>
    rw [doubled, flatMap_cons, length_append, length_cons]
    change s.length ≤ (s.flatMap _).length at ih
    split <;> simp only [length_cons, length_nil] <;> omega

variable {s : List UInt8} {n : Nat} {c : UInt8}

theorem quoteLoop_eq {t : Nat} (h : t + (doubled s).length ≤ attrbufSize - 2) :
    quoteLoop t s = doubled s := by
  induction s generalizing t with
  | nil => rfl
  | cons c s ih =>
    have hcons : doubled (c :: s) = (if c = 0x27 then [c, c] else [c]) ++ doubled s := rfl
    rw [hcons, length_append] at h
    rw [quoteLoop, hcons]
    split at h
    · next hc =>
      simp only [length_cons, length_nil] at h
      rw [if_pos (by omega), if_pos hc, if_pos hc, ih (by omega)]
      rfl
    · next hc =>
      simp only [length_cons, length_nil] at h
      rw [if_pos (by omega), if_neg hc, if_neg hc, ih (by omega)]
      rfl

theorem quote_eq (h : (quoted s).length < attrbufSize) : quote (some s) = quoted s := by
  rw [quote, quoted]
  split
  · next hs =>
    rw [quoted, if_pos hs] at h
    simp only [length_append, length_cons, length_nil] at h
    rw [quoteLoop_eq (by omega)]
  · rfl

/-- A value ends with the line, or with a blank that is read with it. -/
inductive Ends : List UInt8 → List UInt8 → Prop
  | line : Ends [] []
  | blank (rest : List UInt8) : Ends (0x20 :: rest) rest

section Values

variable {v : Nat} {q rest rest' : List UInt8}

theorem unquote_blank (hv : v < attrbufSize) : unquote v false (0x20 :: q) = ([], q) := by
  rw [unquote.eq_def]
  simp [hv]

theorem unquote_open (hv : v < attrbufSize) : unquote v false (0x27 :: q) = unquote v true q := by
  rw [unquote.eq_def]
  simp [hv]

/-- A character that is stored, in quotes or not. -/
theorem unquote_store (quoting : Bool) (hv : v < attrbufSize) (hline : c ≠ 0x0a) (hq : c ≠ 0x27)
    (hblank : quoting = false → c ≠ 0x20 ∧ c ≠ 0x09) :
    unquote v quoting (c :: q) =
      (c :: (unquote (v + 1) quoting q).1, (unquote (v + 1) quoting q).2) := by
  rw [unquote.eq_def]
  cases quoting with
  | true => simp [hv, hline, hq]
  | false => simp [hv, hline, hq, hblank]

theorem unquote_double (hv : v < attrbufSize) :
    unquote v true (0x27 :: 0x27 :: q) =
      (0x27 :: (unquote (v + 1) true q).1, (unquote (v + 1) true q).2) := by
  rw [unquote.eq_def]
  simp [hv]

theorem unquote_end (h : Ends rest rest') (hv : v < attrbufSize) :
    unquote v false rest = ([], rest') := by
  cases h with
  | line => rfl
  | blank rest => exact unquote_blank hv

/-- A quote that is not doubled ends the quoting. -/
theorem unquote_close (h : Ends rest rest') (hv : v < attrbufSize) :
    unquote v true (0x27 :: rest) = ([], rest') := by
  rw [← unquote_end h hv]
  conv_lhs => rw [unquote.eq_def]
  cases h with
  | line => simp [hv, unquote]
  | blank rest => simp [hv]

theorem unquote_plain (hs : ∀ c ∈ s, special c = false ∧ c ≠ 0x0a) (h : Ends rest rest')
    (hv : v + s.length < attrbufSize) : unquote v false (s ++ rest) = (s, rest') := by
  induction s generalizing v with
  | nil => exact unquote_end h hv
  | cons c s ih =>
    rw [length_cons] at hv
    obtain ⟨hspecial, hline⟩ := hs c (.head _)
    simp only [special, Bool.or_eq_false_iff, decide_eq_false_iff_not] at hspecial
    obtain ⟨⟨⟨h20, h27⟩, -⟩, h09⟩ := hspecial
    rw [cons_append, unquote_store false (by omega) hline h27 fun _ => ⟨h20, h09⟩,
      ih (fun c hc => hs c (.tail _ hc)) (by omega)]

/-- In quotes, a quote is either doubled, and is stored, or the last one. -/
theorem unquote_doubled (hs : ∀ c ∈ s, c ≠ 0x0a) (h : Ends rest rest')
    (hv : v + s.length < attrbufSize) :
    unquote v true (doubled s ++ 0x27 :: rest) = (s, rest') := by
  induction s generalizing v with
  | nil => exact unquote_close h hv
  | cons c s ih =>
    have hcons : doubled (c :: s) = (if c = 0x27 then [c, c] else [c]) ++ doubled s := rfl
    rw [length_cons] at hv
    have hrest := @ih (v + 1) (fun c hc => hs c (.tail _ hc)) (by omega)
    rw [hcons, append_assoc]
    split
    · next hc =>
      subst hc
      rw [cons_append, cons_append, nil_append, unquote_double (by omega), hrest]
    · next hc =>
      rw [cons_append, nil_append, unquote_store true (by omega) (hs c (.head _)) hc nofun, hrest]

/-- **Quoting is undone**, for a value that fits the buffer. -/
theorem unquote_quoted (hs : ∀ c ∈ s, c ≠ 0x0a) (h : Ends rest rest')
    (hfit : (quoted s).length < attrbufSize) : unquote 0 false (quoted s ++ rest) = (s, rest') := by
  have hle := length_le_doubled s
  rw [quoted] at hfit ⊢
  split at hfit
  · next hq =>
    simp only [length_append, length_cons, length_nil] at hfit
    rw [if_pos hq, append_assoc, cons_append, unquote_open (by decide)]
    exact unquote_doubled hs h (by omega)
  · next hq =>
    rw [if_neg hq]
    refine unquote_plain (fun c hc => ⟨?_, hs c hc⟩) h (by omega)
    simp only [any_eq_true, not_exists, not_and, Bool.not_eq_true] at hq
    exact hq c hc

end Values

/-! ## Attributes -/

/-- An attribute that can be packed: a name, and a value that fits the buffer. -/
structure Plumbattr.Plain (a : Plumbattr) : Prop where
  name_ne : a.name ≠ []
  name : ∀ c ∈ a.name, nameEnd c = false ∧ c ≠ 0
  value : ∀ c ∈ a.value.getD [], c ≠ 0x0a ∧ c ≠ 0
  fits : (quoted (a.value.getD [])).length < attrbufSize

/-- An attribute as it is unpacked. -/
def Plumbattr.norm (a : Plumbattr) : Plumbattr := ⟨a.name, some (a.value.getD [])⟩

/-- The text of an attribute. -/
def attrText (a : Plumbattr) : List UInt8 := a.name ++ 0x3d :: quoted (a.value.getD [])

/-- The text of the attributes after one. -/
def attrsAfter (as : List Plumbattr) : List UInt8 := as.flatMap fun a => 0x20 :: attrText a

/-- The text of a list of attributes. -/
def attrsText : List Plumbattr → List UInt8
  | [] => []
  | a :: as => attrText a ++ attrsAfter as

variable {as : List Plumbattr} {a : Plumbattr}

section Attributes

variable {fuel : Nat}

theorem Plumbattr.Plain.quote_eq (h : a.Plain) : quote a.value = quoted (a.value.getD []) := by
  obtain ⟨name, value⟩ := a
  cases value with
  | none => rfl
  | some s => exact Plumb.quote_eq h.fits

theorem packattrs_eq {t : List UInt8} (ht : t ≠ []) (h : ∀ a ∈ as, a.Plain) :
    packattrs t as = t ++ attrsAfter as := by
  induction as generalizing t with
  | nil => simp [packattrs, attrsAfter]
  | cons a as ih =>
    rw [packattrs, if_pos ht, ih (by simp) fun b hb => h b (.tail _ hb), (h a (.head _)).quote_eq]
    simp [attrsAfter, attrText]

theorem packattrs_nil (h : ∀ a ∈ as, a.Plain) : packattrs [] as = attrsText as := by
  cases as with
  | nil => rfl
  | cons a as =>
    rw [packattrs, packattrs_eq (by simp) fun b hb => h b (.tail _ hb), (h a (.head _)).quote_eq]
    simp [attrsText, attrText]

/-- The block of `plumbpackattr` has room for the text and a NUL. -/
theorem packattr_length (n : Int) (h : ∀ a ∈ as, a.Plain) :
    as.foldl (fun (n : Int) a => n + (a.name.length + 1 + (quote a.value).length + 1)) n =
      n + (attrsAfter as).length := by
  induction as generalizing n with
  | nil => simp [attrsAfter]
  | cons a as ih =>
    rw [foldl_cons, ih _ fun b hb => h b (.tail _ hb), (h a (.head _)).quote_eq]
    simp [attrsAfter, attrText]
    omega

theorem int_eq (h : n ≤ INT_MAX) : int n = some (n : Int) := if_pos (by omega)

theorem plumbpackattr_eq (h : ∀ a ∈ as, a.Plain) (hlen : (attrsText as).length < INT_MAX) :
    ∃ attr, plumbpackattr as = some attr ∧ attr.getD [] = attrsText as := by
  cases as with
  | nil => exact ⟨none, rfl, rfl⟩
  | cons a as =>
    refine ⟨some (attrsText (a :: as)), ?_, rfl⟩
    have hn := packattr_length 0 h
    have hlen' : (attrsAfter (a :: as)).length = (attrsText (a :: as)).length + 1 := by
      simp [attrsAfter, attrsText]
    rw [plumbpackattr, hn, packattrs_nil h, hlen', Int.zero_add, int_eq hlen]
    · exact if_pos (by omega)
    · exact nofun

/-- The name is what is before the `=`. -/
theorem unpackattrs_cons (h : a.Plain) {rest rest' : List UInt8} (hend : Ends rest rest') :
    unpackattrs (fuel + 1) (attrText a ++ rest) = a.norm :: unpackattrs fuel rest' := by
  have hname : ∀ c ∈ a.name, (!nameEnd c) = true := fun c hc => by simp [(h.name c hc).1]
  have htext : attrText a ++ rest = a.name ++ 0x3d :: (quoted (a.value.getD []) ++ rest) := by
    simp [attrText]
  obtain ⟨c, cs, hcs⟩ := exists_cons_of_ne_nil h.name_ne
  have hc := (h.name c (by simp [hcs])).1
  simp only [nameEnd, Bool.or_eq_false_iff, decide_eq_false_iff_not] at hc
  have hblank : (attrText a ++ rest).dropWhile blank = attrText a ++ rest := by
    rw [attrText, hcs]
    exact dropWhile_cons_of_neg (by simp [blank, hc])
  have hstart : ¬ (attrText a ++ rest = [] ∨ (attrText a ++ rest).head? = some 0x0a) := by
    simp [attrText, hcs, hc]
  have hdrop : (attrText a ++ rest).dropWhile (!nameEnd ·) =
      0x3d :: (quoted (a.value.getD []) ++ rest) := by
    rw [htext, dropWhile_append_of_pos hname]
    exact dropWhile_cons_of_neg (by decide)
  have htake : (attrText a ++ rest).takeWhile (!nameEnd ·) = a.name := by
    rw [htext, takeWhile_append_of_pos hname, takeWhile_cons_of_neg (by decide), append_nil]
  have hvalue := unquote_quoted (fun c hc => (h.value c hc).1) hend h.fits
  simp only [unpackattrs, if_neg hstart, hblank, hdrop, htake, hvalue]
  rfl

/-- **The attributes are unpacked in order.** -/
theorem unpackattrs_attrsText (h : ∀ a ∈ as, a.Plain) (hfuel : as.length < fuel) :
    unpackattrs fuel (attrsText as) = as.map Plumbattr.norm := by
  -- the blank between two attributes is read with the value before it
  induction as generalizing fuel with
  | nil =>
    cases fuel with
    | zero => rfl
    | succ fuel => rfl
  | cons a as ih =>
    obtain _ | fuel := fuel
    · omega
    have hend : Ends (attrsAfter as) (attrsText as) := by
      cases as with
      | nil => exact .line
      | cons b bs => exact .blank _
    rw [attrsText, unpackattrs_cons (h a (.head _)) hend,
      ih (fun b hb => h b (.tail _ hb)) (by simpa using hfuel), map_cons]

theorem length_le_attrsText (as : List Plumbattr) : as.length ≤ (attrsText as).length := by
  have hafter : ∀ as, length as ≤ (attrsAfter as).length := by
    intro as
    induction as with
    | nil => exact Nat.le_refl 0
    | cons a as ih =>
      simp only [attrsAfter, flatMap_cons, length_append, length_cons] at ih ⊢
      omega
  cases as with
  | nil => exact Nat.le_refl 0
  | cons a as =>
    have := hafter as
    simp only [attrsText, attrText, length_append, length_cons]
    omega

theorem plumbunpackattr_packed (h : ∀ a ∈ as, a.Plain) :
    plumbunpackattr (attrsText as) = as.map Plumbattr.norm :=
  unpackattrs_attrsText h (Nat.lt_succ_of_le (length_le_attrsText as))

end Attributes

/-! ## Messages -/

/-- A message that can be packed: its lines and its attributes, and data that is there. -/
structure Plumbmsg.Plain (m : Plumbmsg) : Prop where
  lines : ∀ s ∈ [m.src, m.dst, m.wdir, m.type], ∀ c ∈ s.getD [], c ≠ 0x0a ∧ c ≠ 0
  attr : ∀ a ∈ m.attr, a.Plain
  data : (dataLength m).isSome

/-- The message as it is unpacked: nil strings are empty, and there is a NUL after the data. -/
def Plumbmsg.norm (m : Plumbmsg) (ndata : Nat) : Plumbmsg where
  src := some (m.src.getD [])
  dst := some (m.dst.getD [])
  wdir := some (m.wdir.getD [])
  type := some (m.type.getD [])
  attr := m.attr.map Plumbattr.norm
  ndata := ndata
  data := m.data.take ndata ++ [0]

/-- The size of a message, with the text of its attributes. -/
def Plumbmsg.size (m : Plumbmsg) (ndata : Nat) : Nat := plumbsize m (some (attrsText m.attr)) ndata

section Messages

variable {m : Plumbmsg}

theorem plumbline_append {line rest : List UInt8} (h : ∀ c ∈ line, c ≠ 0x0a) :
    plumbline (line ++ 0x0a :: rest) = some (line, rest) := by
  have hpos : ∀ c ∈ line, decide (c ≠ 0x0a) = true := fun c hc => decide_eq_true (h c hc)
  rw [plumbline, dropWhile_append_of_pos hpos, takeWhile_append_of_pos hpos,
    dropWhile_cons_of_neg (by decide), takeWhile_cons_of_neg (by decide), append_nil]

theorem cstr_eq {line : List UInt8} (h : ∀ c ∈ line, c ≠ 0) : cstr line = line :=
  takeWhile_eq_self_iff.mpr fun c hc => decide_eq_true (h c hc)

theorem mem_quoteLoop {t : Nat} (h : c ∈ quoteLoop t s) : c ∈ s := by
  induction s generalizing t with
  | nil => exact h
  | cons d s ih =>
    rw [quoteLoop] at h
    split_ifs at h <;> simp at h ⊢ <;> grind

theorem mem_quote {v : Option (List UInt8)} (h : c ∈ quote v) : c = 0x27 ∨ c ∈ v.getD [] := by
  cases v with
  | none => exact absurd h not_mem_nil
  | some s =>
    rw [quote] at h
    split at h
    · simp only [cons_append, mem_cons, mem_append, not_mem_nil, or_false] at h
      rcases h with h | h | h
      · exact .inl h
      · exact .inr (mem_quoteLoop h)
      · exact .inl h
    · exact .inr h

theorem attrText_plain (h : a.Plain) : ∀ c ∈ attrText a, c ≠ 0x0a ∧ c ≠ 0 := by
  intro c hc
  simp only [attrText, mem_append, mem_cons] at hc
  rcases hc with hc | rfl | hc
  · obtain ⟨hend, h0⟩ := h.name c hc
    refine ⟨?_, h0⟩
    rintro rfl
    cases hend
  · decide
  · rcases mem_quote (h.quote_eq ▸ hc) with rfl | hc
    · decide
    · exact h.value c hc

theorem attrsText_plain (h : ∀ a ∈ as, a.Plain) : ∀ c ∈ attrsText as, c ≠ 0x0a ∧ c ≠ 0 := by
  cases as with
  | nil => exact fun c hc => absurd hc not_mem_nil
  | cons a as =>
    intro c hc
    rcases mem_append.mp hc with hc | hc
    · exact attrText_plain (h a (.head _)) c hc
    · obtain ⟨b, hb, hc⟩ := mem_flatMap.mp hc
      rcases mem_cons.mp hc with rfl | hc
      · decide
      · exact attrText_plain (h b (.tail _ hb)) c hc

theorem decimal_plain (n : Nat) : ∀ c ∈ decimal n, c ≠ 0x0a ∧ c ≠ 0 := by
  intro c hc
  have hle := Lib9.le_of_mem_decimalDigits hc
  constructor
  · rintro rfl
    exact absurd hle (by decide)
  · rintro rfl
    exact absurd hle (by decide)

/-- Six lines are read, whatever is after them. -/
theorem unpackpartial_lines {src dst wdir type attr : List UInt8}
    (h : ∀ l ∈ [src, dst, wdir, type, attr], ∀ c ∈ l, c ≠ 0x0a) (hn : n < 2 ^ 31)
    (rest : List UInt8) :
    plumbunpackpartial (src ++ 0x0a :: (dst ++ 0x0a :: (wdir ++ 0x0a :: (type ++ 0x0a ::
        (attr ++ 0x0a :: (decimal n ++ 0x0a :: rest)))))) =
      if (n : Int) ≠ rest.length then
        some (none, if (n : Int) > rest.length then (n - rest.length : Int) else 0)
      else some (some ⟨some (cstr src), some (cstr dst), some (cstr wdir), some (cstr type),
        plumbunpackattr (cstr attr), n, rest ++ [0]⟩, 0) := by
  have hdec := decimal_plain n
  simp only [Lib.some_bind, plumbunpackpartial, plumbline_append (h src (by simp)),
    plumbline_append (h dst (by simp)), plumbline_append (h wdir (by simp)),
    plumbline_append (h type (by simp)), plumbline_append (h attr (by simp)),
    plumbline_append fun c hc => (hdec c hc).1, cstr_eq fun c hc => (hdec c hc).2,
    Lib9.atoi_decimal hn]
  split_ifs <;> rfl

theorem unpackpartial_head (h : m.Plain) {attr : Option (List UInt8)}
    (hattr : attr.getD [] = attrsText m.attr) (hn : n < 2 ^ 31) (rest : List UInt8) :
    plumbunpackpartial (plumbhead m attr n ++ rest) =
      if (n : Int) ≠ rest.length then
        some (none, if (n : Int) > rest.length then (n - rest.length : Int) else 0)
      else some (some { m.norm n with data := rest ++ [0] }, 0) := by
  have hsrc := h.lines m.src (by simp)
  have hdst := h.lines m.dst (by simp)
  have hwdir := h.lines m.wdir (by simp)
  have htype := h.lines m.type (by simp)
  have hattrs := attrsText_plain h.attr
  simp only [plumbhead, hattr, append_assoc, cons_append, nil_append]
  rw [unpackpartial_lines (by simp; grind) hn, cstr_eq fun c hc => (hsrc c hc).2,
    cstr_eq fun c hc => (hdst c hc).2, cstr_eq fun c hc => (hwdir c hc).2,
    cstr_eq fun c hc => (htype c hc).2, cstr_eq fun c hc => (hattrs c hc).2,
    plumbunpackattr_packed h.attr]
  rfl

theorem dataLength_le (h : dataLength m = some n) : n ≤ m.data.length := by
  rw [dataLength] at h
  split_ifs at h
  · rw [← some.inj h]
    exact IsPrefix.length_le <| takeWhile_prefix _
  · rw [← some.inj h]
    omega

theorem length_plumbhead (attr : Option (List UInt8)) (h : n < 2 ^ 31) :
    (plumbhead m attr n).length + n ≤ plumbsize m attr n := by
  have hdigits : (decimal n).length ≤ 10 := Lib9.length_decimalDigits (show n < 10 ^ 10 by omega)
  simp only [plumbhead, plumbsize, Strlen, length_append, length_cons, length_nil]
  omega

theorem plumbpack_eq (h : m.Plain) (hn : dataLength m = some n) (hsize : m.size n < INT_MAX) :
    ∃ attr, attr.getD [] = attrsText m.attr ∧
      plumbpack m = some (plumbhead m attr n ++ m.data.take n) := by
  have hlt : n < 2 ^ 31 ∧ (attrsText m.attr).length < INT_MAX := by
    simp only [Plumbmsg.size, plumbsize, Strlen, getD_some, INT_MAX] at hsize ⊢
    omega
  obtain ⟨attr, hpack, hattr⟩ := plumbpackattr_eq h.attr hlt.2
  have hsize' : plumbsize m attr n < INT_MAX := by
    have hattr' : Strlen attr = Strlen (some (attrsText m.attr)) := congrArg length hattr
    rwa [plumbsize, hattr']
  have hlen : (plumbhead m attr n ++ m.data.take n).length ≤ plumbsize m attr n := by
    rw [length_append, length_take_of_le (dataLength_le hn)]
    exact length_plumbhead attr hlt.1
  have hblock : int ((plumbsize m attr n : Int) + 1) = some ((plumbsize m attr n : Int) + 1) :=
    if_pos (by omega)
  refine ⟨attr, hattr, ?_⟩
  rw [plumbpack, hn, bind_eq_bind, bind_some, hpack, bind_eq_bind,
    bind_some, int_eq hsize'.le, bind_eq_bind, bind_some, hblock,
    bind_some]
  exact if_pos (by omega)

theorem lt_of_size (h : m.size n < INT_MAX) : n < 2 ^ 31 := by
  simp only [Plumbmsg.size, plumbsize, INT_MAX] at h
  omega

/-- **Round trip.** A message is unpacked as it was packed: its lines, its attributes in order, and
its data. -/
theorem plumb_roundTrip (h : m.Plain) (hn : dataLength m = some n) (hsize : m.size n < INT_MAX) :
    ∃ buf, plumbpack m = some buf ∧ plumbunpack buf = some (some (m.norm n)) := by
  obtain ⟨attr, hattr, hpack⟩ := plumbpack_eq h hn hsize
  refine ⟨_, hpack, ?_⟩
  have hlen := length_take_of_le (dataLength_le hn)
  rw [plumbunpack, unpackpartial_head h hattr (lt_of_size hsize), hlen, if_neg (by simp)]
  rfl

end Messages

/-- A message with the attributes `a`, whose value is `b 'c`, and `d`, without a value. -/
def quotedMsg : Plumbmsg where
  src := none
  dst := some [0x65]
  wdir := none
  type := some [0x74]
  attr := [⟨[0x61], some [0x62, 0x20, 0x27, 0x63]⟩, ⟨[0x64], none⟩]
  ndata := 2
  data := [0x0a, 0, 1]

theorem plumb_roundTrip_quoted :
    ∃ buf, plumbpack quotedMsg = some buf ∧ plumbunpack buf = some (some (quotedMsg.norm 2)) := by
  refine plumb_roundTrip ⟨by simp [quotedMsg], ?_, by decide⟩ (by decide) (by decide)
  intro a ha
  simp only [quotedMsg, mem_cons, not_mem_nil, or_false] at ha
  rcases ha with rfl | rfl
  · exact ⟨by decide, by simp [nameEnd], by simp, by decide⟩
  · exact ⟨by decide, by simp [nameEnd], by simp, by decide⟩

/-! ## Any buffer, and any value -/

/-- No line of the message is broken by a newline in it. -/
structure Plumbmsg.Unbroken (m : Plumbmsg) : Prop where
  src : 0x0a ∉ m.src.getD []
  dst : 0x0a ∉ m.dst.getD []
  wdir : 0x0a ∉ m.wdir.getD []
  type : 0x0a ∉ m.type.getD []
  attr : ∀ a ∈ m.attr, 0x0a ∉ a.name ∧ 0x0a ∉ a.value.getD []

section Safety

variable {m : Plumbmsg} {buf : List UInt8}

/-- A line is found up to a newline, and takes that one only. -/
theorem plumbline_of_mem (h : 0x0a ∈ buf) :
    ∃ line rest, plumbline buf = some (line, rest) ∧ buf.count 0x0a = rest.count 0x0a + 1 := by
  obtain ⟨line, rest, rfl, hline⟩ := eq_append_cons_of_mem h
  refine ⟨line, rest, plumbline_append fun c hc heq => hline (heq ▸ hc), ?_⟩
  rw [count_append, count_eq_zero_of_not_mem hline, count_cons_self, Nat.zero_add]

theorem plumbline_of_count {k : Nat} (h : k + 1 ≤ buf.count 0x0a) :
    ∃ line rest, plumbline buf = some (line, rest) ∧ k ≤ rest.count 0x0a := by
  obtain ⟨line, rest, hfound, hcount⟩ := plumbline_of_mem
    (count_pos_iff.mp ((Nat.succ_pos k).trans_le h))
  exact ⟨line, rest, hfound, by omega⟩

theorem plumbline_eq_some {line rest : List UInt8} (h : plumbline buf = some (line, rest)) :
    buf.count 0x0a = rest.count 0x0a + 1 := by
  by_cases hmem : 0x0a ∈ buf
  · obtain ⟨line', rest', hfound, hcount⟩ := plumbline_of_mem hmem
    cases h.symm.trans hfound
    exact hcount
  · have hdrop : buf.dropWhile (· ≠ 0x0a) = [] := dropWhile_eq_nil_iff.mpr fun c hc =>
      decide_eq_true fun heq => hmem (heq ▸ hc)
    rw [plumbline, hdrop] at h
    cases h

/-- A buffer is unpacked if it has the six lines, and only then. -/
theorem unpackpartial_iff : (∃ r, plumbunpackpartial buf = some r) ↔ 6 ≤ buf.count 0x0a := by
  constructor
  · rintro ⟨r, h⟩
    simp only [bind_eq_bind, plumbunpackpartial, bind_eq_some_iff, Prod.exists] at h
    obtain ⟨_, _, h1, _, _, h2, _, _, h3, _, _, h4, _, _, h5, _, _, h6, -⟩ := h
    rw [plumbline_eq_some h1, plumbline_eq_some h2, plumbline_eq_some h3, plumbline_eq_some h4,
      plumbline_eq_some h5, plumbline_eq_some h6]
    omega
  · intro h
    obtain ⟨src, buf1, hsrc, h⟩ := plumbline_of_count h
    obtain ⟨dst, buf2, hdst, h⟩ := plumbline_of_count h
    obtain ⟨wdir, buf3, hwdir, h⟩ := plumbline_of_count h
    obtain ⟨type, buf4, htype, h⟩ := plumbline_of_count h
    obtain ⟨attr, buf5, hattr, h⟩ := plumbline_of_count h
    obtain ⟨ntext, buf6, hntext, -⟩ := plumbline_of_count h
    simp only [Lib.some_bind, plumbunpackpartial, hsrc, hdst, hwdir, htype, hattr, hntext]
    split_ifs
    · exact ⟨_, rfl⟩
    · exact ⟨_, rfl⟩
    · exact ⟨_, rfl⟩

theorem packattrs_unbroken {t : List UInt8} (ht : 0x0a ∉ t)
    (h : ∀ a ∈ as, 0x0a ∉ a.name ∧ 0x0a ∉ a.value.getD []) : 0x0a ∉ packattrs t as := by
  induction as generalizing t with
  | nil => exact ht
  | cons a as ih =>
    obtain ⟨hname, hvalue⟩ := h a (.head _)
    refine ih (fun hmem => ?_) fun b hb => h b (.tail _ hb)
    have hquote : (0x0a : UInt8) ∉ quote a.value := fun hc =>
      (mem_quote hc).elim (by decide) hvalue
    split at hmem <;> simp [ht, hname, hquote] at hmem

theorem plumbpackattr_unbroken {attr : Option (List UInt8)} (h : plumbpackattr m.attr = some attr)
    (hm : m.Unbroken) : 0x0a ∉ attr.getD [] := by
  unfold plumbpackattr at h
  split at h
  · cases h
    exact not_mem_nil
  · obtain ⟨n, -, h⟩ := bind_eq_some_iff.mp h
    dsimp only at h
    split_ifs at h
    cases h
    exact packattrs_unbroken not_mem_nil hm.attr

/-- A buffer with six lines of a message has all that is before the data. -/
theorem plumbhead_of_count {attr : Option (List UInt8)} {data : List UInt8} (hm : m.Unbroken)
    (hattr : 0x0a ∉ attr.getD []) (hbuf : 6 ≤ buf.count 0x0a)
    (h : buf <+: plumbhead m attr n ++ data) : ∃ rest, buf = plumbhead m attr n ++ rest := by
  rcases prefix_or_prefix_of_prefix h (prefix_append _ _) with hle | ⟨rest, hrest⟩
  · rw [plumbhead, prefix_concat_iff] at hle
    rcases hle with heq | hle
    · exact ⟨[], by rw [append_nil, heq, plumbhead]⟩
    -- without the last newline there are only five
    have hdec : 0x0a ∉ decimal n := fun hc => (decimal_plain n _ hc).1 rfl
    have hcount := hle.sublist.count_le 0x0a
    simp [count_eq_zero_of_not_mem, hm.src, hm.dst, hm.wdir, hm.type, hattr, hdec] at hcount
    omega
  · exact ⟨rest, hrest.symm⟩

theorem unpackpartial_proper {packed : List UInt8} (hbuf : 6 ≤ buf.count 0x0a)
    (hm : m.Unbroken) (h : plumbpack m = some packed) (hle : buf <+: packed) (hne : buf ≠ packed) :
    plumbunpackpartial buf = some (none, ((packed.length - buf.length : Nat) : Int)) := by
  obtain ⟨n, hn, h⟩ := bind_eq_some_iff.mp h
  obtain ⟨attr, hattr, h⟩ := bind_eq_some_iff.mp h
  obtain ⟨size, hsize, h⟩ := bind_eq_some_iff.mp h
  obtain ⟨size', -, h⟩ := bind_eq_some_iff.mp h
  have hnl := plumbpackattr_unbroken hattr hm
  have hlt : n < 2 ^ 31 := by
    unfold int at hsize
    split_ifs at hsize with hint
    simp only [plumbsize, INT_MAX] at hint
    omega
  have hlen := length_take_of_le (dataLength_le hn)
  dsimp only at h
  split_ifs at h
  cases h
  obtain ⟨rest, rfl⟩ := plumbhead_of_count hm hnl hbuf hle
  have hdata := (prefix_append_right_inj _).mp hle
  have hless : rest.length < n := by
    refine lt_of_le_of_ne (hlen ▸ hdata.length_le) fun heq => hne ?_
    rw [hdata.eq_of_length (heq.trans hlen.symm)]
  have hmore : (plumbhead m attr n ++ m.data.take n).length - (plumbhead m attr n ++ rest).length =
      n - rest.length := by
    rw [length_append, length_append, hlen, Nat.add_sub_add_left]
  rw [hmore, Int.ofNat_sub hless.le]
  simp only [plumbhead, append_assoc, cons_append, nil_append]
  rw [unpackpartial_lines (by grind [hm.src, hm.dst, hm.wdir, hm.type]) hlt,
    if_pos (by omega), if_pos (by omega)]

/-- A quote in `c :: s` is `c` itself, or one of `s`. -/
theorem forall_quote_cons (t : Nat) (c : UInt8) :
    (∀ p r, c :: s = p ++ 0x27 :: r → t + (doubled p).length ≠ attrbufSize - 3) ↔
      (c = 0x27 → t ≠ attrbufSize - 3) ∧ ∀ p r, s = p ++ 0x27 :: r →
        t + (if c = 0x27 then 2 else 1) + (doubled p).length ≠ attrbufSize - 3 := by
  have hcons : ∀ p, (doubled (c :: p)).length = (if c = 0x27 then 2 else 1) +
      (doubled p).length := fun p => by
    rw [doubled, flatMap_cons, length_append]
    split <;> rfl
  constructor
  · intro h
    refine ⟨fun hc => h [] s (by rw [hc]; rfl), fun p r hs => ?_⟩
    have := h (c :: p) r (by rw [hs]; rfl)
    rwa [hcons, ← Nat.add_assoc] at this
  · rintro ⟨hc, h⟩ p r hs
    cases p with
    | nil => exact hc (cons.inj hs).1
    | cons d p =>
      obtain ⟨rfl, hs'⟩ := cons.inj hs
      rw [hcons, ← Nat.add_assoc]
      exact h p r hs'

/-- **The loop of `quote` leaves the room for the two terminators**, unless it comes to a quote with
room for only one more byte before its limit. -/
theorem length_quoteLoop_iff {t : Nat} (ht : t ≤ attrbufSize - 2) :
    t + (quoteLoop t s).length ≤ attrbufSize - 2 ↔
      ∀ p r, s = p ++ 0x27 :: r → t + (doubled p).length ≠ attrbufSize - 3 := by
  have hsize : attrbufSize = 4096 := rfl
  induction s generalizing t with
  | nil =>
    refine iff_of_true ht fun p r hs => ?_
    exact absurd hs.symm (by simp)
  | cons c s ih =>
    rw [forall_quote_cons, quoteLoop]
    by_cases hlt : t < attrbufSize - 2
    · by_cases hc : c = 0x27
      · rw [if_pos hlt, if_pos hc, if_pos hc, length_cons, length_cons]
        by_cases hlast : t = attrbufSize - 3
        · exact iff_of_false (by omega) fun h => h.1 hc hlast
        · rw [and_iff_right fun _ => hlast]
          exact Iff.trans (by omega) (@ih (t + 2) (by omega))
      · rw [if_pos hlt, if_neg hc, if_neg hc, length_cons, and_iff_right fun h => absurd h hc]
        exact Iff.trans (by omega) (@ih (t + 1) hlt)
    · rw [if_neg hlt]
      exact iff_of_true ht ⟨fun _ => by omega, fun p r _ => by omega⟩

theorem length_quote_iff (hq : s.any special) : (quote (some s)).length < attrbufSize ↔
    ∀ p r, s = p ++ 0x27 :: r → (doubled p).length ≠ attrbufSize - 4 := by
  have hloop := length_quoteLoop_iff (s := s) (t := 1) (by decide)
  rw [quote, if_pos hq]
  simp only [length_append, length_cons, length_nil, attrbufSize] at hloop ⊢
  refine ⟨fun h p r hs => ?_, fun h => ?_⟩
  · have := hloop.mp (by omega) p r hs
    omega
  · have := hloop.mpr fun p r hs => by have := h p r hs; omega
    omega

theorem length_unquote {v : Nat} (hv : v ≤ attrbufSize) (quoting : Bool) (q : List UInt8) :
    v + (unquote v quoting q).1.length ≤ attrbufSize := by
  fun_induction unquote v quoting q <;> grind

end Safety

/-- **Any buffer, and any value.** A buffer is unpacked without the use of a line that was not
found; if it is the beginning of a message then nothing is unpacked, and what is missing is known;
and a value stays in the buffer for attributes, with its NUL if it is quoted. This is so exactly if
the buffer has six lines and no quote of the value has its second copy in the last place but one
before the limit. -/
theorem plumb_safe (buf s : List UInt8) :
    ((∃ r, plumbunpackpartial buf = some r) ∧
      (∀ (m : Plumbmsg) (packed : List UInt8), m.Unbroken → plumbpack m = some packed →
        buf <+: packed → buf ≠ packed →
        plumbunpackpartial buf = some (none, ((packed.length - buf.length : Nat) : Int))) ∧
      (s.any special → (quote (some s)).length < attrbufSize) ∧
      ∀ q, (unquote 0 false q).1.length ≤ attrbufSize) ↔
    6 ≤ buf.count 0x0a ∧ ∀ p r, s = p ++ 0x27 :: r → (doubled p).length ≠ attrbufSize - 4 := by
  have hspecial : ∀ p r, s = p ++ 0x27 :: r → s.any special := by
    rintro p r rfl
    simp [special]
  constructor
  · rintro ⟨hbuf, -, hquote, -⟩
    exact ⟨unpackpartial_iff.mp hbuf, fun p r hs =>
      (length_quote_iff (hspecial p r hs)).mp (hquote (hspecial p r hs)) p r hs⟩
  · rintro ⟨hbuf, hs⟩
    refine ⟨unpackpartial_iff.mpr hbuf, ?_, fun hq => (length_quote_iff hq).mpr hs, fun q => ?_⟩
    · exact fun m packed hm h hle hne => unpackpartial_proper hbuf hm h hle hne
    · have := length_unquote (Nat.zero_le _) false q
      omega

/-- Without lines `plumbunpackattr` follows a nil pointer; and of 2047 quotes, doubled and in
quotes, the NUL is after the buffer. -/
theorem plumb_overrun :
    plumbunpackpartial [] = none ∧ attrbufSize ≤ (quote (some (replicate 2047 0x27))).length := by
  decide +kernel

/-- A message with `INT_MAX` bytes of data. -/
def hugeMsg : Plumbmsg := ⟨none, none, none, none, [], INT_MAX, List.replicate INT_MAX 0⟩

/-- The length of the block for such a message is no `int`. -/
theorem plumbpack_overflow : hugeMsg.Plain ∧ plumbpack hugeMsg = none := by
  have hdata : dataLength hugeMsg = some INT_MAX := by
    have hlen : (INT_MAX : Int) ≤ (replicate INT_MAX (0 : UInt8)).length := by
      rw [length_replicate]
    exact (if_neg (by decide)).trans (if_pos hlen)
  refine ⟨⟨?_, fun a ha => absurd ha not_mem_nil, by rw [hdata]; rfl⟩, ?_⟩
  · simp [hugeMsg]
  · have hint : int (plumbsize hugeMsg none INT_MAX) = none := if_neg (by decide)
    have hattr : plumbpackattr hugeMsg.attr = some none := rfl
    simp only [plumbpack, hdata, hattr, Lib.some_bind]
    exact bind_eq_none_iff.mpr fun n hn => by cases hint.symm.trans hn

end Plan9Port.Plumb
