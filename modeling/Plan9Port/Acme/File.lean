import Plan9Port.Acme.Flat
import Plan9Port.Lib.Timeline

/-!
# Undo and redo in acme

`acme/file.c`: a file is a text with two logs of changes. Each edit leaves in `delta` what takes it
back: a record, an `Undo`, behind the runes that go with it. `fileundo` takes the records of one
sequence number from the end of one log, does what they say, and leaves the records that take this
back in the other log.

The name that is shown and the one that is used outside (`ename`) differ by the home directory,
which is an argument here. What a call does to the windows that show a file is not modelled,
nor that the length of a name is an int.
-/

namespace Plan9Port.Acme

open Memory Utf Flat Timeline List Option UInt32

/-! ## Names -/

/-- `~`, `$home` and `$hOme` in front of a path, or alone: how many runes they are. -/
def homeskip (arg : List Rune) : Nat :=
  if arg[0]? = some 0x7e ∧ (arg.length = 1 ∨ arg[1]? = some 0x2f) then 1
  else if 5 ≤ arg.length ∧ arg[0]? = some 0x24 ∧ arg[1]? = some 0x68 ∧ arg[3]? = some 0x6d ∧
      arg[4]? = some 0x65 ∧ (arg[2]? = some 0x6f ∨ arg[2]? = some 0x4f) ∧
      (arg.length = 5 ∨ arg[5]? = some 0x2f) then 5
  else 0

/-- `home` is `getenv("HOME")`. -/
def expandhome (home : Option (List Rune)) (arg : List Rune) : List Rune :=
  if homeskip arg = 0 then arg
  else match home with
    | none => arg
    | some h => h ++ arg.drop (homeskip arg)

/-- Without a home directory the runes of the result are never set. -/
def contracthome (home : Option (List Rune)) (name : List Rune) : List Rune :=
  match home with
  | none => List.replicate name.length 0
  | some h =>
    if h.length ≤ name.length ∧ name.take h.length = h ∧
        (name.length = h.length ∨ name[h.length]? = some 0x2f) then
      if name.length = h.length then [0x7e, 0x2f] else 0x7e :: name.drop h.length
    else name

/-- The expanded name. -/
def filerecalcenname (home : Option (List Rune)) (name : List Rune) : List Rune :=
  if name = [] then [] else expandhome home name

/-! ## Records -/

/-- What a change is; also the states of an edit log. -/
inductive EditType where
  | Empty
  | Null
  | Delete
  | Insert
  | Replace
  | Filename
deriving DecidableEq, Repr

/-- The number of a record's type. -/
def EditType.code : EditType → Nat
  | .Empty => 0
  | .Null => 0x2d
  | .Delete => 0x64
  | .Insert => 0x69
  | .Replace => 0x72
  | .Filename => 0x66

/-- The type of a number. -/
def EditType.ofCode (c : Nat) : Option EditType :=
  [EditType.Empty, .Null, .Delete, .Insert, .Replace, .Filename].find? (·.code = c)

@[simp] theorem EditType.ofCode_code (t : EditType) : EditType.ofCode t.code = some t := by
  cases t <;> rfl

theorem EditType.code_lt (t : EditType) : t.code < 0x10000 := by
  cases t <;> decide

/-- A record of a log. -/
structure Undo where
  type : EditType
  mod : Bool
  seq : UInt32
  p0 : UInt32
  n : UInt32
deriving DecidableEq, Repr

/-- `sizeof(Undo)/sizeof(Rune)`. -/
def Undosize : Nat := 4

/-- The two shorts share the first rune. -/
def Undo.pack (u : Undo) : List Rune :=
  [UInt32.ofNat (u.type.code + 0x10000 * u.mod.toNat), u.seq, u.p0, u.n]

/-- A type that is none is where `fileundo` aborts. -/
def Undo.unpack : List Rune → Option Undo
  | [w, seq, p0, n] =>
    (EditType.ofCode (w.toNat % 0x10000)).map fun type =>
      ⟨type, decide (w.toNat / 0x10000 ≠ 0), seq, p0, n⟩
  | _ => none

@[simp] theorem Undo.length_pack (u : Undo) : u.pack.length = Undosize := rfl

@[simp] theorem Undo.unpack_pack (u : Undo) : Undo.unpack u.pack = some u := by
  have hcode := u.type.code_lt
  have hmod := u.mod.toNat_le
  have hw : (ofNat (u.type.code + 0x10000 * u.mod.toNat)).toNat =
      u.type.code + 0x10000 * u.mod.toNat := by
    rw [toNat_ofNat']
    omega
  rw [pack, unpack, hw, show (u.type.code + 0x10000 * u.mod.toNat) % 0x10000 = u.type.code by omega,
    show (u.type.code + 0x10000 * u.mod.toNat) / 0x10000 = u.mod.toNat by omega,
    EditType.ofCode_code]
  cases hm : u.mod <;> simp [← hm]

/-! ## Files -/

/-- A file: its text, its names and its two logs. -/
structure File where
  b : Flat
  delta : Flat
  epsilon : Flat
  name : List Rune
  ename : List Rune
  unread : Bool
  seq : Int32
  mod : Bool
deriving DecidableEq

/-- The record that undoes an insertion. -/
def fileuninsert (f : File) (delta : Flat) (p0 ns : Nat) : Option Flat :=
  delta.bufinsert delta.length
    (Undo.pack ⟨.Delete, f.mod, f.seq.toUInt32, UInt32.ofNat p0, UInt32.ofNat ns⟩)

/-- The record that undoes a deletion, after the runes. -/
def fileundelete (f : File) (delta : Flat) (p0 p1 : Nat) : Option Flat := do
  let delta ← copyPieces f.b p0 (p1 - p0) (fun _ r delta => Flat.bufinsert delta delta.length r)
    (p1 - p0) 0 delta
  delta.bufinsert delta.length
    (Undo.pack ⟨.Insert, f.mod, f.seq.toUInt32, UInt32.ofNat p0, UInt32.ofNat (p1 - p0)⟩)

/-- The record that sets the name back, after the name. -/
def fileunsetname (f : File) (delta : Flat) : Option Flat := do
  let delta ← (if f.name ≠ [] then delta.bufinsert delta.length f.name else some delta)
  delta.bufinsert delta.length
    (Undo.pack ⟨.Filename, f.mod, f.seq.toUInt32, 0, UInt32.ofNat f.name.length⟩)

/-- Runes are inserted. -/
def fileinsert (f : File) (p0 : Nat) (s : List Rune) : Option File :=
  if p0 > f.b.length then none
  else do
    let delta ← (if f.seq > 0 then fileuninsert f f.delta p0 s.length else some f.delta)
    let b ← f.b.bufinsert p0 s
    some { f with b, delta, mod := if s ≠ [] then true else f.mod }

/-- Runes are deleted. -/
def filedelete (f : File) (p0 p1 : Nat) : Option File :=
  if ¬(p0 ≤ p1 ∧ p0 ≤ f.b.length ∧ p1 ≤ f.b.length) then none
  else do
    let delta ← (if f.seq > 0 then fileundelete f f.delta p0 p1 else some f.delta)
    let b ← f.b.bufdelete p0 p1
    some { f with b, delta, mod := if p1 > p0 then true else f.mod }

/-- A name of no runes is no name. -/
def filesetname (home : Option (List Rune)) (f : File) (name : List Rune) : Option File := do
  let delta ← (if f.seq > 0 then fileunsetname f f.delta else some f.delta)
  if name = [] then
    some { f with delta, name := [], ename := [], unread := true }
  else
    let er := expandhome home name
    some { f with delta, name := contracthome home er, ename := er, unread := true }

/-- `seq` is the global sequence number. What could be redone is deleted. -/
def filemark (f : File) (seq : UInt32) : File := { f with epsilon := [], seq := seq.toInt32 }

/-! ### Undo -/

/-- The log that `fileundo` takes records from, `delta` there. -/
def File.source (f : File) (isundo : Bool) : Flat := if isundo then f.delta else f.epsilon

/-- The log that `fileundo` leaves records in, `epsilon` there. -/
def File.target (f : File) (isundo : Bool) : Flat := if isundo then f.epsilon else f.delta

/-- `delta` is the source of an undo, `epsilon` of a redo. -/
def File.setLogs (f : File) (isundo : Bool) (source target : Flat) : File :=
  if isundo then { f with delta := source, epsilon := target }
  else { f with delta := target, epsilon := source }

/-- An unsigned difference; one that wraps is out of range for the `bufread` that uses it. -/
def below (a b : Nat) : Option Nat := if b ≤ a then some (a - b) else none

/-- Taking one record, which begins at `up`. Besides the file it returns the range to select. -/
def fileundoRecord (home : Option (List Rune)) (isundo : Bool) (f : File) (u : Undo) (up : Nat)
    (q : Nat × Nat) : Option (File × Nat × Nat) :=
  let f := { f with seq := u.seq.toInt32 }
  let delta := f.source isundo
  match u.type with
  | .Delete => do
    let epsilon ← fileundelete f (f.target isundo) u.p0.toNat (u.p0 + u.n).toNat
    let b ← f.b.bufdelete u.p0.toNat (u.p0 + u.n).toNat
    let delta ← delta.bufdelete up delta.length
    some ({ f with b, mod := u.mod }.setLogs isundo delta epsilon, u.p0.toNat, u.p0.toNat)
  | .Insert => do
    let epsilon ← fileuninsert f (f.target isundo) u.p0.toNat u.n.toNat
    let up ← below up u.n.toNat
    let b ← copyPieces delta up u.n.toNat (fun i r b => Flat.bufinsert b (u.p0.toNat + i) r)
      u.n.toNat 0 f.b
    let delta ← delta.bufdelete up delta.length
    some ({ f with b, mod := u.mod }.setLogs isundo delta epsilon, u.p0.toNat, (u.p0 + u.n).toNat)
  | .Filename => do
    let epsilon ← fileunsetname f (f.target isundo)
    let up ← below up u.n.toNat
    let name ← delta.bufread up u.n.toNat
    let delta ← delta.bufdelete up delta.length
    some ({ f with name, ename := filerecalcenname home name, mod := u.mod }.setLogs isundo delta
      epsilon, q)
  | _ => none

/-- The loop of `fileundo`. -/
def fileundoLoop (home : Option (List Rune)) (isundo : Bool) :
    Nat → UInt32 → File → Nat × Nat → Option (File × Nat × Nat)
  | 0, _, _, _ => none
  | fuel + 1, stop, f, q =>
    let delta := f.source isundo
    if delta.length = 0 then some ({ f with seq := if isundo then 0 else f.seq }, q)
    else do
      let up ← below delta.length Undosize
      let w ← delta.bufread up Undosize
      let u ← Undo.unpack w
      if isundo ∧ u.seq < stop then some ({ f with seq := u.seq.toInt32 }, q)
      else
        -- for a redo, the first record says which sequence number it is
        let stop := if ¬isundo ∧ stop = 0 then u.seq else stop
        if ¬isundo ∧ u.seq > stop then some (f, q)
        else do
          let (f, q) ← fileundoRecord home isundo f u up q
          fileundoLoop home isundo fuel stop f q

/-- Every record is `Undosize` runes at least. -/
def fileundo (home : Option (List Rune)) (f : File) (isundo : Bool) (q : Nat × Nat) :
    Option (File × Nat × Nat) :=
  fileundoLoop home isundo ((f.source isundo).length + 1)
    (if isundo then f.seq.toUInt32 else 0) f q

/-! ## What the logs hold -/

/-- What a record says to do. Of a name, both the one to set and the one that it takes the place
of; the record has the first. -/
inductive Change where
  | delete (p0 n : Nat)
  | insert (p0 : Nat) (s : List Rune)
  | name (r r' : List Rune)

/-- A record and the runes before it. -/
structure Entry where
  change : Change
  mod : Bool
  seq : UInt32

/-- The record of an entry. -/
def Entry.undo (e : Entry) : Undo :=
  match e.change with
  | .delete p0 n => ⟨.Delete, e.mod, e.seq, UInt32.ofNat p0, UInt32.ofNat n⟩
  | .insert p0 s => ⟨.Insert, e.mod, e.seq, UInt32.ofNat p0, UInt32.ofNat s.length⟩
  | .name r _ => ⟨.Filename, e.mod, e.seq, 0, UInt32.ofNat r.length⟩

/-- The runes in front of it. -/
def Entry.payload (e : Entry) : List Rune :=
  match e.change with
  | .delete _ _ => []
  | .insert _ s => s
  | .name r _ => r

/-- A log, given by its entries, the last one first. -/
def log : List Entry → Flat
  | [] => []
  | e :: es => log es ++ e.payload ++ e.undo.pack

/-- The runes that a record and what goes with it take in a log, or its reverse if that takes
more. -/
def Change.width : Change → Nat
  | .delete _ n => n + Undosize
  | .insert _ s => s.length + Undosize
  | .name r r' => max r.length r'.length + Undosize

/-- The runes that the entries of a log take, on whichever side they are. -/
def width (es : List Entry) : Nat := (es.map (·.change.width)).sum

/-- What undo and redo restore. -/
structure Doc where
  text : List Rune
  name : List Rune
  mod : Bool
deriving DecidableEq

/-- What a user sees of a file. -/
def File.doc (f : File) : Doc := ⟨f.b, f.name, f.mod⟩

/-- `Flip d e d' e'`: the entry `e` changes `d` into `d'` and leaves `e'`. Positions and lengths
are unsigned integers in the records. -/
inductive Flip : Doc → Entry → Doc → Entry → Prop
  | delete {xs s ys name : List Rune} {m m' : Bool} {seq : UInt32} :
      (xs ++ s ++ ys).length < 2 ^ 32 →
      Flip ⟨xs ++ s ++ ys, name, m⟩ ⟨.delete xs.length s.length, m', seq⟩
        ⟨xs ++ ys, name, m'⟩ ⟨.insert xs.length s, m, seq⟩
  | insert {xs s ys name : List Rune} {m m' : Bool} {seq : UInt32} :
      (xs ++ s ++ ys).length < 2 ^ 32 →
      Flip ⟨xs ++ ys, name, m⟩ ⟨.insert xs.length s, m', seq⟩
        ⟨xs ++ s ++ ys, name, m'⟩ ⟨.delete xs.length s.length, m, seq⟩
  | name {text name name' : List Rune} {m m' : Bool} {seq : UInt32} :
      name.length < 2 ^ 32 → name'.length < 2 ^ 32 →
      Flip ⟨text, name, m⟩ ⟨.name name' name, m', seq⟩ ⟨text, name', m'⟩
        ⟨.name name name', m, seq⟩

variable {d d' : Doc} {e' e : Entry} {f : File}

theorem Flip.symm (h : Flip d e d' e') : Flip d' e' d e := by
  cases h with
  | delete h => exact .insert h
  | insert h => exact .delete h
  | name h h' => exact .name h' h

theorem Flip.seq_eq (h : Flip d e d' e') : e'.seq = e.seq := by
  cases h <;> rfl

theorem Flip.width_eq (h : Flip d e d' e') : e'.change.width = e.change.width := by
  cases h with
  | delete h => rfl
  | insert h => rfl
  | name h h' => rw [Change.width, Change.width, max_comm]

/-! ### Leaving a record -/

@[simp] theorem width_cons (e : Entry) (es : List Entry) :
    width (e :: es) = e.change.width + width es := rfl

@[simp] theorem width_append (es es' : List Entry) : width (es ++ es') = width es + width es' := by
  rw [width, map_append, sum_append]
  rfl

/-- A log has room for its entries. -/
theorem length_log_le_width (es : List Entry) : (log es).length ≤ width es := by
  induction es with
  | nil => exact le_rfl
  | cons e es ih =>
    have hpayload : e.payload.length + Undosize ≤ e.change.width := by
      rcases e with ⟨_ | _ | _, _, _⟩ <;> simp [Entry.payload, Change.width]
    rw [log, length_append, length_append, e.undo.length_pack, width_cons]
    omega

variable {es : List Entry}

theorem fileuninsert_log (f : File) (p0 ns : Nat) (hroom : width es + Undosize < 2 ^ 32) :
    fileuninsert f (log es) p0 ns = some (log (⟨.delete p0 ns, f.mod, f.seq.toUInt32⟩ :: es)) := by
  have hlen := length_log_le_width es
  rw [fileuninsert, bufinsert_end (by rw [Undo.length_pack]; omega), log, Entry.payload, append_nil]
  rfl

/-- The deleted runes are copied in pieces. -/
theorem fileundelete_log {xs s ys : List Rune} (hb : f.b = xs ++ s ++ ys)
    (hroom : width es + (s.length + Undosize) < 2 ^ 32) :
    fileundelete f (log es) xs.length (xs.length + s.length) =
      some (log (⟨.insert xs.length s, f.mod, f.seq.toUInt32⟩ :: es)) := by
  have hlen := length_log_le_width es
  have hsrc : xs.length + s.length ≤ f.b.length := by simp [hb]
  have hcopy := copyPieces_bufinsert_end (b := log es) hsrc (by omega)
  have hs : slice f.b xs.length s.length = s := by simp [hb, slice]
  rw [hs] at hcopy
  rw [fileundelete, Nat.add_sub_cancel_left, hcopy]
  exact bufinsert_end (by rw [length_append, Undo.length_pack]; omega)

theorem fileunsetname_log (f : File) (r : List Rune)
    (hroom : width es + (f.name.length + Undosize) < 2 ^ 32) :
    fileunsetname f (log es) = some (log (⟨.name f.name r, f.mod, f.seq.toUInt32⟩ :: es)) := by
  have hlen := length_log_le_width es
  have hname : (if f.name ≠ [] then bufinsert (log es) (log es).length f.name
      else some (log es)) = some (log es ++ f.name) := by
    split_ifs with h
    · exact bufinsert_end (by omega)
    · rw [not_not.mp h, append_nil]
  rw [fileunsetname, hname]
  exact bufinsert_end (by rw [length_append, Undo.length_pack]; omega)

/-! ### Taking a record -/

section Logs

variable (f : File) (isundo : Bool)

@[simp] theorem File.source_setLogs (s t : Flat) : (f.setLogs isundo s t).source isundo = s := by
  cases isundo <;> rfl

@[simp] theorem File.target_setLogs (s t : Flat) : (f.setLogs isundo s t).target isundo = t := by
  cases isundo <;> rfl

@[simp] theorem File.doc_setLogs (s t : Flat) : (f.setLogs isundo s t).doc = f.doc := by
  cases isundo <;> rfl

@[simp] theorem File.seq_setLogs (s t : Flat) : (f.setLogs isundo s t).seq = f.seq := by
  cases isundo <;> rfl

@[simp] theorem File.source_seq (seq : Int32) :
    ({ f with seq } : File).source isundo = f.source isundo := rfl

@[simp] theorem File.target_seq (seq : Int32) :
    ({ f with seq } : File).target isundo = f.target isundo := rfl

end Logs

theorem toNat_ofNat_range {a b : Nat} (h : a + b < 2 ^ 32) :
    (UInt32.ofNat a).toNat = a ∧ (UInt32.ofNat b).toNat = b ∧
      (UInt32.ofNat a + UInt32.ofNat b).toNat = a + b := by
  rw [UInt32.toNat_add, UInt32.toNat_ofNat', UInt32.toNat_ofNat']
  omega

theorem below_length_append (xs s : List Rune) :
    below (xs ++ s).length s.length = some xs.length := by
  simp [below]

variable {isundo : Bool}

/-- Taking the last record of a log does what it says and leaves its reverse. -/
theorem fileundoRecord_spec (home : Option (List Rune)) {fs : List Entry}
    (hflip : Flip f.doc e d' e') (hsource : f.source isundo = log (e :: es))
    (htarget : f.target isundo = log fs) (hroom : e.change.width + width fs < 2 ^ 32)
    (q : Nat × Nat) :
    ∃ f' q', fileundoRecord home isundo f e.undo (log es ++ e.payload).length q = some (f', q') ∧
      f'.doc = d' ∧ f'.source isundo = log es ∧ f'.target isundo = log (e' :: fs) ∧
      f'.seq = e.seq.toInt32 := by
  generalize hd : f.doc = d at hflip
  have hcut : bufdelete (log (e :: es)) (log es).length (log (e :: es)).length = some (log es) := by
    rw [log, append_assoc]
    exact bufdelete_end _ _
  cases hflip with
  | @delete xs s ys name m m' seq hsize =>
    obtain ⟨hb, hname, hmod⟩ : f.b = xs ++ s ++ ys ∧ f.name = name ∧ f.mod = m := by
      simpa [File.doc] using hd
    obtain ⟨hp, -, hpn⟩ := toNat_ofNat_range (a := xs.length) (b := s.length)
      (by simp only [length_append] at hsize; omega)
    have hleave := fileundelete_log (f := { f with seq := seq.toInt32 }) hb
      (show width fs + (s.length + Undosize) < 2 ^ 32 by rw [add_comm]; exact hroom)
    have hdelete := bufdelete_append xs s ys
    rw [← hb] at hdelete
    refine ⟨_, _, by
      simp only [fileundoRecord, Entry.undo, hp, hpn, Entry.payload, append_nil,
        File.source_seq, File.target_seq, htarget, hleave, hdelete, hsource, hcut, Lib.some_bind]
      rfl, ?_⟩
    rw [File.doc_setLogs, File.source_setLogs, File.target_setLogs, File.seq_setLogs]
    simp [File.doc, hname, hmod]
  | @insert xs s ys name m m' seq hsize =>
    obtain ⟨hb, hname, hmod⟩ : f.b = xs ++ ys ∧ f.name = name ∧ f.mod = m := by
      simpa [File.doc] using hd
    obtain ⟨hp, hn, hpn⟩ := toNat_ofNat_range (a := xs.length) (b := s.length)
      (by simp only [length_append] at hsize; omega)
    have hleave := fileuninsert_log { f with seq := seq.toInt32 } xs.length s.length
      (show width fs + Undosize < 2 ^ 32 by simp only [Change.width] at hroom; omega)
    have hup : (log es).length + s.length ≤ (f.source isundo).length := by
      simp [hsource, log, Entry.payload]
    have hcopy := copyPieces_bufinsert hup (show xs.length + s.length + ys.length < 2 ^ 32 by
      simp only [length_append] at hsize; omega)
    have hs : slice (f.source isundo) (log es).length s.length = s := by
      simp [hsource, log, Entry.payload, slice]
    rw [← hb, hs, hsource] at hcopy
    refine ⟨_, _, by
      simp only [fileundoRecord, Entry.undo, hp, hn, hpn, Entry.payload, File.source_seq,
        File.target_seq, htarget, hleave, below_length_append, hcopy, hsource, hcut, Lib.some_bind]
      rfl, ?_⟩
    rw [File.doc_setLogs, File.source_setLogs, File.target_setLogs, File.seq_setLogs]
    simp [File.doc, hname, hmod]
  | @name text name name' m m' seq hsize hsize' =>
    obtain ⟨hb, hname, hmod⟩ : f.b = text ∧ f.name = name ∧ f.mod = m := by
      simpa [File.doc] using hd
    have hn : (ofNat name'.length).toNat = name'.length := by
      rw [toNat_ofNat']
      omega
    have hleave := fileunsetname_log { f with seq := seq.toInt32 } name'
      (show width fs + (f.name.length + Undosize) < 2 ^ 32 by
        simp only [Change.width, hname] at hroom ⊢; omega)
    have hread : bufread (log (⟨.name name' name, m', seq⟩ :: es)) (log es).length name'.length =
        some name' := bufread_append _ _ _
    refine ⟨_, _, by
      simp only [fileundoRecord, Entry.undo, hn, Entry.payload, File.source_seq, File.target_seq,
        htarget, hleave, below_length_append, hread, hsource, hcut, Lib.some_bind]
      rfl, ?_⟩
    rw [File.doc_setLogs, File.source_setLogs, File.target_setLogs, File.seq_setLogs]
    simp [File.doc, hb, hname, hmod]

/-! ### Taking a group -/

theorem log_cons (e : Entry) (es : List Entry) :
    log (e :: es) = log es ++ e.payload ++ e.undo.pack := rfl

/-- Reading the last record of a log. -/
theorem read_log_cons (e : Entry) (es : List Entry) :
    below (log (e :: es)).length Undosize = some (log es ++ e.payload).length ∧
      bufread (log (e :: es)) (log es ++ e.payload).length Undosize = some e.undo.pack := by
  rw [log_cons, ← e.undo.length_pack]
  refine ⟨below_length_append _ _, ?_⟩
  have h := bufread_append (log es ++ e.payload) e.undo.pack []
  rwa [append_nil] at h

theorem length_log_le (es : List Entry) : es.length ≤ (log es).length := by
  induction es with
  | nil => exact le_rfl
  | cons e es ih =>
    rw [log_cons, length_append, length_append, e.undo.length_pack, length_cons, Undosize]
    omega

variable {home : Option (List Rune)} {stop : UInt32}

/-- A turn of the loop, on a log with records. -/
theorem fileundoLoop_log (hsource : f.source isundo = log (e :: es)) (fuel : Nat) (stop : UInt32)
    (q : Nat × Nat) :
    fileundoLoop home isundo (fuel + 1) stop f q =
      if isundo = true ∧ e.seq < stop then some ({ f with seq := e.seq.toInt32 }, q)
      else
        let stop' := if ¬isundo = true ∧ stop = 0 then e.seq else stop
        if ¬isundo = true ∧ e.seq > stop' then some (f, q)
        else (fileundoRecord home isundo f e.undo (log es ++ e.payload).length q).bind fun p =>
          fileundoLoop home isundo fuel stop' p.1 p.2 := by
  obtain ⟨hup, hread⟩ := read_log_cons e es
  have hne : (log (e :: es)).length ≠ 0 := by
    have := length_log_le (e :: es)
    rw [length_cons] at this
    omega
  have hseq : e.undo.seq = e.seq := by
    rw [Entry.undo]
    split <;> rfl
  simp only [fileundoLoop, hsource, if_neg hne, hup, hread, Undo.unpack_pack, hseq,
    bind_eq_bind, bind_some]

/-- One turn that takes a record. A redo learns its sequence number from it. -/
theorem fileundoLoop_cons (home : Option (List Rune)) {fs : List Entry} (hflip : Flip f.doc e d' e')
    (hstop : stop = e.seq ∨ isundo = false ∧ stop = 0) (hsource : f.source isundo = log (e :: es))
    (htarget : f.target isundo = log fs) (hroom : e.change.width + width fs < 2 ^ 32) (fuel : Nat)
    (q : Nat × Nat) :
    ∃ f' q', fileundoLoop home isundo (fuel + 1) stop f q =
        fileundoLoop home isundo fuel e.seq f' q' ∧
      f'.doc = d' ∧ f'.source isundo = log es ∧ f'.target isundo = log (e' :: fs) ∧
      f'.seq = e.seq.toInt32 := by
  obtain ⟨f', q', hrec, hf'⟩ := fileundoRecord_spec home hflip hsource htarget hroom q
  refine ⟨f', q', ?_, hf'⟩
  have hundo : ¬(isundo = true ∧ e.seq < stop) := by
    rcases hstop with rfl | ⟨rfl, -⟩ <;> simp
  have hredo : (if ¬isundo = true ∧ stop = 0 then e.seq else stop) = e.seq := by
    rcases hstop with rfl | ⟨rfl, rfl⟩ <;> simp
  rw [fileundoLoop_log hsource, if_neg hundo, hredo, hrec]
  simp

variable {es' rest : List Entry} {seq : UInt32} {gs : List (UInt32 × List Entry)}

/-- The records of a group, once the loop is at its sequence number. -/
theorem fileundoLoop_leads (home : Option (List Rune)) {fs : List Entry}
    (hleads : Leads Flip d es d' es') (hd : f.doc = d) (hkey : ∀ e ∈ es, e.seq = seq)
    (hseq : f.seq = seq.toInt32) (hsource : f.source isundo = log (es ++ rest))
    (htarget : f.target isundo = log fs) (hroom : width es + width fs < 2 ^ 32) (fuel : Nat)
    (q : Nat × Nat) :
    ∃ f' q', fileundoLoop home isundo (fuel + es.length) seq f q =
        fileundoLoop home isundo fuel seq f' q' ∧
      f'.doc = d' ∧ f'.source isundo = log rest ∧ f'.target isundo = log (es' ++ fs) ∧
      f'.seq = seq.toInt32 := by
  induction hleads generalizing f fs q with
  | nil d => exact ⟨f, q, rfl, hd, hsource, htarget, hseq⟩
  | @cons d d1 d2 e e' es es' hflip _ ih =>
    obtain rfl : e.seq = seq := hkey e (by simp)
    subst hd
    rw [width_cons] at hroom
    obtain ⟨f1, q1, hturn, hdoc1, hsource1, htarget1, hseq1⟩ := fileundoLoop_cons home
      hflip (Or.inl rfl) hsource htarget (by omega) (fuel + es.length) q
    have hroom1 : width es + width (e' :: fs) < 2 ^ 32 := by
      rw [width_cons, hflip.width_eq]
      omega
    obtain ⟨f2, q2, hrest, hdoc2, hsource2, htarget2, hseq2⟩ :=
      ih hdoc1 (fun e he => hkey e (by simp [he])) hseq1 hsource1 htarget1 hroom1 q1
    refine ⟨f2, q2, hturn.trans hrest, hdoc2, hsource2, ?_, hseq2⟩
    rw [htarget2, append_assoc]
    rfl

/-- The sequence number of the last group in a log, 0 for an empty log. -/
def lastSeq (gs : List (UInt32 × List Entry)) : UInt32 :=
  match gs with
  | [] => 0
  | g :: _ => g.1

/-- The last turn, at the next group or the end of the log. -/
theorem fileundoLoop_stop (hkey : ∀ g ∈ gs, g.2 ≠ [] ∧ ∀ e ∈ g.2, e.seq = g.1)
    (hnext : ∀ g ∈ gs, if isundo then g.1 < seq else seq < g.1) (hpos : 0 < seq)
    (hsource : f.source isundo = log (gs.flatMap Prod.snd)) (fuel : Nat) (q : Nat × Nat) :
    fileundoLoop home isundo (fuel + 1) seq f q =
      some ({ f with seq := if isundo then (lastSeq gs).toInt32 else f.seq }, q) := by
  rcases gs with _ | ⟨⟨seq', es⟩, gs⟩
  · simp only [fileundoLoop, hsource]
    rfl
  obtain ⟨hne, hes⟩ := hkey _ (.head _)
  obtain ⟨e, es, rfl⟩ := exists_cons_of_ne_nil hne
  obtain rfl : e.seq = seq' := hes e (.head _)
  rw [flatMap_cons, cons_append] at hsource
  have hlt := hnext _ (.head _)
  have hne0 : seq ≠ 0 := by
    rintro rfl
    exact UInt32.lt_irrefl _ hpos
  rw [fileundoLoop_log hsource]
  cases isundo
  · simp only [Bool.false_eq_true, if_false] at hlt
    simp [hlt, hne0]
  · simp only [if_true] at hlt
    simp [hlt, lastSeq]

/-- **One call of `fileundo` takes one group**: it changes the document as the group says and leaves
the reverses of its records in the other log. -/
theorem fileundo_group (home : Option (List Rune)) (isundo : Bool) {fs : List Entry}
    (hleads : Leads Flip f.doc es d' es') (hne : es ≠ []) (hes : ∀ e ∈ es, e.seq = seq)
    (hstart : isundo = true → f.seq.toUInt32 = seq)
    (hkey : ∀ g ∈ gs, g.2 ≠ [] ∧ ∀ e ∈ g.2, e.seq = g.1)
    (hnext : ∀ g ∈ gs, if isundo then g.1 < seq else seq < g.1) (hpos : 0 < seq)
    (hsource : f.source isundo = log (es ++ gs.flatMap Prod.snd))
    (htarget : f.target isundo = log fs) (hroom : width es + width fs < 2 ^ 32) (q : Nat × Nat) :
    ∃ f' q', fileundo home f isundo q = some (f', q') ∧ f'.doc = d' ∧
      f'.source isundo = log (gs.flatMap Prod.snd) ∧ f'.target isundo = log (es' ++ fs) ∧
      f'.seq = if isundo then (lastSeq gs).toInt32 else seq.toInt32 := by
  obtain - | @⟨_, d1, _, e, e', es, es', hflip, hrest⟩ := hleads
  · exact absurd rfl hne
  obtain rfl : e.seq = seq := hes e (.head _)
  rw [width_cons] at hroom
  -- the first record settles where to stop
  obtain ⟨fuel, hfuel⟩ : ∃ fuel, (f.source isundo).length + 1 = fuel + 1 + es.length + 1 := by
    have := length_log_le (e :: es ++ gs.flatMap Prod.snd)
    rw [← hsource, length_append, length_cons] at this
    exact ⟨(f.source isundo).length - es.length - 1, by omega⟩
  have hstop : (if isundo = true then f.seq.toUInt32 else 0) = e.seq ∨
      isundo = false ∧ (if isundo = true then f.seq.toUInt32 else 0) = 0 := by
    cases isundo
    · exact Or.inr ⟨rfl, rfl⟩
    · exact Or.inl (hstart rfl)
  obtain ⟨f1, q1, hturn, hdoc1, hsource1, htarget1, hseq1⟩ :=
    fileundoLoop_cons home hflip hstop hsource htarget (by omega) (fuel + 1 + es.length) q
  have hroom1 : width es + width (e' :: fs) < 2 ^ 32 := by
    rw [width_cons, hflip.width_eq]
    omega
  obtain ⟨f2, q2, hturns, hdoc2, hsource2, htarget2, hseq2⟩ := fileundoLoop_leads home
    hrest hdoc1 (fun e he => hes e (.tail _ he)) hseq1 hsource1 htarget1 hroom1 (fuel + 1) q1
  refine ⟨{ f2 with seq := if isundo then (lastSeq gs).toInt32 else f2.seq }, q2, ?_, hdoc2,
    hsource2, ?_, ?_⟩
  · rw [fileundo, hfuel, hturn, hturns, fileundoLoop_stop hkey hnext hpos hsource2]
  · rw [File.target_seq, htarget2, append_assoc]
    rfl
  · simp only [hseq2]

/-- With nothing to take, only the sequence number may change. -/
theorem fileundo_nil (hsource : f.source isundo = []) (q : Nat × Nat) :
    fileundo home f isundo q = some ({ f with seq := if isundo then 0 else f.seq }, q) := by
  simp only [fileundo, fileundoLoop, hsource]
  rfl

/-! ## Histories -/

/-- The calls that change a file. -/
inductive Edit where
  | insert (p0 : Nat) (s : List Rune)
  | delete (p0 p1 : Nat)
  | setname (name : List Rune)

/-- What such a call does. -/
def Edit.run (home : Option (List Rune)) (f : File) : Edit → Option File
  | .insert p0 s => fileinsert f p0 s
  | .delete p0 p1 => filedelete f p0 p1
  | .setname name => filesetname home f name

/-- What an edit does to the document. -/
def Edit.apply (home : Option (List Rune)) (d : Doc) : Edit → Doc
  | .insert p0 s =>
    { d with text := d.text.take p0 ++ s ++ d.text.drop p0, mod := if s ≠ [] then true else d.mod }
  | .delete p0 p1 =>
    { d with text := d.text.take p0 ++ d.text.drop p1, mod := if p1 > p0 then true else d.mod }
  | .setname name =>
    { d with name := if name = [] then [] else contracthome home (expandhome home name) }

/-- The ranges that the calls themselves check. The counters of runes do not wrap. -/
def Edit.Admitted (home : Option (List Rune)) (d : Doc) : Edit → Prop
  | .insert p0 s => p0 ≤ d.text.length ∧ d.text.length + s.length < 2 ^ 32
  | .delete p0 p1 => p0 ≤ p1 ∧ p1 ≤ d.text.length
  | .setname name => (expandhome home name).length < 2 ^ 31 ∧
      (contracthome home (expandhome home name)).length < 2 ^ 31

/-- The runes that an edit takes in the logs, whichever of them it is in. -/
def Edit.weight (home : Option (List Rune)) (d : Doc) (ed : Edit) : Nat :=
  match ed with
  | .insert _ s => s.length + Undosize
  | .delete p0 p1 => p1 - p0 + Undosize
  | .setname _ => max d.name.length (ed.apply home d).name.length + Undosize

/-- The runes that a group of edits takes in the logs. -/
def weightAll (home : Option (List Rune)) : Doc → List Edit → Nat
  | _, [] => 0
  | d, ed :: edits => ed.weight home d + weightAll home (ed.apply home d) edits

/-- Every edit is admitted by the document that those before it leave. -/
def AdmittedAll (home : Option (List Rune)) : Doc → List Edit → Prop
  | _, [] => True
  | d, ed :: edits => ed.Admitted home d ∧ AdmittedAll home (ed.apply home d) edits

/-- A document that fits the counters of a file. -/
def Doc.Small (d : Doc) : Prop := d.text.length < 2 ^ 32 ∧ d.name.length < 2 ^ 31

theorem Edit.small_apply {ed : Edit} (hd : d.Small) (hadm : ed.Admitted home d) :
    (ed.apply home d).Small := by
  obtain ⟨htext, hname⟩ := hd
  cases ed with
  | insert p0 s =>
    refine ⟨?_, hname⟩
    simp only [Admitted] at hadm
    simp only [apply, length_append, length_take, length_drop]
    omega
  | delete p0 p1 =>
    refine ⟨?_, hname⟩
    simp only [Admitted] at hadm
    simp only [apply, length_append, length_take, length_drop]
    omega
  | setname name =>
    refine ⟨htext, ?_⟩
    simp only [apply]
    split_ifs
    · simp
    · exact hadm.2

/-- An edit while there is a sequence number leaves the record that takes it back. -/
theorem Edit.run_spec {ed : Edit} (hd : f.doc.Small) (hadm : ed.Admitted home f.doc)
    (hseq : 0 < f.seq) (hdelta : f.delta = log es)
    (hroom : ed.weight home f.doc + width es < 2 ^ 32) :
    ∃ f' e e', ed.run home f = some f' ∧ f'.doc = ed.apply home f.doc ∧
      f'.delta = log (e :: es) ∧ f'.epsilon = f.epsilon ∧ f'.seq = f.seq ∧
      e.seq = f.seq.toUInt32 ∧ e.change.width = ed.weight home f.doc ∧
      Flip f'.doc e f.doc e' := by
  obtain ⟨htext, -⟩ := hd
  cases ed with
  | insert p0 s =>
    obtain ⟨hp0, hsize⟩ := hadm
    change p0 ≤ f.b.length at hp0
    change f.b.length + s.length < 2 ^ 32 at hsize
    obtain ⟨xs, ys, hb, rfl⟩ : ∃ xs ys, f.b = xs ++ ys ∧ xs.length = p0 :=
      ⟨f.b.take p0, f.b.drop p0, by simp, by simpa using hp0⟩
    rw [weight] at hroom
    have hinsert := bufinsert_append (show (xs ++ s ++ ys).length < 2 ^ 32 by
      rw [hb] at hsize; simp only [length_append] at hsize ⊢; omega)
    rw [← hb] at hinsert
    have hleave := fileuninsert_log f xs.length s.length
      (show width es + Undosize < 2 ^ 32 by omega)
    obtain ⟨m, hm⟩ : ∃ m, m = if s ≠ [] then true else f.mod := ⟨_, rfl⟩
    refine ⟨{ f with b := xs ++ s ++ ys, delta := _, mod := m },
      ⟨.delete xs.length s.length, f.mod, f.seq.toUInt32⟩,
      ⟨.insert xs.length s, m, f.seq.toUInt32⟩, ?_, ?_, rfl, rfl, rfl, rfl, rfl, ?_⟩
    · simp only [run, fileinsert, gt_iff_lt, if_neg (not_lt.mpr hp0), if_pos hseq, hdelta,
        hleave, hinsert, ← hm, Lib.some_bind]
      rfl
    · simp [apply, File.doc, hb, hm]
    · simp only [File.doc, hb]
      refine .delete ?_
      rw [hb] at hsize
      simp only [length_append] at hsize ⊢
      omega
  | delete p0 p1 =>
    obtain ⟨hp0, hp1⟩ := hadm
    change p1 ≤ f.b.length at hp1
    obtain ⟨xs, s, ys, hb, rfl, rfl⟩ : ∃ xs s ys, f.b = xs ++ s ++ ys ∧ xs.length = p0 ∧
        xs.length + s.length = p1 :=
      ⟨f.b.take p0, slice f.b p0 (p1 - p0), f.b.drop p1, by
        have := take_append_slice_append_drop f.b p0 (p1 - p0)
        rw [Nat.add_sub_cancel' hp0] at this
        exact this.symm, by simp; omega, by rw [length_slice (by omega)]; simp; omega⟩
    have hdelete := bufdelete_append xs s ys
    rw [← hb] at hdelete
    rw [weight, Nat.add_sub_cancel_left, add_comm] at hroom
    have hleave := fileundelete_log hb hroom
    obtain ⟨m, hm⟩ : ∃ m, m = if xs.length + s.length > xs.length then true else f.mod := ⟨_, rfl⟩
    refine ⟨{ f with b := xs ++ ys, delta := _, mod := m },
      ⟨.insert xs.length s, f.mod, f.seq.toUInt32⟩,
      ⟨.delete xs.length s.length, m, f.seq.toUInt32⟩, ?_, ?_, rfl, rfl, rfl, rfl,
      by simp only [weight, Change.width, Nat.add_sub_cancel_left], ?_⟩
    · have hrange : ¬¬(xs.length ≤ xs.length + s.length ∧ xs.length ≤ f.b.length ∧
          xs.length + s.length ≤ f.b.length) := not_not.mpr ⟨hp0, by omega, hp1⟩
      simp only [run, filedelete, if_neg hrange, hdelta, hleave, hdelete, if_pos hseq, gt_iff_lt,
        ← hm, Lib.some_bind]
      rfl
    · simp [apply, File.doc, hb, hm]
    · simp only [File.doc, hb]
      exact .insert (hb ▸ htext)
  | setname name =>
    obtain ⟨r, hr⟩ : ∃ r, r = if name = [] then [] else contracthome home (expandhome home name) :=
      ⟨_, rfl⟩
    obtain ⟨er, her⟩ : ∃ er, er = if name = [] then [] else expandhome home name := ⟨_, rfl⟩
    have hweight : (setname name).weight home f.doc = max f.name.length r.length + Undosize := by
      rw [weight, apply, hr]
      rfl
    rw [hweight] at hroom ⊢
    have hleave := fileunsetname_log f r
      (show width es + (f.name.length + Undosize) < 2 ^ 32 by omega)
    refine ⟨{ f with delta := _, name := r, ename := er, unread := true },
      ⟨.name f.name r, f.mod, f.seq.toUInt32⟩, ⟨.name r f.name, f.mod, f.seq.toUInt32⟩, ?_, ?_,
      rfl, rfl, rfl, rfl, rfl, ?_⟩
    · simp only [run, filesetname, hdelta, hleave, gt_iff_lt, if_pos hseq, Lib.some_bind, hr, her]
      split_ifs <;> rfl
    · simp [apply, File.doc, hr]
    · exact .name (show r.length < 2 ^ 32 by omega) (show f.name.length < 2 ^ 32 by omega)

/-- A group of edits leaves records that lead back to where it began. -/
theorem runEdits_spec {d0 : Doc} {edits : List Edit} (hd : f.doc.Small)
    (hadm : AdmittedAll home f.doc edits) (hseq : f.seq = seq.toInt32) (hpos : 0 < f.seq)
    (hdelta : f.delta = log (es ++ rest)) (hleads : Leads Flip f.doc es d0 es')
    (hkey : (∀ e ∈ es, e.seq = seq) ∧ ∀ e ∈ es', e.seq = seq)
    (hroom : weightAll home f.doc edits + width (es ++ rest) < 2 ^ 32) :
    ∃ f' fs fs', edits.foldlM (Edit.run home) f = some f' ∧
      f'.doc = edits.foldl (Edit.apply home) f.doc ∧ f'.doc.Small ∧
      f'.delta = log (fs ++ rest) ∧ f'.epsilon = f.epsilon ∧ f'.seq = seq.toInt32 ∧
      Leads Flip f'.doc fs d0 fs' ∧ fs.length = es.length + edits.length ∧
      width fs = weightAll home f.doc edits + width es ∧
      (∀ e ∈ fs, e.seq = seq) ∧ ∀ e ∈ fs', e.seq = seq := by
  induction edits generalizing f es es' with
  | nil => exact ⟨f, es, es', rfl, rfl, hd, hdelta, rfl, hseq, hleads, rfl, (zero_add _).symm, hkey⟩
  | cons ed edits ih =>
    obtain ⟨hed, hrest⟩ := hadm
    rw [weightAll] at hroom
    obtain ⟨f1, e, e', hrun, hdoc, hdelta1, heps, hseq1, heseq, hwidth, hflip⟩ :=
      Edit.run_spec hd hed hpos hdelta (by omega)
    have heseq' : e.seq = seq := by rw [heseq, hseq, toUInt32_toInt32]
    obtain ⟨f', fs, fs', hfold, hdoc', hsmall, hdelta', heps', hseq', hleads', hlen, hwidth',
      hkey'⟩ :=
      ih (f := f1) (hdoc ▸ Edit.small_apply hd hed) (hdoc ▸ hrest) (hseq1.trans hseq)
        (hseq1 ▸ hpos) hdelta1 (.cons hflip hleads)
        ⟨forall_mem_cons.mpr ⟨heseq', hkey.1⟩,
          forall_mem_append.mpr ⟨hkey.2, by simp [hflip.seq_eq, heseq']⟩⟩
        (by rw [hdoc, cons_append, width_cons, hwidth]; omega)
    refine ⟨f', fs, fs', ?_, ?_, hsmall, hdelta', heps'.trans heps, hseq', hleads', ?_, ?_, hkey'⟩
    · rw [foldlM_cons, hrun]
      exact hfold
    · rw [hdoc', hdoc, foldl_cons]
    · rw [hlen, length_cons, length_cons]
      omega
    · rw [hwidth', hdoc, width_cons, hwidth, weightAll]
      omega

/-- What a user does. -/
inductive Action where
  /-- `filemark` with this global sequence number, then the edits. -/
  | group (seq : UInt32) (edits : List Edit)
  | undo
  | redo

/-- What it does to the file. -/
def Action.run (home : Option (List Rune)) (f : File) : Action → Option File
  | .group seq edits => edits.foldlM (Edit.run home) (filemark f seq)
  | .undo => (fileundo home f true (0, 0)).map Prod.fst
  | .redo => (fileundo home f false (0, 0)).map Prod.fst

/-- What some actions do in turn. -/
def run (home : Option (List Rune)) (f : File) (acts : List Action) : Option File :=
  acts.foldlM (Action.run home) f

/-- What an action does to the history. -/
def Action.step (home : Option (List Rune)) (t : Timeline Doc) : Action → Timeline Doc
  | .group _ edits => t.commit (edits.foldl (Edit.apply home) t.present)
  | .undo => t.undo
  | .redo => t.redo

/-- Each group has an edit at least, admitted edits only, and a sequence number past those before,
which are up to `last`. A file's sequence number is a signed integer. The records of all edits,
those before taking `used` runes, are fewer runes than the counter of a log can count. -/
def Allowed (home : Option (List Rune)) : Nat → Nat → Timeline Doc → List Action → Prop
  | _, _, _, [] => True
  | last, used, t, .group seq edits :: acts =>
    last < seq.toNat ∧ seq.toNat < 2 ^ 31 ∧ edits ≠ [] ∧ AdmittedAll home t.present edits ∧
      used + weightAll home t.present edits < 2 ^ 32 ∧
      Allowed home seq.toNat (used + weightAll home t.present edits)
        (Action.step home t (.group seq edits)) acts
  | last, used, t, .undo :: acts => Allowed home last used t.undo acts
  | last, used, t, .redo :: acts => Allowed home last used t.redo acts

/-! ## Runs -/

theorem pos_toInt32 (h : 0 < seq.toNat) (h' : seq.toNat < 2 ^ 31) : 0 < seq.toInt32 := by
  have hint : seq.toInt32.toInt = seq.toBitVec.toInt := rfl
  rw [Int32.lt_iff_toInt_lt, hint, BitVec.toInt_eq_toNat_cond, toNat_toBitVec, if_pos (by omega)]
  simpa using h

/-- The logs of `f` hold the groups `ps` and `fs`, which move along the timeline `t`. -/
structure Tracks (t : Timeline Doc) (last used : Nat) (f : File)
    (ps fs : List (UInt32 × List Entry)) : Prop where
  doc : f.doc = t.present
  small : ∀ d ∈ t.docs, d.Small
  represents : Timeline.Represents Flip Entry.seq t ps fs
  delta : f.delta = log (ps.flatMap Prod.snd)
  epsilon : f.epsilon = log (fs.flatMap Prod.snd)
  pos : ∀ g ∈ ps ++ fs, 0 < g.1 ∧ g.1.toNat ≤ last
  seq : ps ≠ [] → f.seq.toUInt32 = lastSeq ps
  room : width (ps.flatMap Prod.snd) + width (fs.flatMap Prod.snd) ≤ used
  used_lt : used < 2 ^ 32

/-- A file without logs is at the only point of its history. -/
theorem Tracks.start (hdelta : f.delta = []) (hepsilon : f.epsilon = []) (hsmall : f.doc.Small) :
    Tracks ⟨[], f.doc, []⟩ 0 0 f [] [] :=
  ⟨rfl, fun d hd => by rw [mem_singleton.mp hd]; exact hsmall,
    ⟨.nil _, .nil _, Pairwise.nil⟩, hdelta, hepsilon, by simp, fun h => absurd rfl h, le_rfl,
    by decide⟩

theorem width_leads (h : Leads Flip d es d' es') : width es' = width es := by
  induction h with
  | nil => rfl
  | cons hflip _ ih =>
    rw [width_append, width_cons, width_cons, ih, hflip.width_eq]
    exact add_comm _ _

variable {t : Timeline Doc} {last used : Nat} {ps fs : List (UInt32 × List Entry)}

section

variable (h : Tracks t last used f ps fs)
include h

theorem Tracks.small_doc : f.doc.Small := h.small _ (by rw [h.doc, docs]; simp)

theorem Tracks.group {edits : List Edit} (hlast : last < seq.toNat) (hsigned : seq.toNat < 2 ^ 31)
    (hne : edits ≠ []) (hadm : AdmittedAll home t.present edits)
    (hroom : used + weightAll home t.present edits < 2 ^ 32) :
    ∃ f' ps', Action.run home f (.group seq edits) = some f' ∧
      Tracks (Action.step home t (.group seq edits)) seq.toNat
        (used + weightAll home t.present edits) f' ps' [] := by
  have hseq : 0 < seq.toInt32 := pos_toInt32 (by omega) hsigned
  have hlog : (filemark f seq).delta = log ([] ++ ps.flatMap Prod.snd) := h.delta
  have hused := h.room
  have hpresent : (filemark f seq).doc = t.present := h.doc
  obtain ⟨f', es, es', hrun, hdoc, hsmall, hdelta, heps, hseq', hleads, hlen, hwidth, hkey,
      hkey'⟩ :=
    runEdits_spec (f := filemark f seq) h.small_doc (h.doc ▸ hadm) rfl hseq hlog (.nil _)
      ⟨by simp, by simp⟩ (by rw [hpresent, nil_append]; omega)
  have hlen' : es ≠ [] := by
    rintro rfl
    exact hne (length_eq_zero_iff.mp (by simpa using hlen.symm))
  have hdoc' : f'.doc = edits.foldl (Edit.apply home) t.present := by
    rw [hdoc, ← h.doc]
    rfl
  refine ⟨f', (seq, es) :: ps, hrun, ⟨hdoc', ?_, ?_, hdelta, heps, ?_, fun _ => ?_, ?_, hroom⟩⟩
  · intro d hd
    simp only [Action.step, commit, docs, reverse_cons, append_assoc,
      mem_append, mem_reverse, mem_cons, not_mem_nil, or_false] at hd
    rcases hd with hd | rfl | rfl
    · exact h.small d (by simp [docs, hd])
    · exact h.small _ (by simp [docs])
    · exact hdoc' ▸ hsmall
  · refine h.represents.commit hlen' hkey hkey' ?_ fun g hg => ?_
    · rw [← hdoc', ← h.doc]
      exact hleads
    · have := (h.pos g (mem_append_left _ hg)).2
      exact lt_iff_toNat_lt.mpr (by omega)
  · rw [append_nil]
    refine forall_mem_cons.mpr ⟨⟨lt_iff_toNat_lt.mpr (by simp; omega), le_refl _⟩, ?_⟩
    intro g hg
    obtain ⟨hpos, hle⟩ := h.pos g (mem_append_left _ hg)
    exact ⟨hpos, by omega⟩
  · rw [hseq', toUInt32_toInt32]
    rfl
  · rw [flatMap_cons, width_append, hwidth, hpresent]
    simp only [width, map_nil, sum_nil, flatMap_nil] at hused ⊢
    omega

theorem Tracks.undo :
    ∃ f' ps' fs', Action.run home f .undo = some f' ∧ Tracks t.undo last used f' ps' fs' := by
  rcases ps with _ | ⟨⟨seq, es⟩, ps⟩
  · rw [h.represents.undo_of_nil]
    refine ⟨{ f with seq := 0 }, [], fs, ?_, ⟨h.doc, h.small, h.represents, h.delta, h.epsilon,
      h.pos, fun hne => absurd rfl hne, h.room, h.used_lt⟩⟩
    have hsource : f.source true = [] := h.delta
    rw [Action.run, fileundo_nil hsource]
    rfl
  · obtain ⟨hne, hkey, es', hleads, hrep⟩ := h.represents.undo Flip.symm
    have hlt := h.represents.lt_of_mem_past
    have hused := h.used_lt
    have hwidth := width_leads hleads
    have hroom : width es + width (ps.flatMap Prod.snd) + width (fs.flatMap Prod.snd) ≤ used := by
      simpa using h.room
    rw [← h.doc] at hleads
    obtain ⟨f', q', hrun, hdoc, hsource, htarget, hseq⟩ := fileundo_group home true
      hleads hne hkey (fun _ => h.seq (cons_ne_nil _ _)) hrep.past.keys hlt
      (h.pos _ (.head _)).1 h.delta h.epsilon (by omega) (0, 0)
    refine ⟨f', ps, (seq, es') :: fs, by rw [Action.run, hrun]; rfl, ⟨hdoc, ?_, hrep, hsource,
      htarget, fun g hg => ?_, fun _ => ?_, ?_, hused⟩⟩
    · rw [docs_undo]
      exact h.small
    · simp only [mem_append, mem_cons] at hg
      rcases hg with hg | rfl | hg
      · exact h.pos g (by simp [hg])
      · exact h.pos (seq, es) (.head _)
      · exact h.pos g (by simp [hg])
    · rw [hseq, if_pos rfl, toUInt32_toInt32]
    · rw [flatMap_cons, width_append, hwidth]
      omega

theorem Tracks.redo :
    ∃ f' ps' fs', Action.run home f .redo = some f' ∧ Tracks t.redo last used f' ps' fs' := by
  rcases fs with _ | ⟨⟨seq, es⟩, fs⟩
  · rw [h.represents.redo_of_nil]
    have hsource : f.source false = [] := h.epsilon
    refine ⟨f, ps, [], ?_, h⟩
    rw [Action.run, fileundo_nil hsource]
    rfl
  · obtain ⟨hne, hkey, es', hleads, hrep⟩ := h.represents.redo Flip.symm
    have hlt := h.represents.lt_of_mem_future
    have hused := h.used_lt
    have hwidth := width_leads hleads
    have hroom : width (ps.flatMap Prod.snd) + (width es + width (fs.flatMap Prod.snd)) ≤ used := by
      simpa using h.room
    rw [← h.doc] at hleads
    obtain ⟨f', q', hrun, hdoc, hsource, htarget, hseq⟩ := fileundo_group home false
      hleads hne hkey (fun h => by cases h) hrep.future.keys hlt
      (h.pos _ (mem_append_right _ (.head _))).1 h.epsilon h.delta (by omega) (0, 0)
    refine ⟨f', (seq, es') :: ps, fs, by rw [Action.run, hrun]; rfl, ⟨hdoc, ?_, hrep, htarget,
      hsource, fun g hg => ?_, fun _ => ?_, ?_, hused⟩⟩
    · rw [docs_redo]
      exact h.small
    · simp only [cons_append, mem_append, mem_cons] at hg
      rcases hg with rfl | hg | hg
      · exact h.pos (seq, es) (by simp)
      · exact h.pos g (by simp [hg])
      · exact h.pos g (by simp [hg])
    · rw [hseq]
      exact toUInt32_toInt32 seq
    · rw [flatMap_cons, width_append, hwidth]
      omega

/-- Every allowed run keeps to its timeline. -/
theorem Tracks.run {acts : List Action} (hacts : Allowed home last used t acts) :
    ∃ f' last' used' ps' fs', Acme.run home f acts = some f' ∧
      Tracks (acts.foldl (Action.step home) t) last' used' f' ps' fs' := by
  induction acts generalizing t last used f ps fs with
  | nil => exact ⟨f, last, used, ps, fs, rfl, h⟩
  | cons a acts ih =>
    obtain ⟨f1, last1, used1, ps1, fs1, hrun, h1, hrest⟩ : ∃ f1 last1 used1 ps1 fs1,
        Action.run home f a = some f1 ∧ Tracks (Action.step home t a) last1 used1 f1 ps1 fs1 ∧
        Allowed home last1 used1 (Action.step home t a) acts := by
      cases a with
      | group seq edits =>
        obtain ⟨hlast, hsigned, hne, hadm, hroom, hrest⟩ := hacts
        obtain ⟨f1, ps1, hrun, h1⟩ := h.group hlast hsigned hne hadm hroom
        exact ⟨f1, _, _, ps1, [], hrun, h1, hrest⟩
      | undo =>
        obtain ⟨f1, ps1, fs1, hrun, h1⟩ := h.undo
        exact ⟨f1, _, _, ps1, fs1, hrun, h1, hacts⟩
      | redo =>
        obtain ⟨f1, ps1, fs1, hrun, h1⟩ := h.redo
        exact ⟨f1, _, _, ps1, fs1, hrun, h1, hacts⟩
    obtain ⟨f', last', used', ps', fs', hrun', h'⟩ := ih h1 hrest
    refine ⟨f', last', used', ps', fs', ?_, h'⟩
    rw [Acme.run, foldlM_cons, hrun]
    exact hrun'

end

theorem allowed_undo_redo (home : Option (List Rune)) (last used : Nat) (t : Timeline Doc)
    (m n : Nat) : Allowed home last used t (replicate m .undo ++ replicate n .redo) := by
  induction m generalizing t with
  | zero =>
    induction n generalizing t with
    | zero => trivial
    | succ n ih => exact ih t.redo
  | succ m ih => exact ih t.undo

theorem foldl_step_replicate (home : Option (List Rune)) (t : Timeline Doc) (n : Nat) (a : Action) :
    (replicate n a).foldl (Action.step home) t = (Action.step home · a)^[n] t := by
  induction n generalizing t with
  | zero => rfl
  | succ n ih => exact ih _

/-- **Undo and redo move along one history.** A file without a log, and any run of groups of edits,
undos and redos: all calls succeed, text, name and modify bit are those of the timeline, and as many
redos as undos lead back. -/
theorem run_timeline {home : Option (List Rune)} {f : File} {acts : List Action}
    (hdelta : f.delta = []) (hepsilon : f.epsilon = []) (hsmall : f.doc.Small)
    (hacts : Allowed home 0 0 ⟨[], f.doc, []⟩ acts) :
    let t := acts.foldl (Action.step home) ⟨[], f.doc, []⟩
    ∃ f', run home f acts = some f' ∧ f'.doc = t.present ∧
      ∀ k ≤ t.past.length, ∃ f'',
        run home f' (List.replicate k .undo ++ List.replicate k .redo) = some f'' ∧
          f''.doc = f'.doc := by
  intro t
  obtain ⟨f', last', used', ps', fs', hrun, h'⟩ := (Tracks.start hdelta hepsilon hsmall).run hacts
  refine ⟨f', hrun, h'.doc, fun k hk => ?_⟩
  obtain ⟨f'', _, _, _, _, hrun', h''⟩ := h'.run (allowed_undo_redo home last' used' t k k)
  refine ⟨f'', hrun', ?_⟩
  rw [h''.doc, h'.doc, foldl_append, foldl_step_replicate, foldl_step_replicate]
  exact congrArg present (redo_iterate_undo_iterate hk)

/-- A new file. -/
def File.empty : File := ⟨[], [], [], [], [], false, 0, false⟩

/-- Typing a rune, and taking it back. -/
theorem run_timeline_one :
    ∃ f', run none File.empty [.group 1 [.insert 0 [0x61]], .undo] = some f' ∧
      f'.doc = ⟨[], [], false⟩ := by
  have hacts : Allowed none 0 0 ⟨[], File.empty.doc, []⟩ [.group 1 [.insert 0 [0x61]], .undo] :=
    ⟨by decide, by decide, by decide, ⟨⟨by decide, by decide⟩, trivial⟩, by decide, trivial⟩
  obtain ⟨f', hrun, hdoc, -⟩ := run_timeline rfl rfl ⟨by decide, by decide⟩ hacts
  exact ⟨f', hrun, hdoc⟩

/-- With a sequence number that is negative as a signed integer nothing is recorded, and the rune
stays. -/
theorem undo_lost :
    (run none File.empty [.group 0x80000000 [.insert 0 [0x61]], .undo]).map File.doc =
      some ⟨[0x61], [], true⟩ := by
  decide

/-! ## The two names -/

theorem drop_homeskip {arg : List Rune} (h : homeskip arg ≠ 0) :
    arg.drop (homeskip arg) = [] ∨ ∃ rest, arg.drop (homeskip arg) = 0x2f :: rest := by
  have key {n : Nat} (h : arg.length = n ∨ arg[n]? = some 0x2f) :
      arg.drop n = [] ∨ ∃ rest, arg.drop n = 0x2f :: rest := by
    rcases h with h | h
    · exact .inl (by simp [h])
    · obtain ⟨hlt, hget⟩ := List.getElem?_eq_some_iff.mp h
      exact .inr ⟨_, hget ▸ List.drop_eq_getElem_cons hlt⟩
  unfold homeskip at h ⊢
  split_ifs at h ⊢ with h1 h5
  · exact key h1.2
  · exact key h5.2.2.2.2.2.2
  · exact absurd rfl h

variable (h : List Rune) {q : Nat × Nat}

theorem contracthome_append (rest : List Rune) :
    contracthome (some h) (h ++ 0x2f :: rest) = 0x7e :: 0x2f :: rest := by
  simp [contracthome]

theorem expandhome_contracthome_append (rest : List Rune) :
    expandhome (some h) (contracthome (some h) (h ++ 0x2f :: rest)) = h ++ 0x2f :: rest := by
  simp [contracthome_append, expandhome, homeskip]

theorem expandhome_contracthome {x : List Rune} (hne : expandhome (some h) x ≠ h) :
    expandhome (some h) (contracthome (some h) (expandhome (some h) x)) =
      expandhome (some h) x := by
  by_cases hskip : homeskip x = 0
  · simp only [expandhome, if_pos hskip] at hne ⊢
    by_cases hm : ∃ rest, x = h ++ 0x2f :: rest
    · obtain ⟨rest, rfl⟩ := hm
      exact expandhome_contracthome_append h rest
    have hx : contracthome (some h) x = x := by
      refine if_neg fun ⟨hle, htake, hnext⟩ => ?_
      have happ := List.take_append_drop h.length x
      rw [htake] at happ
      rcases hnext with hlen | hnext
      · exact hne (by rw [← happ, List.drop_of_length_le (by omega), List.append_nil])
      · obtain ⟨hlt, hget⟩ := List.getElem?_eq_some_iff.mp hnext
        exact hm ⟨_, by rw [← hget, ← List.drop_eq_getElem_cons hlt, happ]⟩
    rw [hx, if_pos hskip]
  · have hx : expandhome (some h) x = h ++ x.drop (homeskip x) := by simp [expandhome, hskip]
    rw [hx] at hne ⊢
    rcases drop_homeskip hskip with hnil | ⟨rest, hrest⟩
    · exact absurd (by rw [hnil, List.append_nil]) hne
    · rw [hrest]
      exact expandhome_contracthome_append h rest

theorem filerecalcenname_eq (home : Option (List Rune)) (name : List Rune) :
    filerecalcenname home name = expandhome home name := by
  rw [filerecalcenname]
  split_ifs with hnil
  · rw [hnil]; rfl
  · rfl

/-- The shown name stands for the external one. -/
def File.Named (home : Option (List Rune)) (f : File) : Prop :=
  expandhome home f.name = f.ename

variable {r : File × Nat × Nat}

theorem fileundoRecord_named {u : Undo} {up : Nat} (hf : f.Named home)
    (hr : fileundoRecord home isundo f u up q = some r) : r.1.Named home := by
  rw [fileundoRecord] at hr
  split at hr
  · -- `Delete` and `Insert` leave the names alone
    simp only [bind_eq_bind, bind_eq_some_iff, some.injEq] at hr
    obtain ⟨-, -, -, -, -, -, rfl⟩ := hr
    cases isundo <;> exact hf
  · simp only [bind_eq_bind, bind_eq_some_iff, some.injEq] at hr
    obtain ⟨-, -, -, -, -, -, -, -, rfl⟩ := hr
    cases isundo <;> exact hf
  · simp only [bind_eq_bind, bind_eq_some_iff, some.injEq] at hr
    obtain ⟨-, -, -, -, name, -, -, -, rfl⟩ := hr
    cases isundo <;> exact (filerecalcenname_eq home name).symm
  · cases hr

theorem fileundoLoop_named {fuel : Nat} (hf : f.Named home)
    (hr : fileundoLoop home isundo fuel stop f q = some r) : r.1.Named home := by
  induction fuel generalizing stop f q with
  | zero => cases hr
  | succ fuel ih =>
    rw [fileundoLoop] at hr
    split at hr
    · cases hr
      exact hf
    simp only [bind_eq_bind, bind_eq_some_iff] at hr
    obtain ⟨up, -, w, -, u, -, hr⟩ := hr
    generalize (if ¬isundo ∧ stop = 0 then u.seq else stop) = stop at hr
    split_ifs at hr
    · cases hr
      exact hf
    · cases hr
      exact hf
    · obtain ⟨r', hr', hr⟩ := bind_eq_some_iff.mp hr
      exact ih (fileundoRecord_named hf hr') hr

theorem fileundo_named {f' : File} (hf : f.Named home)
    (hrun : (fileundo home f isundo q).map Prod.fst = some f') : f'.Named home := by
  obtain ⟨r, hr, rfl⟩ := map_eq_some_iff.mp hrun
  exact fileundoLoop_named hf hr

/-- An undo and a redo leave the names of a file as they were, if its logs hold a history with
something to undo. -/
def File.RoundTrips (home : Option (List Rune)) (f : File) : Prop :=
  ∀ t last used ps fs, Tracks t last used f ps fs → ps ≠ [] →
    ∃ f₂, run home f [.undo, .redo] = some f₂ ∧ f₂.name = f.name ∧ f₂.ename = f.ename

theorem File.Named.roundTrips (hf : f.Named home) : f.RoundTrips home := by
  intro t last used ps fs h hps
  obtain ⟨f₁, ps₁, fs₁, hrun₁, h₁⟩ : ∃ f₁ ps₁ fs₁, Action.run home f .undo = some f₁ ∧
    Tracks t.undo last used f₁ ps₁ fs₁ := h.undo
  obtain ⟨f₂, ps₂, fs₂, hrun₂, h₂⟩ : ∃ f₂ ps₂ fs₂, Action.run home f₁ .redo = some f₂ ∧
    Tracks t.undo.redo last used f₂ ps₂ fs₂ := h₁.redo
  have hpast : t.past ≠ [] := by
    intro hnil
    have hvisits := h.represents.past
    rw [hnil] at hvisits
    cases hvisits
    exact hps rfl
  have hdoc : f₂.doc = f.doc := by
    rw [h₂.doc, redo_undo hpast, h.doc]
  have hname : f₂.name = f.name := congrArg Doc.name hdoc
  have hnamed : f₂.Named home := fileundo_named (fileundo_named hf hrun₁) hrun₂
  refine ⟨f₂, ?_, hname, ?_⟩
  · simp only [run, foldlM_cons, foldlM_nil, hrun₁, hrun₂, bind_eq_bind, bind_some]
    rfl
  · rw [← hnamed, hname]
    exact hf

/-- The name `x` has a shown name that stands for it: it is not the home directory itself. Without a
home directory the shown name is all zeroes, and so is `x`. -/
def Shows (home : Option (List Rune)) (x : List Rune) : Prop :=
  match home with
  | none => ∀ r ∈ x, r = 0
  | some h => expandhome (some h) x ≠ h

theorem expandhome_contracthome_iff (home : Option (List Rune)) (x : List Rune) :
    expandhome home (contracthome home (expandhome home x)) = expandhome home x ↔
      Shows home x := by
  cases home with
  | none =>
    have hnone : ∀ y, expandhome none y = y := fun y => by
      rw [expandhome, ite_self]
    rw [hnone, hnone, contracthome, Shows, eq_comm, eq_replicate_iff]
    exact and_iff_right rfl
  | some h =>
    refine ⟨fun heq hhome => ?_, expandhome_contracthome h⟩
    -- the home directory is shown as `~/`
    have hshown : expandhome (some h) (contracthome (some h) h) = h ++ [0x2f] := by
      simp [contracthome, expandhome, homeskip]
    rw [hhome, hshown] at heq
    simpa using congrArg length heq

/-- **The shown name and the external name**: setting a name that shows sets the external name to
the expanded one, the shown name stands for it, and an undo with a redo changes neither; and no
other name does. -/
theorem filesetname_names (home : Option (List Rune)) {f : File} {x : List Rune} (hx : x ≠ [])
    (hroom : f.delta.length + f.name.length + Undosize < 2 ^ 32) :
    (∃ f', filesetname home f x = some f' ∧ f'.ename = expandhome home x ∧
      expandhome home f'.name = f'.ename ∧ f'.RoundTrips home) ↔ Shows home x := by
  obtain ⟨delta, hdelta⟩ : ∃ delta,
      (if f.seq > 0 then fileunsetname f f.delta else some f.delta) = some delta := by
    unfold fileunsetname
    split_ifs
    · rw [bufinsert_end (by omega)]
      exact ⟨_, bufinsert_end (by rw [length_append, Undo.length_pack]; omega)⟩
    · exact ⟨_, bufinsert_end (by rw [Undo.length_pack]; omega)⟩
    · exact ⟨_, rfl⟩
  have hset : filesetname home f x = some { f with
      delta, name := contracthome home (expandhome home x), ename := expandhome home x,
      unread := true } := by
    rw [filesetname, hdelta]
    exact if_neg hx
  rw [← expandhome_contracthome_iff]
  constructor
  · rintro ⟨f', hset', -, hname, -⟩
    obtain rfl := some.inj (hset.symm.trans hset')
    exact hname
  · intro hback
    exact ⟨_, hset, rfl, hback, File.Named.roundTrips hback⟩

theorem filesetname_names_tilde :
    ∃ f', filesetname (some [0x2f]) (filemark .empty 1) [0x7e, 0x2f] = some f' ∧
      f'.ename = [0x2f, 0x2f] ∧ expandhome (some [0x2f]) f'.name = f'.ename ∧
      f'.RoundTrips (some [0x2f]) :=
  (filesetname_names (some [0x2f]) (by decide) (by decide)).mpr
    (show expandhome (some [0x2f]) [0x7e, 0x2f] ≠ [0x2f] by decide)

/-- The home directory itself is shown as `~/`, which stands for another path; and without a home
directory the shown name is not set. -/
theorem filesetname_home :
    (filesetname (some [0x2f]) .empty [0x2f]).map (fun f => (f.name, f.ename)) =
      some ([0x7e, 0x2f], [0x2f]) ∧
    expandhome (some [0x2f]) [0x7e, 0x2f] = [0x2f, 0x2f] ∧
    (filesetname none .empty [0x61]).map (fun f => (f.name, f.ename)) = some ([0], [0x61]) ∧
    expandhome none [0] ≠ [0x61] := by
  decide

end Plan9Port.Acme
