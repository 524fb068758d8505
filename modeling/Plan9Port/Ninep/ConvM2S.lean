import Plan9Port.Ninep.Wire

/-!
# Unpacking a message

`lib9/convM2S.c`. The unpacking cursor is the memory with the address `p` of the next byte and the
`Fcall` being filled in; `return 0`, and a `nil` from `gstring` or `gqid`, is failure. `gstring`
moves each string down over the second byte of its length, so unpacking changes the buffer.

## Main results

* `bodyM2S_sound`: a successful switch has passed over the layout of what it filled in
* `bodyM2S_complete`: the switch succeeds on every layout
-/

namespace Plan9Port.Ninep

open Memory LittleEndian MsgType
open List (length_append append_nil append_assoc mem_singleton mem_append length_singleton)

/-! ## The code -/

/-- The unpacking cursor: memory, the pointer `p`, and the message. -/
structure Unpacker where
  mem : Mem
  p : Nat
  f : Fcall

/-- The statements of `convM2S`; failing is `return 0`. -/
abbrev M2S := EStateM Unit Unpacker

/-- `if(p+n > ep) return 0`. -/
def need (ep n : Nat) : M2S Unit := fun w =>
  if w.p + n > ep then .error () w else .ok () w

/-- `GBIT8(p); p += BIT8SZ`. -/
def get8 : M2S UInt8 := fun w =>
  .ok (.ofNat (gbit8 w.mem w.p)) { w with p := w.p + BIT8SZ }

/-- `GBIT16(p); p += BIT16SZ`. -/
def get16 : M2S UInt16 := fun w =>
  .ok (.ofNat (gbit16 w.mem w.p)) { w with p := w.p + BIT16SZ }

/-- `GBIT32(p); p += BIT32SZ`. -/
def get32 : M2S UInt32 := fun w =>
  .ok (.ofNat (gbit32 w.mem w.p)) { w with p := w.p + BIT32SZ }

/-- `GBIT64(p); p += BIT64SZ`. -/
def get64 : M2S UInt64 := fun w =>
  .ok (.ofNat (gbit64 w.mem w.p)) { w with p := w.p + BIT64SZ }

/-- An assignment to a field of `f`. -/
def setf (g : Fcall → Fcall) : M2S Unit := fun w =>
  .ok () { w with f := g w.f }

/-- The pointer `p`, which is then advanced over `n` bytes of data. -/
def skip (n : Nat) : M2S Nat := fun w =>
  .ok w.p { w with p := w.p + n }

/-- Moves the string of `n` bytes at `p` down, on top of its count, to make room for the NUL. -/
def movedown (n : Nat) : M2S Nat := fun w =>
  let p := w.p + (BIT16SZ - 1)
  let mem := memmove w.mem p (p + 1) n
  .ok p { w with mem := patch mem (p + n) [0], p := p + n + 1 }

/-- A string is unpacked in place. -/
def gstring (ep : Nat) : M2S Nat := do
  need ep BIT16SZ
  let n := gbit16 (← get).mem (← get).p
  need ep (BIT16SZ - 1 + n + 1)
  movedown n

/-- A qid. -/
def gqid (ep : Nat) : M2S Qid := do
  need ep QIDSZ
  let type ← get8
  let vers ← get32
  let path ← get64
  pure { type := type, vers := vers.toUInt64, path := path }

/-- The switch of `convM2S`. -/
def bodyM2S (ep : Nat) : MsgType → M2S Unit
  | .tversion | .rversion => do
    need ep BIT32SZ
    let msize ← get32
    setf fun f => { f with msize := msize }
    let version ← gstring ep
    setf fun f => { f with version := version }
  | .tflush => do
    need ep BIT16SZ
    let oldtag ← get16
    setf fun f => { f with oldtag := oldtag }
  | .tauth => do
    need ep BIT32SZ
    let afid ← get32
    setf fun f => { f with afid := afid }
    let uname ← gstring ep
    setf fun f => { f with uname := uname }
    let aname ← gstring ep
    setf fun f => { f with aname := aname }
    setf fun f => { f with uidnum := NOUID }
  | .tattach => do
    need ep BIT32SZ
    let fid ← get32
    setf fun f => { f with fid := fid }
    need ep BIT32SZ
    let afid ← get32
    setf fun f => { f with afid := afid }
    let uname ← gstring ep
    setf fun f => { f with uname := uname }
    let aname ← gstring ep
    setf fun f => { f with aname := aname }
    setf fun f => { f with uidnum := NOUID }
  | .twalk => do
    need ep (BIT32SZ + BIT32SZ + BIT16SZ)
    let fid ← get32
    setf fun f => { f with fid := fid }
    let newfid ← get32
    setf fun f => { f with newfid := newfid }
    let nwname ← get16
    setf fun f => { f with nwname := nwname }
    if nwname.toNat > MAXWELEM then throw ()
    else (List.range nwname.toNat).forM fun i => do
      let s ← gstring ep
      setf fun f => { f with wname := f.wname.setIfInBounds i s }
  | .topen | .topenfd => do
    need ep (BIT32SZ + BIT8SZ)
    let fid ← get32
    setf fun f => { f with fid := fid }
    let mode ← get8
    setf fun f => { f with mode := mode }
  | .tcreate => do
    need ep BIT32SZ
    let fid ← get32
    setf fun f => { f with fid := fid }
    let name ← gstring ep
    setf fun f => { f with name := name }
    need ep (BIT32SZ + BIT8SZ)
    let perm ← get32
    setf fun f => { f with perm := perm }
    let mode ← get8
    setf fun f => { f with mode := mode }
  | .tread => do
    need ep (BIT32SZ + BIT64SZ + BIT32SZ)
    let fid ← get32
    setf fun f => { f with fid := fid }
    let offset ← get64
    setf fun f => { f with offset := offset.toInt64 }
    let count ← get32
    setf fun f => { f with count := count }
  | .twrite => do
    need ep (BIT32SZ + BIT64SZ + BIT32SZ)
    let fid ← get32
    setf fun f => { f with fid := fid }
    let offset ← get64
    setf fun f => { f with offset := offset.toInt64 }
    let count ← get32
    setf fun f => { f with count := count }
    need ep count.toNat
    let data ← skip count.toNat
    setf fun f => { f with data := data }
  | .tclunk | .tremove | .tstat => do
    need ep BIT32SZ
    let fid ← get32
    setf fun f => { f with fid := fid }
  | .twstat => do
    need ep (BIT32SZ + BIT16SZ)
    let fid ← get32
    setf fun f => { f with fid := fid }
    let nstat ← get16
    setf fun f => { f with nstat := nstat }
    need ep nstat.toNat
    let stat ← skip nstat.toNat
    setf fun f => { f with stat := stat }
  | .rerror => do
    -- cleared whether or not the string can be read
    setf fun f => { f with errornum := 0 }
    let ename ← gstring ep
    setf fun f => { f with ename := ename }
  | .rflush => pure ()
  | .rauth => do
    let aqid ← gqid ep
    setf fun f => { f with aqid := aqid }
  | .rattach => do
    let qid ← gqid ep
    setf fun f => { f with qid := qid }
  | .rwalk => do
    need ep BIT16SZ
    let nwqid ← get16
    setf fun f => { f with nwqid := nwqid }
    if nwqid.toNat > MAXWELEM then throw ()
    else (List.range nwqid.toNat).forM fun i => do
      let q ← gqid ep
      setf fun f => { f with wqid := f.wqid.setIfInBounds i q }
  | .ropen | .rcreate => do
    let qid ← gqid ep
    setf fun f => { f with qid := qid }
    need ep BIT32SZ
    let iounit ← get32
    setf fun f => { f with iounit := iounit }
  | .ropenfd => do
    let qid ← gqid ep
    setf fun f => { f with qid := qid }
    need ep BIT32SZ
    let iounit ← get32
    setf fun f => { f with iounit := iounit }
    need ep BIT32SZ
    let unixfd ← get32
    setf fun f => { f with unixfd := unixfd.toInt32 }
  | .rread => do
    need ep BIT32SZ
    let count ← get32
    setf fun f => { f with count := count }
    need ep count.toNat
    let data ← skip count.toNat
    setf fun f => { f with data := data }
  | .rwrite => do
    need ep BIT32SZ
    let count ← get32
    setf fun f => { f with count := count }
  | .rclunk | .rremove => pure ()
  | .rstat => do
    need ep BIT16SZ
    let nstat ← get16
    setf fun f => { f with nstat := nstat }
    need ep nstat.toNat
    let stat ← skip nstat.toNat
    setf fun f => { f with stat := stat }
  | .rwstat => pure ()

/-- The statements of `convM2S` after the size: the type, the tag and the switch. -/
def afterSize (ep : Nat) : M2S Unit := do
  let type ← get8
  setf fun f => { f with type := type }
  let tag ← get16
  setf fun f => { f with tag := tag }
  match MsgType.ofCode type with
  | none => throw ()
  | some t => bodyM2S ep t

/-- Unpacks the `nap` bytes at `ap` into `f`: the size, or 0 for failure, with the message and the
memory left. -/
def convM2S (m : Mem) (ap nap : Nat) (f : Fcall) : Nat × Fcall × Mem :=
  let ep := ap + nap
  if ap + BIT32SZ + BIT8SZ + BIT16SZ > ep then (0, f, m)
  else
    let size := gbit32 m ap
    if size < BIT32SZ + BIT8SZ + BIT16SZ then (0, f, m)
    else
      match (afterSize ep).run ⟨m, ap + BIT32SZ, f⟩ with
      | .error _ w => (0, w.f, w.mem)
      | .ok _ w =>
        if w.p > ep then (0, w.f, w.mem)
        else if ap + size = w.p then (size, w.f, w.mem)
        else (0, w.f, w.mem)

/-! ## Reading integers -/

/-- `x` reads an integer of `n` bytes and advances over it. -/
def ReadsInt {α : Type} (x : M2S α) (n : Nat) (toNat : α → Nat) : Prop :=
  ∀ w, w.p + n ≤ w.mem.length →
    ∃ v, x.run w = .ok v { w with p := w.p + n } ∧ toNat v = ofLe (slice w.mem w.p n)

theorem readsInt_get8 : ReadsInt get8 BIT8SZ UInt8.toNat := fun _ h =>
  ⟨_, rfl, toNat_gbit8 h⟩

theorem readsInt_get16 : ReadsInt get16 BIT16SZ UInt16.toNat := fun _ h =>
  ⟨_, rfl, toNat_gbit16 h⟩

theorem readsInt_get32 : ReadsInt get32 BIT32SZ UInt32.toNat := fun _ h =>
  ⟨_, rfl, toNat_gbit32 h⟩

theorem readsInt_get64 : ReadsInt get64 BIT64SZ UInt64.toNat := fun _ h =>
  ⟨_, rfl, toNat_gbit64 h⟩

/-! ## Reading strings -/

theorem need_run (ep n : Nat) (w : Unpacker) :
    (need ep n).run w = if w.p + n > ep then .error () w else .ok () w := rfl

variable {n ep : Nat} {w : Unpacker} {fs : List Field}

theorem movedown_run (h : w.p + (2 + n) ≤ w.mem.length) :
    (movedown n).run w = .ok (w.p + 1)
      ⟨patch w.mem (w.p + 1) (slice w.mem (w.p + 2) n ++ [0]), w.p + (2 + n), w.f⟩ := by
  have hlen : (slice w.mem (w.p + 2) n).length = n := length_slice (by omega)
  have hp : w.p + 1 + n + 1 = w.p + (2 + n) := by omega
  rw [← patch_patch_append, hlen, ← hp]
  rfl

/-- `gstring` fails, or moves the string down and ends it. -/
theorem gstring_run (hep : ep ≤ w.mem.length) :
    (gstring ep).run w =
      if w.p + (2 + gbit16 w.mem w.p) ≤ ep then
        .ok (w.p + 1) ⟨patch w.mem (w.p + 1) (slice w.mem (w.p + 2) (gbit16 w.mem w.p) ++ [0]),
          w.p + (2 + gbit16 w.mem w.p), w.f⟩
      else .error () w := by
  simp only [gstring, EStateM.run_bind, EStateM.run_get, BIT16SZ]
  rw [need_run]
  by_cases h1 : w.p + 2 > ep
  · rw [if_pos h1, if_neg (by omega)]
  rw [if_neg h1]
  simp only [need_run]
  by_cases h2 : w.p + (2 - 1 + gbit16 w.mem w.p + 1) > ep
  · rw [if_pos h2, if_neg (by omega)]
  · rw [if_neg h2, if_pos (by omega)]
    exact movedown_run (by omega)

/-! ## Passing over fields -/

/-- What the pointers of an unpacked message stood for in the memory before: a string pointer is
one past the start of the string's length. -/
def unread (m : Mem) : View :=
  ⟨fun s => slice m (s + 1) (gbit16 m (s - 1)), slice m⟩

theorem forall_fits_append {x : Field} (hfs : ∀ y ∈ fs, y.Fits) (hx : x.Fits) :
    ∀ y ∈ fs ++ [x], y.Fits := by
  intro y hy
  rcases mem_append.mp hy with h | h
  · exact hfs y h
  · rwa [mem_singleton.mp h]

/-- The memory `m` with the strings at `ss` moved down. -/
def moveddown (m : Mem) (ss : List Nat) : Mem :=
  ss.foldl (fun k s => patch k s ((unread m).str s ++ [0])) m

theorem moveddown_snoc (m : Mem) (ss : List Nat) (s : Nat) :
    moveddown m (ss ++ [s]) = patch (moveddown m ss) s ((unread m).str s ++ [0]) := by
  rw [moveddown, List.foldl_append]
  rfl

/-- From `p₀` in the memory `m₀`, the cursor has passed over the fields `fs`, leaving pointers to
the strings `ss` and the data `bs`. The memory ahead is as it was, and each string has been moved
down and ended. -/
structure Took (m₀ : Mem) (p₀ : Nat) (w : Unpacker) (fs : List Field) (ss : List Nat)
    (bs : List (Nat × Nat)) : Prop where
  p_eq : w.p = p₀ + (wire fs).length
  bytes : slice m₀ p₀ (wire fs).length = wire fs
  fits : ∀ x ∈ fs, x.Fits
  length : w.mem.length = m₀.length
  outside : ∀ i, i < p₀ ∨ w.p ≤ i → w.mem[i]? = m₀[i]?
  strings : ∀ s ∈ ss, p₀ < s ∧ s + ((unread m₀).str s).length + 1 ≤ w.p ∧
    slice w.mem s ((unread m₀).str s ++ [0]).length = (unread m₀).str s ++ [0]
  blobs : ∀ b ∈ bs, p₀ ≤ b.1 ∧ b.1 + b.2 ≤ w.p ∧ slice w.mem b.1 b.2 = slice m₀ b.1 b.2
  moved : w.mem = moveddown m₀ ss
  sorted : ss.Pairwise fun s s' => s + ((unread m₀).str s).length + 1 < s'
  places : ∀ s ∈ ss, ∃ gs, gs ++ [strField (unread m₀) s] <+: fs ∧ s = p₀ + (wire gs).length + 1

variable {m₀ m' : Mem} {p₀ r : Nat} {ss : List Nat} {bs : List (Nat × Nat)} {F f : Fcall}
  {Q : Unpacker → Prop}

namespace Took

theorem start (f : Fcall) : Took m₀ p₀ ⟨m₀, p₀, f⟩ [] [] [] where
  p_eq := by simp
  bytes := by simp
  fits := by simp
  length := rfl
  outside := fun _ _ => rfl
  strings := by simp
  blobs := by simp
  moved := rfl
  sorted := List.Pairwise.nil
  places := by simp

section Took

variable (h : Took m₀ p₀ w fs ss bs)
include h

/-- Assigning to the message moves nothing. -/
theorem setf (f : Fcall) : Took m₀ p₀ { w with f := f } fs ss bs :=
  ⟨h.p_eq, h.bytes, h.fits, h.length, h.outside, h.strings, h.blobs, h.moved, h.sorted, h.places⟩

theorem slice_ahead (n : Nat) : slice w.mem w.p n = slice m₀ w.p n :=
  slice_congr fun i _ => h.outside _ (by omega)

/-- Passing over `n` bytes that complete a layout `gs`, with a string among them or not, and
changing no others. -/
theorem advance {gs : List Field} {ss' : List Nat} (hgs : wire gs = wire fs ++ slice m₀ w.p n)
    (hfit : ∀ x ∈ gs, x.Fits) (hn : w.p + n ≤ m₀.length) (hlen : m'.length = w.mem.length)
    (hm : ∀ i, i < w.p ∨ w.p + n ≤ i → m'[i]? = w.mem[i]?)
    (hss : ∀ s ∈ ss', s ∈ ss ∨ p₀ < s ∧ s + ((unread m₀).str s).length + 1 ≤ w.p + n ∧
      slice m' s ((unread m₀).str s ++ [0]).length = (unread m₀).str s ++ [0])
    (hmoved : m' = moveddown m₀ ss')
    (hsorted : ss'.Pairwise fun s s' => s + ((unread m₀).str s).length + 1 < s')
    (hplaces : ∀ s ∈ ss', ∃ hs, hs ++ [strField (unread m₀) s] <+: gs ∧
      s = p₀ + (wire hs).length + 1) :
    Took m₀ p₀ ⟨m', w.p + n, w.f⟩ gs ss' bs where
  p_eq := by
    have := h.p_eq
    simp only [hgs, length_append, length_slice hn]
    omega
  bytes := by rw [hgs, length_append, length_slice hn, slice_add, h.bytes, ← h.p_eq]
  fits := hfit
  length := hlen.trans h.length
  outside := fun i (hi : i < p₀ ∨ w.p + n ≤ i) => by
    have := h.p_eq
    rw [← h.outside i (by omega)]
    exact hm i (by omega)
  strings := fun s hs => by
    rcases hss s hs with hs | hs
    rotate_left
    · exact hs
    obtain ⟨h1, h2, h3⟩ := h.strings s hs
    refine ⟨h1, Nat.le_add_right_of_le h2, (slice_congr fun i hi => hm _ (.inl ?_)).trans h3⟩
    rw [length_append, length_singleton] at hi
    omega
  blobs := fun b hb => by
    obtain ⟨h1, h2, h3⟩ := h.blobs b hb
    exact ⟨h1, Nat.le_add_right_of_le h2, (slice_congr fun i hi => hm _ (.inl (by omega))).trans h3⟩
  moved := hmoved
  sorted := hsorted
  places := hplaces

/-- What is read next leaves the strings where they were. -/
theorem places_append (gs : List Field) :
    ∀ s ∈ ss, ∃ hs, hs ++ [strField (unread m₀) s] <+: fs ++ gs ∧
      s = p₀ + (wire hs).length + 1 := fun s hs => by
  obtain ⟨ks, hpre, heq⟩ := h.places s hs
  exact ⟨ks, hpre.trans (List.prefix_append _ _), heq⟩

/-- Reading an integer. -/
theorem num (hn : w.p + n ≤ m₀.length) :
    Took m₀ p₀ { w with p := w.p + n } (fs ++ [.num n (ofLe (slice m₀ w.p n))]) ss bs := by
  refine h.advance ?_ (forall_fits_append h.fits (ofLe_slice_lt hn)) hn rfl (fun _ _ => rfl)
    (fun _ hs => .inl hs) h.moved h.sorted (h.places_append _)
  rw [wire_append, wire_cons, wire_nil, append_nil, Field.bytes, le_ofLe_slice hn]

end Took

/-- Pointing to data after its length. -/
theorem data {k : Nat} (h : Took m₀ p₀ w (fs ++ [.num k n]) ss bs) (hn : w.p + n ≤ m₀.length) :
    Took m₀ p₀ { w with p := w.p + n } (fs ++ [.blob k (slice m₀ w.p n)]) ss
      (bs ++ [(w.p, n)]) := by
  have hlen : (slice m₀ w.p n).length = n := length_slice hn
  have hfit : ∀ x ∈ fs, x.Fits := fun x hx => h.fits x (List.mem_append_left _ hx)
  have hfit' : (Field.blob k (slice m₀ w.p n)).Fits := by
    rw [Field.Fits, hlen]
    exact h.fits (.num k n) (by simp)
  -- the length is no string
  have hplaces : ∀ s ∈ ss, ∃ gs, gs ++ [strField (unread m₀) s] <+:
      fs ++ [.blob k (slice m₀ w.p n)] ∧ s = p₀ + (wire gs).length + 1 := by
    intro s hs
    obtain ⟨gs, hpre, heq⟩ := h.places s hs
    refine ⟨gs, ?_, heq⟩
    rcases List.prefix_concat_iff.mp hpre with hcat | hpre
    · have := (List.append_inj' hcat rfl).2
      simp [strField] at this
    · exact hpre.trans (List.prefix_append _ _)
  have h' : Took m₀ p₀ { w with p := w.p + n } (fs ++ [.blob k (slice m₀ w.p n)]) ss bs :=
    h.advance (by simp [Field.bytes, hlen]) (forall_fits_append hfit hfit') hn rfl (fun _ _ => rfl)
      (fun _ hs => .inl hs) h.moved h.sorted hplaces
  have hp := h.p_eq
  refine { h' with blobs := fun b hb => ?_ }
  rcases mem_append.mp hb with hb | hb
  · exact h'.blobs b hb
  · obtain rfl := mem_singleton.mp hb
    exact ⟨by simp only; omega, le_rfl, h.slice_ahead n⟩

/-- Moving a string down and ending it. -/
theorem str (h : Took m₀ p₀ w fs ss bs) (hn : w.p + (2 + gbit16 m₀ w.p) ≤ m₀.length) :
    Took m₀ p₀ ⟨patch w.mem (w.p + 1) (slice w.mem (w.p + 2) (gbit16 m₀ w.p) ++ [0]),
        w.p + (2 + gbit16 m₀ w.p), w.f⟩
      (fs ++ [strField (unread m₀) (w.p + 1)]) (ss ++ [w.p + 1]) bs := by
  set n := gbit16 m₀ w.p with hndef
  have hstr : (unread m₀).str (w.p + 1) = slice m₀ (w.p + 2) n := rfl
  have hlen : (slice m₀ (w.p + 2) n).length = n := length_slice (by omega)
  have hsl : slice w.mem (w.p + 2) n = slice m₀ (w.p + 2) n :=
    slice_congr fun i _ => h.outside _ (by omega)
  have h16 : w.p + BIT16SZ ≤ m₀.length := by rw [BIT16SZ]; omega
  have hcount : slice m₀ w.p 2 = le 2 n := by
    rw [hndef, gbit16_eq h16]
    exact (le_ofLe_slice h16).symm
  have hwire : wire (fs ++ [strField (unread m₀) (w.p + 1)]) = wire fs ++ slice m₀ w.p (2 + n) := by
    rw [wire_append, wire_cons, wire_nil, append_nil, strField, hstr, Field.bytes, hlen,
      BIT16SZ, slice_add, hcount]
  have hfit : (strField (unread m₀) (w.p + 1)).Fits := by
    rw [strField, Field.Fits, hstr, hlen, hndef, gbit16_eq h16]
    exact ofLe_slice_lt h16
  have hwlen := h.length
  rw [hsl]
  have hp := h.p_eq
  refine h.advance hwire (forall_fits_append h.fits hfit) hn (length_patch _ _ _)
    (fun i hi => getElem?_patch_of_disjoint
      (by rw [length_append, hlen, length_singleton]; omega)) (fun s hs => ?_) ?_ ?_
    fun s hs => ?_
  · rcases mem_append.mp hs with hs | hs
    · exact Or.inl hs
    · obtain rfl := mem_singleton.mp hs
      rw [hstr]
      refine Or.inr ⟨by omega, by rw [hlen]; omega, slice_patch_self ?_⟩
      rw [length_append, hlen, length_singleton]
      omega
  · rw [moveddown_snoc, hstr, h.moved]
  · refine List.pairwise_append.mpr ⟨h.sorted, List.pairwise_singleton _ _, fun s hs s' hs' => ?_⟩
    obtain rfl := mem_singleton.mp hs'
    have := (h.strings s hs).2.1
    omega
  · rcases mem_append.mp hs with hs | hs
    · exact h.places_append _ s hs
    · obtain rfl := mem_singleton.mp hs
      exact ⟨fs, List.prefix_refl _, by omega⟩

end Took

/-! ## What a successful run has read

`Sound` is about the statements still to run: from a cursor that has passed over `fs` and has
`r` more bytes before `ep`, a successful run ends in `Q`. There is one rule for each statement of
`convM2S`. -/

/-- What unpacking reads is there. -/
def Sound (m₀ : Mem) (p₀ ep : Nat) (Q : Unpacker → Prop) (x : M2S Unit) (r : Nat)
    (fs : List Field) (ss : List Nat) (bs : List (Nat × Nat)) (f : Fcall) : Prop :=
  ∀ w w', Took m₀ p₀ w fs ss bs → w.f = f → w.p + r ≤ ep → x.run w = .ok () w' → Q w'

variable {k : M2S Unit} {g : Fcall → Fcall} {α : Type} {x : M2S α} {toNat : α → Nat}

namespace Sound

theorem done (h : ∀ w, Took m₀ p₀ w fs ss bs → w.f = f → Q w) :
    Sound m₀ p₀ ep Q (pure ()) r fs ss bs f := by
  intro w w' ht hf _ hrun
  obtain rfl : w = w' := by simpa using hrun
  exact h w ht hf

theorem need (h : Sound m₀ p₀ ep Q k n fs ss bs f) :
    Sound m₀ p₀ ep Q (do need ep n; k) r fs ss bs f := by
  intro w w' ht hf _ hrun
  rw [EStateM.run_bind, need_run] at hrun
  by_cases hn : w.p + n > ep
  · rw [if_pos hn] at hrun
    cases hrun
  · rw [if_neg hn] at hrun
    exact h w w' ht hf (by omega) hrun

theorem setf (h : Sound m₀ p₀ ep Q k r fs ss bs (g f)) :
    Sound m₀ p₀ ep Q (do setf g; k) r fs ss bs f := by
  intro w w' ht hf hr hrun
  exact h { w with f := g w.f } w' (ht.setf _) (congrArg g hf) hr hrun

theorem setf_done (h : ∀ w, Took m₀ p₀ w fs ss bs → w.f = g f → Q w) :
    Sound m₀ p₀ ep Q (Ninep.setf g) r fs ss bs f := by
  intro w w' ht hf _ hrun
  cases hrun
  exact h _ (ht.setf _) (congrArg g hf)

variable (hep : ep ≤ m₀.length)
include hep

theorem int (hx : ReadsInt x n toNat) {k : α → M2S Unit}
    (h : ∀ v, Sound m₀ p₀ ep Q (k v) (r - n) (fs ++ [.num n (toNat v)]) ss bs f)
    (hr : n ≤ r := by simp) :
    Sound m₀ p₀ ep Q (x >>= k) r fs ss bs f := by
  intro w w' ht hf hw hrun
  have hn : w.p + n ≤ m₀.length := by omega
  obtain ⟨v, hv, hval⟩ := hx w (by rw [ht.length]; exact hn)
  rw [EStateM.run_bind, hv] at hrun
  refine h v { w with p := w.p + n } w' ?_ hf (by simp only; omega) hrun
  rw [hval, ht.slice_ahead]
  exact ht.num hn

theorem skip {c : Nat} {k : Nat → M2S Unit} (hr : n ≤ r)
    (h : ∀ d, Sound m₀ p₀ ep Q (k d) 0 (fs ++ [.blob c (slice m₀ d n)]) ss (bs ++ [(d, n)]) f) :
    Sound m₀ p₀ ep Q (skip n >>= k) r (fs ++ [.num c n]) ss bs f := by
  intro w w' ht hf hw hrun
  exact h w.p { w with p := w.p + n } w' (ht.data (by omega)) hf (by simp only; omega) hrun

theorem gstring {k : Nat → M2S Unit}
    (h : ∀ s, Sound m₀ p₀ ep Q (k s) 0 (fs ++ [strField (unread m₀) s]) (ss ++ [s]) bs f) :
    Sound m₀ p₀ ep Q (gstring ep >>= k) r fs ss bs f := by
  intro w w' ht hf hw hrun
  have hcount : w.p + 2 ≤ m₀.length → gbit16 w.mem w.p = gbit16 m₀ w.p := fun h => by
    rw [gbit16_eq (by rwa [ht.length]), gbit16_eq (by exact h), ht.slice_ahead]
  rw [EStateM.run_bind, gstring_run (by rwa [ht.length])] at hrun
  by_cases hn : w.p + (2 + gbit16 w.mem w.p) ≤ ep
  · rw [if_pos hn] at hrun
    rw [hcount (by omega)] at hn hrun
    exact h _ _ w' (ht.str (by omega)) hf (by simpa using hn) hrun
  · rw [if_neg hn] at hrun
    cases hrun

theorem gqid {k : Qid → M2S Unit} (h : ∀ q, Sound m₀ p₀ ep Q (k q) 0 (fs ++ qidFields q) ss bs f) :
    Sound m₀ p₀ ep Q (gqid ep >>= k) r fs ss bs f := by
  simp only [Ninep.gqid, bind_assoc, pure_bind]
  refine .need (.int hep readsInt_get8 fun type => .int hep readsInt_get32
    fun vers => .int hep readsInt_get64 fun path => ?_)
  simpa [qidFields] using h ⟨path, vers.toUInt64, type⟩

end Sound

/-- The cursor has passed over the layout of what it filled in. -/
structure Unpacked (m₀ : Mem) (p₀ : Nat) (f : Fcall) (t : MsgType) (w : Unpacker) : Prop where
  took : Took m₀ p₀ w (fields (unread m₀) w.f t) (w.f.strings t) (w.f.blobs t)
  nwname : t = .twalk → w.f.nwname.toNat ≤ MAXWELEM
  nwqid : t = .rwalk → w.f.nwqid.toNat ≤ MAXWELEM
  type : w.f.type = f.type
  tag : w.f.tag = f.tag

variable {t : MsgType} {i : Nat}

theorem Took.unpacked (ht : Took m₀ p₀ w fs ss bs) (hf : w.f = F)
    (hfs : fields (unread m₀) F t = fs) (hss : F.strings t = ss) (hbs : F.blobs t = bs)
    (hn : t = .twalk → F.nwname.toNat ≤ MAXWELEM) (hq : t = .rwalk → F.nwqid.toNat ≤ MAXWELEM)
    (htype : F.type = f.type) (htag : F.tag = f.tag) : Unpacked m₀ p₀ f t w := by
  subst hf hfs hss hbs
  exact ⟨ht, hn, hq, htype, htag⟩

theorem Sound.setf_unpacked (hfs : fields (unread m₀) (g F) t = fs := by rfl)
    (hss : (g F).strings t = ss := by rfl) (hbs : (g F).blobs t = bs := by rfl)
    (hw : t ≠ .twalk ∧ t ≠ .rwalk := by decide) (htype : (g F).type = f.type := by rfl)
    (htag : (g F).tag = f.tag := by rfl) :
    Sound m₀ p₀ ep (Unpacked m₀ p₀ f t) (Ninep.setf g) r fs ss bs F :=
  .setf_done fun _ ht hf => ht.unpacked hf hfs hss hbs (fun h => absurd h hw.1)
    (fun h => absurd h hw.2) htype htag

theorem Sound.guard {c : Prop} [Decidable c] (h : ¬ c → Sound m₀ p₀ ep Q k r fs ss bs f) :
    Sound m₀ p₀ ep Q (if c then throw () else k) r fs ss bs f := by
  by_cases hc : c
  · rw [if_pos hc]
    intro w w' _ _ _ hrun
    cases hrun
  · rw [if_neg hc]
    exact h hc

theorem take_setIfInBounds {v : Vector α n} {xs : List α} (hi : i < n) (hxs : v.toList.take i = xs)
    (a : α) : (v.setIfInBounds i a).toList.take (i + 1) = xs ++ [a] := by
  have hlen : i < v.toList.length := by rwa [Vector.length_toList]
  rw [Vector.toList_setIfInBounds, List.take_set, List.take_succ_eq_append_getElem hlen, hxs]
  have hi' : xs.length = i := by rw [← hxs, List.length_take]; omega
  simp [← hi']

section Fill

variable {g : α → List Field} (sg : α → List Nat)
  (hx : ∀ {Q r fs ss f k}, (∀ a, Sound m₀ p₀ ep Q (k a) 0 (fs ++ g a) (ss ++ sg a) bs f) →
    Sound m₀ p₀ ep Q (x >>= k) r fs ss bs f)
  (get : Fcall → Vector α MAXWELEM) (put : Fcall → Vector α MAXWELEM → Fcall)
  (hget : ∀ f v, get (put f v) = v) (hself : ∀ f, put f (get f) = f)
  (hput : ∀ f v v', put (put f v) v' = put f v')
include hx hget hself hput

/-- A loop that fills an array of the message, item by item, each read by `x`. -/
theorem Sound.fill (n : Nat) {xs : List α} (hi : i + n ≤ MAXWELEM)
    (hxs : (get f).toList.take i = xs)
    (hQ : ∀ w v, Took m₀ p₀ w (fs ++ (v.toList.take (i + n)).flatMap g)
      ((v.toList.take (i + n)).flatMap sg) bs → w.f = put f v → Q w) :
    Sound m₀ p₀ ep Q
      ((List.range' i n).forM fun i => do
        let a ← x
        Ninep.setf fun f => put f ((get f).setIfInBounds i a))
      r (fs ++ xs.flatMap g) (xs.flatMap sg) bs f := by
  induction n generalizing i r xs f with
  | zero =>
    subst hxs
    exact .done fun w ht hf => hQ w (get f) ht (hf.trans (hself f).symm)
  | succ n ih =>
    rw [List.range'_succ, List.forM_eq_forM, List.forM_cons, bind_assoc]
    refine hx fun a => .setf ?_
    -- the array now begins with `xs ++ [a]`
    have hxs' := take_setIfInBounds (show i < MAXWELEM by omega) hxs a
    have := @ih 0 (put f ((get f).setIfInBounds i a)) (i + 1) (xs ++ [a]) (by omega)
      (by rw [hget]; exact hxs') fun w v ht hf =>
        hQ w v (by rwa [add_right_comm] at ht) (by rw [hf, hput])
    simpa only [List.forM_eq_forM, List.flatMap_append, List.flatMap_singleton, append_assoc]
      using this

theorem Sound.fill_start (hn : n ≤ MAXWELEM)
    (hQ : ∀ w v,
      Took m₀ p₀ w (fs ++ (v.toList.take n).flatMap g) ((v.toList.take n).flatMap sg) bs →
      w.f = put f v → Q w) :
    Sound m₀ p₀ ep Q
      ((List.range n).forM fun i => do
        let a ← x
        Ninep.setf fun f => put f ((get f).setIfInBounds i a))
      r fs [] bs f := by
  have := Sound.fill sg hx get put hget hself hput (r := r) n (by omega) List.take_zero
    fun w v ht hf => hQ w v (by rwa [zero_add] at ht) hf
  rw [List.range_eq_range']
  simpa only [List.flatMap_nil, append_nil] using this

end Fill

theorem bodyM2S_sound (hep : ep ≤ m₀.length) (f : Fcall) (t : MsgType) :
    Sound m₀ p₀ ep (Unpacked m₀ p₀ f t) (bodyM2S ep t) 0 [] [] [] f := by
  cases t
  case tversion | rversion =>
    exact .need <| .int hep readsInt_get32 fun msize => .setf <| .gstring hep fun s =>
      .setf_unpacked
  case tflush =>
    exact .need <| .int hep readsInt_get16 fun _ => .setf_unpacked
  case tauth =>
    exact .need <| .int hep readsInt_get32 fun _ => .setf <| .gstring hep fun _ =>
      .setf <| .gstring hep fun _ => .setf <| .setf_unpacked
  case tattach =>
    exact .need <| .int hep readsInt_get32 fun _ => .setf <| .need <|
      .int hep readsInt_get32 fun _ => .setf <| .gstring hep fun _ => .setf <|
      .gstring hep fun _ => .setf <| .setf_unpacked
  case twalk =>
    refine .need <| .int hep readsInt_get32 fun fid => .setf <|
      .int hep readsInt_get32 fun newfid => .setf <| .int hep readsInt_get16 fun nwname => .setf <|
      .guard fun hle => ?_
    refine Sound.fill_start (fun s => [s]) (fun h => .gstring hep h) (·.wname)
      (fun f v => { f with wname := v }) (fun _ _ => rfl) (fun _ => rfl) (fun _ _ _ => rfl)
      (by omega) fun w v ht hf =>
        ht.unpacked hf ?_ ?_ rfl (fun _ => Nat.not_lt.mp hle) (by simp) rfl rfl
    · simp [fields, Fcall.wnames, List.map_eq_flatMap]
    · simp [Fcall.strings, Fcall.wnames]
  case topen | topenfd =>
    exact .need <| .int hep readsInt_get32 fun _ => .setf <| .int hep readsInt_get8 fun _ =>
      .setf_unpacked
  case tcreate =>
    exact .need <| .int hep readsInt_get32 fun _ => .setf <| .gstring hep fun _ => .setf <|
      .need <| .int hep readsInt_get32 fun _ => .setf <| .int hep readsInt_get8 fun _ =>
      .setf_unpacked
  case tread =>
    exact .need <| .int hep readsInt_get32 fun _ => .setf <|
      .int hep readsInt_get64 fun _ => .setf <| .int hep readsInt_get32 fun _ => .setf_unpacked
  case twrite =>
    exact .need <| .int hep readsInt_get32 fun _ => .setf <|
      .int hep readsInt_get64 fun _ => .setf <| .int hep readsInt_get32 fun _ => .setf <|
      .need <| .skip hep le_rfl fun _ => .setf_unpacked
  case tclunk | tremove | tstat | rwrite =>
    exact .need <| .int hep readsInt_get32 fun _ => .setf_unpacked
  case twstat =>
    exact .need <| .int hep readsInt_get32 fun _ => .setf <|
      .int hep readsInt_get16 fun _ => .setf <| .need <| .skip hep le_rfl fun _ => .setf_unpacked
  case rerror =>
    exact .setf <| .gstring hep fun _ => .setf_unpacked
  case rflush | rclunk | rremove | rwstat =>
    exact .done fun _ ht hf => ht.unpacked hf rfl rfl rfl (by simp) (by simp) rfl rfl
  case rauth | rattach =>
    exact .gqid hep fun _ => .setf_unpacked
  case rwalk =>
    refine .need <| .int hep readsInt_get16 fun nwqid => .setf <| .guard fun hle => ?_
    refine Sound.fill_start (fun _ => []) (fun h => .gqid hep (by simpa using h)) (·.wqid)
      (fun f v => { f with wqid := v }) (fun _ _ => rfl) (fun _ => rfl) (fun _ _ _ => rfl)
      (by omega)
      fun w v ht hf => ht.unpacked hf ?_ ?_ rfl (by simp) (fun _ => Nat.not_lt.mp hle) rfl rfl
    · simp [fields, Fcall.wqids]
    · simp [Fcall.strings]
  case ropen | rcreate =>
    exact .gqid hep fun _ => .setf <| .need <| .int hep readsInt_get32 fun _ => .setf_unpacked
  case ropenfd =>
    exact .gqid hep fun _ => .setf <| .need <| .int hep readsInt_get32 fun _ => .setf <|
      .need <| .int hep readsInt_get32 fun _ => .setf_unpacked
  case rread =>
    exact .need <| .int hep readsInt_get32 fun _ => .setf <| .need <| .skip hep le_rfl fun _ =>
      .setf_unpacked
  case rstat =>
    exact .need <| .int hep readsInt_get16 fun _ => .setf <| .need <| .skip hep le_rfl fun _ =>
      .setf_unpacked

/-! ## What runs succeed

`Complete` is about the statements still to run, too: with the given bytes ahead of the cursor and
below `ep`, they succeed and advance over them. -/

/-- What is there is read. -/
def Complete (ep : Nat) (x : M2S Unit) (xs : List UInt8) : Prop :=
  ∀ w, ep ≤ w.mem.length → slice w.mem w.p xs.length = xs → w.p + xs.length ≤ ep →
    ∃ w', x.run w = .ok () w' ∧ w'.p = w.p + xs.length

namespace Complete

variable {xs ys : List UInt8}

theorem done : Complete ep (pure ()) [] := fun w _ _ _ => ⟨w, rfl, rfl⟩

theorem setf_done : Complete ep (setf g) [] := fun w _ _ _ =>
  ⟨{ w with f := g w.f }, rfl, rfl⟩

theorem setf (h : Complete ep k xs) :
    Complete ep (do setf g; k) xs := fun w hep hxs hle =>
  h { w with f := g w.f } hep hxs hle

theorem need (hn : n ≤ xs.length) (h : Complete ep k xs) : Complete ep (do need ep n; k) xs := by
  intro w hep hxs hle
  rw [EStateM.run_bind, need_run, if_neg (by omega)]
  exact h w hep hxs hle

/-- Advancing over the first bytes. -/
theorem step {k : α → M2S Unit}
    (hx : ∀ w, ep ≤ w.mem.length → slice w.mem w.p xs.length = xs → w.p + xs.length ≤ ep →
      ∃ v w', x.run w = .ok v w' ∧ w'.p = w.p + xs.length ∧ w'.mem.length = w.mem.length ∧
        (∀ n, slice w'.mem w'.p n = slice w.mem w'.p n) ∧ Complete ep (k v) ys) :
    Complete ep (x >>= k) (xs ++ ys) := by
  intro w hep hxs hle
  rw [slice_append_iff] at hxs
  rw [length_append] at hle ⊢
  obtain ⟨v, w1, hrun, hp, hlen, hsl, hk⟩ := hx w hep hxs.1 (by omega)
  obtain ⟨w2, hrun', hp'⟩ := hk w1 (by omega) (by rw [hsl, hp]; exact hxs.2) (by omega)
  exact ⟨w2, by rw [EStateM.run_bind, hrun]; exact hrun', by omega⟩

theorem int {a : Nat} (hx : ReadsInt x n toNat) {k : α → M2S Unit} (ha : a < 256 ^ n)
    (h : ∀ v, toNat v = a → Complete ep (k v) ys) : Complete ep (x >>= k) (le n a ++ ys) := by
  refine step fun w hep hxs hle => ?_
  rw [length_le] at hxs hle ⊢
  obtain ⟨v, hrun, hv⟩ := hx w (by omega)
  rw [hxs, ofLe_le_of_lt ha] at hv
  exact ⟨v, _, hrun, rfl, rfl, fun _ => rfl, h v hv⟩

theorem get32 {k : UInt32 → M2S Unit} {a : UInt32} (h : ∀ v, Complete ep (k v) ys) :
    Complete ep (get32 >>= k) (le BIT32SZ a.toNat ++ ys) :=
  int readsInt_get32 a.toNat_lt fun v _ => h v

theorem skip {k : Nat → M2S Unit} (hn : xs.length = n) (h : ∀ d, Complete ep (k d) ys) :
    Complete ep (skip n >>= k) (xs ++ ys) :=
  step fun w _ _ _ => ⟨w.p, { w with p := w.p + n }, rfl, by simp only [hn], rfl, fun _ => rfl, h _⟩

theorem gstring {k : Nat → M2S Unit} {bs : List UInt8} (hbs : bs.length < 256 ^ 2)
    (h : ∀ s, Complete ep (k s) ys) :
    Complete ep (gstring ep >>= k) (le 2 bs.length ++ (bs ++ ys)) := by
  rw [← append_assoc]
  refine step fun w hep hxs hle => ?_
  rw [slice_append_iff, length_le] at hxs
  have hn : gbit16 w.mem w.p = bs.length := by
    rw [length_append, length_le] at hle
    rw [gbit16_eq (by rw [BIT16SZ]; omega), BIT16SZ, hxs.1, ofLe_le_of_lt hbs]
  have hlen : (slice w.mem (w.p + 2) bs.length).length = bs.length := by rw [hxs.2]
  rw [length_append, length_le] at hle ⊢
  rw [gstring_run hep, if_pos (by rwa [hn]), hn]
  refine ⟨_, _, rfl, rfl, length_patch _ _ _, fun n => slice_patch_of_disjoint ?_, h _⟩
  rw [length_append, hlen, length_singleton]
  simp only
  omega

theorem gqid {k : Qid → M2S Unit} {q : Qid} (hq : q.vers.toNat < 256 ^ BIT32SZ)
    (h : ∀ q, Complete ep (k q) ys) : Complete ep (gqid ep >>= k) (wire (qidFields q) ++ ys) := by
  simp only [Ninep.gqid, bind_assoc, pure_bind, qidFields, wire_cons, wire_nil, Field.bytes,
    append_assoc, List.nil_append]
  exact .need (by simp +arith) <| .int readsInt_get8 q.type.toNat_lt fun _ _ =>
    .int readsInt_get32 hq fun _ _ => .int readsInt_get64 q.path.toNat_lt fun _ _ => h _

/-- A loop that reads one item after another. -/
theorem fill {β : Type} {g : β → List UInt8} {put : Nat → α → Fcall → Fcall} {l : List β}
    (hx : ∀ b ∈ l, ∀ {k ys}, (∀ v, Complete ep (k v) ys) → Complete ep (x >>= k) (g b ++ ys))
    {is : List Nat} (hlen : is.length = l.length) :
    Complete ep (is.forM fun i => do let a ← x; Ninep.setf (put i a)) (l.flatMap g) := by
  induction is generalizing l with
  | nil =>
    obtain rfl : l = [] := List.eq_nil_of_length_eq_zero hlen.symm
    exact done
  | cons i is ih =>
    obtain _ | ⟨b, l⟩ := l
    · simp at hlen
    rw [List.forM_eq_forM, List.forM_cons, bind_assoc, List.flatMap_cons]
    exact hx b (by simp) fun v => setf (ih (fun c hc => hx c (by simp [hc])) (by simpa using hlen))

end Complete

/-- **Every layout can be unpacked.** -/
theorem bodyM2S_complete {v : View} (hfit : ∀ x ∈ fields v f t, x.Fits)
    (hn : t = .twalk → f.nwname.toNat ≤ MAXWELEM) (hq : t = .rwalk → f.nwqid.toNat ≤ MAXWELEM) :
    Complete ep (bodyM2S ep t) (wire (fields v f t)) := by
  have h16 : ∀ n : UInt16, n.toNat < 256 ^ BIT16SZ := fun n => n.toNat_lt
  have h8 : ∀ n : UInt8, n.toNat < 256 ^ BIT8SZ := fun n => n.toNat_lt
  have h64 : ∀ n : UInt64, n.toNat < 256 ^ BIT64SZ := fun n => n.toNat_lt
  cases t <;>
    simp only [fields, strField, List.forall_mem_cons, Field.Fits, qidFields, List.cons_append,
      List.nil_append] at hfit <;>
    simp only [fields, strField, wire_cons, wire_nil, wire_append, Field.bytes, append_assoc]
  case tversion | rversion =>
    exact .need (by simp) <| .get32 fun _ => .setf <| .gstring hfit.2.1 fun _ => .setf_done
  case tflush => exact .need (by simp) <| .int readsInt_get16 (h16 _) fun _ _ => .setf_done
  case tauth =>
    exact .need (by simp) <| .get32 fun _ => .setf <| .gstring hfit.2.1 fun _ => .setf <|
      .gstring hfit.2.2.1 fun _ => .setf <| .setf_done
  case tattach =>
    exact .need (by simp) <| .get32 fun _ => .setf <| .need (by simp) <| .get32 fun _ => .setf <|
      .gstring hfit.2.2.1 fun _ => .setf <| .gstring hfit.2.2.2.1 fun _ => .setf <| .setf_done
  case twalk =>
    refine .need (by simp +arith) <| .get32 fun _ => .setf <| .get32 fun _ => .setf <|
      .int readsInt_get16 (h16 _) fun n hv => .setf ?_
    have hlen : f.wnames.length = n.toNat := by
      rw [hv, Fcall.wnames, List.length_take, Vector.length_toList]
      exact Nat.min_eq_left (hn rfl)
    have hwire : wire (f.wnames.map (strField v)) =
        f.wnames.flatMap fun s => le 2 (v.str s).length ++ v.str s :=
      List.flatMap_map _ _ _
    rw [if_neg (Nat.not_lt.mpr (hv ▸ hn rfl)), hwire]
    refine .fill (fun s hmem _ _ h => ?_) (by rw [List.length_range, hlen])
    rw [append_assoc]
    exact .gstring (hfit.2.2.2 _ (List.mem_map_of_mem hmem)) h
  case topen | topenfd =>
    exact .need (by simp) <| .get32 fun _ => .setf <|
      .int readsInt_get8 (h8 _) fun _ _ => .setf_done
  case tcreate =>
    exact .need (by simp) <| .get32 fun _ => .setf <| .gstring hfit.2.1 fun _ => .setf <|
      .need (by simp) <| .get32 fun _ => .setf <| .int readsInt_get8 (h8 _) fun _ _ => .setf_done
  case tread =>
    exact .need (by simp) <| .get32 fun _ => .setf <|
      .int readsInt_get64 (h64 _) fun _ _ => .setf <| .get32 fun _ => .setf_done
  case twrite =>
    exact .need (by simp +arith) <| .get32 fun _ => .setf <|
      .int readsInt_get64 (h64 _) fun _ _ => .setf <|
      .int readsInt_get32 hfit.2.2.1 fun _ hv => .setf <| .need (by simp [hv]) <|
      .skip hv.symm fun _ => .setf_done
  case tclunk | tremove | tstat | rwrite =>
    exact .need (by simp) <| .get32 fun _ => .setf_done
  case twstat =>
    exact .need (by simp +arith) <| .get32 fun _ => .setf <|
      .int readsInt_get16 hfit.2.1 fun _ hv => .setf <| .need (by simp [hv]) <|
      .skip hv.symm fun _ => .setf_done
  case rerror => exact .setf <| .gstring hfit.1 fun _ => .setf_done
  case rflush | rclunk | rremove | rwstat => exact .done
  case rauth | rattach =>
    rw [← append_nil (wire _)]
    exact .gqid hfit.2.1 fun _ => .setf_done
  case rwalk =>
    refine .need (by simp) <| .int readsInt_get16 (h16 _) fun n hv => .setf ?_
    have hlen : f.wqids.length = n.toNat := by
      rw [hv, Fcall.wqids, List.length_take, Vector.length_toList]
      exact Nat.min_eq_left (hq rfl)
    have hwire : wire (f.wqids.flatMap qidFields) = f.wqids.flatMap fun q => wire (qidFields q) :=
      List.flatMap_assoc
    rw [if_neg (Nat.not_lt.mpr (hv ▸ hq rfl)), hwire]
    refine .fill (fun q hmem _ _ h => .gqid ?_ h) (by rw [List.length_range, hlen])
    exact hfit.2 (.num BIT32SZ q.vers.toNat) (List.mem_flatMap.mpr ⟨q, hmem, by simp [qidFields]⟩)
  case ropen | rcreate =>
    exact .gqid hfit.2.1 fun _ => .setf <| .need (by simp) <| .get32 fun _ => .setf_done
  case ropenfd =>
    exact .gqid hfit.2.1 fun _ => .setf <| .need (by simp) <| .get32 fun _ => .setf <|
      .need (by simp) <| .get32 fun _ => .setf_done
  case rread =>
    exact .need (by simp) <| .int readsInt_get32 hfit.1 fun _ hv => .setf <| .need (by simp [hv]) <|
      .skip hv.symm fun _ => .setf_done
  case rstat =>
    exact .need (by simp) <| .int readsInt_get16 hfit.1 fun _ hv => .setf <| .need (by simp [hv]) <|
      .skip hv.symm fun _ => .setf_done

/-! ## The whole message -/

/-- The message after its type and tag have been read. -/
def withHeader (m : Mem) (ap : Nat) (f : Fcall) : Fcall :=
  { f with
    type := .ofNat (gbit8 m (ap + BIT32SZ))
    tag := .ofNat (gbit16 m (ap + BIT32SZ + BIT8SZ)) }

variable {m : Mem} {ap nap size : Nat} {f' : Fcall}

/-- The bytes of a header that lies in memory. -/
theorem slice_header (f : Fcall) (h : ap + 7 ≤ m.length) :
    slice m ap 7 = wire (header (gbit32 m ap) (withHeader m ap f)) := by
  have h1 : ap + BIT32SZ ≤ m.length := by rw [BIT32SZ]; omega
  have h2 : ap + BIT32SZ + BIT8SZ ≤ m.length := by rw [BIT32SZ, BIT8SZ]; omega
  have h3 : ap + BIT32SZ + BIT8SZ + BIT16SZ ≤ m.length := by rw [BIT32SZ, BIT8SZ, BIT16SZ]; omega
  have htype : (withHeader m ap f).type.toNat = ofLe (slice m (ap + BIT32SZ) BIT8SZ) :=
    toNat_gbit8 h2
  have htag : (withHeader m ap f).tag.toNat = ofLe (slice m (ap + BIT32SZ + BIT8SZ) BIT16SZ) :=
    toNat_gbit16 h3
  simp only [header, wire_cons, wire_nil, Field.bytes, htype, htag, gbit32_eq h1,
    le_ofLe_slice h1, le_ofLe_slice h2, le_ofLe_slice h3, append_nil]
  rw [show (7 : Nat) = BIT32SZ + (BIT8SZ + BIT16SZ) from rfl, slice_add, slice_add]

theorem afterSize_run (ep : Nat) (m : Mem) (ap : Nat) (f : Fcall) :
    (afterSize ep).run ⟨m, ap + BIT32SZ, f⟩ =
      match ofCode (withHeader m ap f).type with
      | none => .error () ⟨m, ap + 7, withHeader m ap f⟩
      | some t => (bodyM2S ep t).run ⟨m, ap + 7, withHeader m ap f⟩ := by
  have : (afterSize ep).run ⟨m, ap + BIT32SZ, f⟩ =
      (match ofCode (withHeader m ap f).type with
      | none => throw ()
      | some t => bodyM2S ep t : M2S Unit).run ⟨m, ap + 7, withHeader m ap f⟩ := rfl
  rw [this]
  cases ofCode (withHeader m ap f).type <;> rfl

/-- What a successful `convM2S` has done. -/
theorem convM2S_cases (h : convM2S m ap nap f = (size, f', m')) (hsize : size ≠ 0) :
    7 ≤ nap ∧ size = gbit32 m ap ∧ 7 ≤ size ∧ size ≤ nap ∧
      ∃ t, ofCode (withHeader m ap f).type = some t ∧
        (bodyM2S (ap + nap) t).run ⟨m, ap + 7, withHeader m ap f⟩ = .ok () ⟨m', ap + size, f'⟩ := by
  -- every other way out returns 0
  have hzero : ∀ {g : Fcall} {k : Mem}, (0, g, k) ≠ (size, f', m') :=
    fun h => hsize (congrArg Prod.fst h).symm
  simp only [convM2S, afterSize_run] at h
  by_cases h1 : ap + BIT32SZ + BIT8SZ + BIT16SZ > ap + nap
  · rw [if_pos h1] at h
    exact absurd h hzero
  rw [if_neg h1] at h
  by_cases h2 : gbit32 m ap < BIT32SZ + BIT8SZ + BIT16SZ
  · rw [if_pos h2] at h
    exact absurd h hzero
  rw [if_neg h2] at h
  simp only [BIT32SZ, BIT8SZ, BIT16SZ] at h1 h2
  cases ht : ofCode (withHeader m ap f).type with
  | none =>
    rw [ht] at h
    exact absurd h hzero
  | some t =>
    simp only [ht] at h
    cases hrun : (bodyM2S (ap + nap) t).run ⟨m, ap + 7, withHeader m ap f⟩ with
    | error e w =>
      rw [hrun] at h
      exact absurd h hzero
    | ok u w =>
      simp only [hrun] at h
      by_cases h3 : w.p > ap + nap
      · rw [if_pos h3] at h
        exact absurd h hzero
      rw [if_neg h3] at h
      by_cases h4 : ap + gbit32 m ap = w.p
      · rw [if_pos h4] at h
        obtain ⟨rfl, rfl, rfl⟩ := by simpa only [Prod.mk.injEq] using h
        exact ⟨by omega, rfl, by omega, by omega, t, rfl, by rw [hrun, h4]⟩
      · rw [if_neg h4] at h
        exact absurd h hzero

/-- What a successful `convM2S` has read. -/
structure Read (m : Mem) (ap nap : Nat) (size : Nat) (f : Fcall) (m' : Mem) (t : MsgType) :
    Prop where
  type : MsgType.ofCode f.type = some t
  le : size ≤ nap
  bytes : slice m ap size = wire (header size f ++ fields (unread m) f t)
  size_eq : size = 7 + (wire (fields (unread m) f t)).length
  took : Took m (ap + 7) ⟨m', ap + size, f⟩ (fields (unread m) f t) (f.strings t) (f.blobs t)
  nwname : t = .twalk → f.nwname.toNat ≤ MAXWELEM
  nwqid : t = .rwalk → f.nwqid.toNat ≤ MAXWELEM

/-- **Soundness of unpacking**: the bytes are the header and the layout of the message that
`convM2S` returns. -/
theorem convM2S_sound (hmem : ap + nap ≤ m.length) (h : convM2S m ap nap f = (size, f', m'))
    (hsize : size ≠ 0) : ∃ t, Read m ap nap size f' m' t := by
  obtain ⟨hnap, rfl, hge, hle, t, ht, hrun⟩ := convM2S_cases h hsize
  obtain ⟨took, hn, hq, htype, htag⟩ :=
    bodyM2S_sound hmem _ t _ _ (Took.start _) rfl (by simp only; omega) hrun
  simp only at took hn hq htype htag
  have hsize : gbit32 m ap = 7 + (wire (fields (unread m) f' t)).length := by
    have := took.p_eq
    simp only at this
    omega
  have hheader : slice m ap 7 = wire (header (gbit32 m ap) f') := by
    rw [slice_header f (by omega)]
    simp only [header, htype, htag]
  refine ⟨t, by rw [htype, ht], hle, ?_, hsize, took, hn, hq⟩
  rw [wire_append, ← hheader, ← took.bytes, ← slice_add, ← hsize]

/-- A header that lies in memory is read back. -/
theorem read_header {g : Fcall} (f : Fcall) (hmem : ap + 7 ≤ m.length) (hn : n < 2 ^ 32)
    (h : slice m ap 7 = wire (header n g)) :
    gbit32 m ap = n ∧ (withHeader m ap f).type = g.type ∧ (withHeader m ap f).tag = g.tag := by
  have hlen : (le BIT32SZ (gbit32 m ap)).length = (le BIT32SZ n).length := by simp
  have hlen' : (le BIT8SZ (withHeader m ap f).type.toNat).length =
      (le BIT8SZ g.type.toNat).length :=
    by simp
  rw [slice_header f hmem] at h
  simp only [header, wire_cons, wire_nil, Field.bytes, append_nil] at h
  obtain ⟨h1, h⟩ := List.append_inj h hlen
  obtain ⟨h2, h3⟩ := List.append_inj h hlen'
  refine ⟨le_injOn ?_ hn h1, UInt8.toNat_inj.mp (le_injOn ?_ g.type.toNat_lt h2),
    UInt16.toNat_inj.mp (le_injOn ?_ g.tag.toNat_lt h3)⟩
  · have h32 : ap + BIT32SZ ≤ m.length := by rw [BIT32SZ]; omega
    rw [gbit32_eq h32]
    exact ofLe_slice_lt h32
  · exact UInt8.toNat_lt _
  · exact UInt16.toNat_lt _

/-- **Completeness of unpacking**: `convM2S` accepts every header and layout. -/
theorem convM2S_complete {g : Fcall} {v : View} (hmem : ap + nap ≤ m.length)
    (ht : ofCode g.type = some t) (hb : slice m ap n = wire (header n g ++ fields v g t))
    (hn : n = 7 + (wire (fields v g t)).length) (hle : n ≤ nap) (hlt : n < 2 ^ 32)
    (hfit : ∀ x ∈ fields v g t, x.Fits) (hw : t = .twalk → g.nwname.toNat ≤ MAXWELEM)
    (hq : t = .rwalk → g.nwqid.toNat ≤ MAXWELEM) : (convM2S m ap nap f).1 = n := by
  have hb' : slice m ap 7 = wire (header n g) ∧
      slice m (ap + 7) (wire (fields v g t)).length = wire (fields v g t) := by
    have h7 : (wire (header n g)).length = 7 := by simp [header]
    have hlen : n = (wire (header n g) ++ wire (fields v g t)).length := by
      rw [length_append, h7, hn]
    rw [wire_append] at hb
    nth_rewrite 1 [hlen] at hb
    rwa [slice_append_iff, h7] at hb
  obtain ⟨h1, h2, -⟩ := read_header f (by omega) hlt hb'.1
  obtain ⟨w, hrun, hp⟩ := bodyM2S_complete hfit hw hq ⟨m, ap + 7, withHeader m ap f⟩ hmem hb'.2
    (by simp only; omega)
  have hsize : ¬ ap + BIT32SZ + BIT8SZ + BIT16SZ > ap + nap := by
    simp only [BIT32SZ, BIT8SZ, BIT16SZ]; omega
  have hsize' : ¬ n < BIT32SZ + BIT8SZ + BIT16SZ := by
    simp only [BIT32SZ, BIT8SZ, BIT16SZ]; omega
  simp only at hp
  simp only [convM2S, afterSize_run, if_neg hsize, h1, if_neg hsize', h2, ht, hrun]
  rw [if_neg (by omega), if_pos (by omega)]

end Plan9Port.Ninep
