import Mathlib.Data.List.TakeWhile
import Plan9Port.Lib9.Atoi
import Plan9Port.Venti.Bucket

/-!
# Venti messages

`vtfcallpack` and `vtfcallunpack` (`libventi/fcall.c`), with the strings of `string.c` and the block
types of `dtype.c`. A packet is a byte string here.

`vtfcallunpack` reads everything but strings, scores and data into four bytes on its stack. The
lists of a `Thello` go there as well, and not into the memory that was allocated for them; what that
memory holds is a parameter. A store that does not fit its buffer ends the call.
-/

namespace Plan9Port.Venti

open LittleEndian Lib List UInt8
open Lib9 (cstr)

/-! ## Packets -/

/-- The bytes that are left of a packet. -/
abbrev Packet := List UInt8

/-- Why a call does not succeed: it returns an error, or it stores past the end of a buffer. -/
inductive Fault where
  | fail (errstr : String)
  | overrun
  deriving DecidableEq, Repr

/-- Less is there than was asked for. -/
def EPacketSize : String := "bad packet size"

/-- Nothing is there. -/
def EPacketOffset : String := "bad packet offset"

/-- `packetappend`, of `n` bytes at `buf`. -/
def packetappend (p : Packet) (buf : List UInt8) (n : Int) : Packet :=
  if n ≤ 0 then p else p ++ buf.take n.toNat

/-- `packetconsume`, into a buffer of `cap` bytes. -/
def packetconsume (p : Packet) (cap n : Nat) :
    Except Fault ({ bs : List UInt8 // bs.length = n } × Packet) :=
  if h0 : n = 0 then .ok (⟨[], h0.symm⟩, p)
  else if p.length = 0 then .error (.fail EPacketOffset)
  else if h : p.length < n then .error (.fail EPacketSize)
  else if n > cap then .error .overrun
  else .ok (⟨p.take n, List.length_take_of_le (by omega)⟩, p.drop n)

/-! ## Block types -/

/-- A `VtCorruptType` stands where the disk type is illegal. -/
def fromdisk : List Nat :=
  [VtCorruptType, 16, 8, 9, 10, 11, 12, 13, 14, 15, VtCorruptType, VtCorruptType, VtCorruptType, 0]

/-- The type of a disk type. -/
def vtfromdisktype (n : Nat) : Nat := fromdisk.getD n VtCorruptType

/-- The test `~b == 0` of a byte, which is promoted to an `int` first. -/
def isErrType (b : UInt8) : Bool := ~~~b.toUInt32 == 0

/-! ## Messages -/

/-- A string, without its NUL. -/
abbrev CString := { s : List UInt8 // 0 ∉ s }

/-- `n` codes, at a pointer. -/
structure Codes where
  bytes : List UInt8
  n : UInt32
  room : n.toNat ≤ bytes.length

/-- The codes that count. -/
def Codes.list (c : Codes) : List UInt8 := c.bytes.take c.n.toNat

/-- The score of a block. -/
abbrev Score := { bs : List UInt8 // bs.length = VtScoreSize }

/-- A message. -/
structure VtFcall where
  msgtype : UInt8
  tag : UInt8
  error : Option CString
  version : Option CString
  uid : Option CString
  strength : UInt8
  crypto : Codes
  codec : Codes
  sid : Option CString
  rcrypto : UInt8
  rcodec : UInt8
  score : Score
  blocktype : UInt8
  count : UInt32
  data : Packet

/-- The message types that are packed. -/
inductive MsgType where
  | rerror | tping | rping | thello | rhello | tgoodbye | tread | rread | twrite | rwrite | tsync
  | rsync
  deriving DecidableEq, Repr

/-- The byte of a type. -/
def MsgType.code : MsgType → UInt8
  | .rerror => 1 | .tping => 2 | .rping => 3 | .thello => 4 | .rhello => 5 | .tgoodbye => 6
  | .tread => 12 | .rread => 13 | .twrite => 14 | .rwrite => 15 | .tsync => 16 | .rsync => 17

/-- The type of a byte. -/
def MsgType.ofCode (b : UInt8) : Option MsgType :=
  [MsgType.rerror, .tping, .rping, .thello, .rhello, .tgoodbye, .tread, .rread, .twrite, .rwrite,
    .tsync, .rsync].find? fun t => t.code = b

variable {t : MsgType} {b : UInt8}

theorem MsgType.code_of_ofCode (h : ofCode b = some t) : t.code = b := by
  simpa using find?_some h

/-- The longest string. -/
def VtMaxStringSize : Nat := 1024

/-! ## Packing -/

/-- A string is appended with its length. -/
def vtputstring (p : Packet) (s : Option CString) : Except (Option String) Packet :=
  match s with
  | none => .error (some "null string in packet")
  | some s =>
    let n := s.1.length
    if n > VtMaxStringSize then .error (some "string too long in packet")
    else .ok (packetappend (packetappend p (U16PUT n) 2) s.1 n)

/-- The packet of a message. The error is `none` where the error string is left as it was. -/
def vtfcallpack (f : VtFcall) : Except (Option String) Packet :=
  let p := packetappend [] [f.msgtype, f.tag] 2
  match MsgType.ofCode f.msgtype with
  | none => .error (some ("vtfcallpack: unknown packet type " ++ toString f.msgtype.toNat))
  | some .rerror => vtputstring p f.error
  | some .thello => do
    let p ← vtputstring p f.version
    let p ← vtputstring p f.uid
    let p := packetappend p [f.strength, f.crypto.n.toUInt8] 2
    let p := packetappend p f.crypto.bytes f.crypto.n.toInt32.toInt
    let p := packetappend p [f.codec.n.toUInt8] 1
    return packetappend p f.codec.bytes f.codec.n.toInt32.toInt
  | some .rhello => do
    let p ← vtputstring p f.sid
    return packetappend p [f.rcrypto, f.rcodec] 2
  | some .tread =>
    let p := packetappend p f.score.1 VtScoreSize
    let b := UInt8.ofNat (vttodisktype f.blocktype.toNat)
    if isErrType b then .error none
    else if f.count.toNat ≥ 1 <<< 16 then .ok (packetappend p ([b, 0] ++ U32PUT f.count.toNat) 6)
    else .ok (packetappend p ([b, 0] ++ U16PUT f.count.toNat) 4)
  | some .rread => .ok (p ++ f.data)
  | some .twrite =>
    let b := UInt8.ofNat (vttodisktype f.blocktype.toNat)
    if isErrType b then .error none
    else .ok (packetappend p [b, 0, 0, 0] 4 ++ f.data)
  | some .rwrite => .ok (packetappend p f.score.1 VtScoreSize)
  | some .tping | some .rping | some .tgoodbye | some .tsync | some .rsync => .ok p

/-! ## Unpacking -/

/-- What the `i`-th allocation of a call finds in its memory. -/
abbrev Garbage := Nat → Nat → UInt8

/-- Memory that was not set. -/
def vtmalloc (g : Garbage) (i n : Nat) : List UInt8 := (List.range n).map (g i)

theorem not_mem_cstr (s : List UInt8) : 0 ∉ cstr s := by
  intro h
  simpa using mem_takeWhile_imp h

/-- The string in a buffer. -/
def toCString (s : List UInt8) : CString := ⟨cstr s, not_mem_cstr s⟩

/-- A string is taken off. -/
def vtgetstring (p : Packet) : Except Fault (CString × Packet) := do
  let (buf, p) ← packetconsume p 2 2
  let n := ofLe buf.1.reverse
  if n > VtMaxStringSize then .error (.fail "string too long in packet")
  else do
    let (s, p) ← packetconsume p (n + 1) n
    return (toCString s.1, p)

theorem length_vtmalloc (g : Garbage) (i n : Nat) : (vtmalloc g i n).length = n := by
  simp [vtmalloc]

/-- A list: its memory is allocated, and what the packet has goes into `buf`. -/
def unpackcodes (g : Garbage) (i : Nat) (n : UInt8) (p : Packet) : Except Fault (Codes × Packet) :=
  if n ≠ 0 then do
    let (_, p) ← packetconsume p 4 n.toNat
    return (⟨vtmalloc g i n.toNat, n.toUInt32, by simp [length_vtmalloc]⟩, p)
  else .ok (⟨[], 0, by decide⟩, p)

/-- `memset(f, 0, sizeof *f)` -/
def zeroFcall : VtFcall where
  msgtype := 0
  tag := 0
  error := none
  version := none
  uid := none
  strength := 0
  crypto := ⟨[], 0, by decide⟩
  codec := ⟨[], 0, by decide⟩
  sid := none
  rcrypto := 0
  rcodec := 0
  score := ⟨List.replicate VtScoreSize 0, List.length_replicate⟩
  blocktype := 0
  count := 0
  data := []

/-- The switch of `vtfcallunpack`. -/
def unpackbody (g : Garbage) (f : VtFcall) (p : Packet) : MsgType → Except Fault (VtFcall × Packet)
  | .rerror => do
    let (s, p) ← vtgetstring p
    return ({ f with error := some s }, p)
  | .thello => do
    let (version, p) ← vtgetstring p
    let (uid, p) ← vtgetstring p
    let (buf, p) ← packetconsume p 4 2
    let (crypto, p) ← unpackcodes g 0 (buf.1.getD 1 0) p
    let (buf', p) ← packetconsume p 4 1
    let (codec, p) ← unpackcodes g 1 (buf'.1.getD 0 0) p
    return ({ f with version := some version, uid := some uid, strength := buf.1.getD 0 0, crypto,
                     codec }, p)
  | .rhello => do
    let (sid, p) ← vtgetstring p
    let (buf, p) ← packetconsume p 4 2
    return ({ f with sid := some sid, rcrypto := buf.1.getD 0 0, rcodec := buf.1.getD 1 0 }, p)
  | .tread => do
    let (score, p) ← packetconsume p VtScoreSize VtScoreSize
    let (buf, p) ← packetconsume p 4 2
    let blocktype := UInt8.ofNat (vtfromdisktype (buf.1.getD 0 0).toNat)
    if isErrType blocktype then .error (.fail "")
    else if p.length = 2 then do
      let (buf, p) ← packetconsume p 4 2
      return ({ f with score, blocktype, count := .ofNat (ofLe buf.1.reverse) }, p)
    else if p.length = 4 then do
      let (buf, p) ← packetconsume p 4 4
      return ({ f with score, blocktype, count := .ofNat (ofLe buf.1.reverse) }, p)
    else .error (.fail "")
  | .rread => .ok ({ f with data := p }, [])
  | .twrite => do
    let (buf, p) ← packetconsume p 4 4
    let blocktype := UInt8.ofNat (vtfromdisktype (buf.1.getD 0 0).toNat)
    if isErrType blocktype then .error (.fail "")
    else .ok ({ f with blocktype, data := p }, [])
  | .rwrite => do
    let (score, p) ← packetconsume p VtScoreSize VtScoreSize
    return ({ f with score }, p)
  | .tping | .rping | .tgoodbye | .tsync | .rsync => .ok (f, p)

/-- The message in a packet, and what is left of the packet. -/
def vtfcallunpack (g : Garbage) (p : Packet) : Except Fault (VtFcall × Packet) := do
  let (buf, p) ← packetconsume p 4 2
  let f := { zeroFcall with msgtype := buf.1.getD 0 0, tag := buf.1.getD 1 0 }
  match MsgType.ofCode f.msgtype with
  | none =>
    .error (.fail ("vtfcallunpack: unknown bad packet type " ++ toString f.msgtype.toNat))
  | some t =>
    match unpackbody g f p t with
    | .error .overrun => .error .overrun
    | .error (.fail _) => .error (.fail "bad packet")
    | .ok (f, p) => if p.length ≠ 0 then .error (.fail "bad packet") else .ok (f, p)

/-! ## What is read -/

theorem packetappend_eq (p : Packet) {buf : List UInt8} {n : Int} (h : n = buf.length) :
    packetappend p buf n = p ++ buf := by
  rw [packetappend, h]
  split_ifs with h0
  · obtain rfl : buf = [] := eq_nil_of_length_eq_zero (by omega)
    rw [append_nil]
  · rw [Int.toNat_natCast, take_length]

variable {n cap : Nat} {bs : List UInt8}

theorem packetconsume_append (q : Packet) (hn : bs.length = n) (hcap : n ≤ cap) :
    packetconsume (bs ++ q) cap n = .ok (⟨bs, hn⟩, q) := by
  subst hn
  rw [packetconsume]
  split_ifs with h0 h1 h2 h3
  · obtain rfl := eq_nil_of_length_eq_zero h0
    rfl
  · rw [length_append] at h1
    omega
  · rw [length_append] at h2
    omega
  · omega
  · simp

variable {p q : Packet} {c : Codes}

/-- What `packetconsume` reads is the beginning of the packet. -/
theorem packetconsume_eq_ok {bs : { bs : List UInt8 // bs.length = n }}
    (h : packetconsume p cap n = .ok (bs, q)) : p = bs.1 ++ q := by
  rw [packetconsume] at h
  split_ifs at h with h0
  · simp only [Except.ok.injEq, Prod.mk.injEq] at h
    obtain ⟨rfl, rfl⟩ := h
    rfl
  · simp only [Except.ok.injEq, Prod.mk.injEq] at h
    obtain ⟨rfl, rfl⟩ := h
    simp

theorem packetconsume_overrun_iff :
    packetconsume p cap n = .error .overrun ↔ cap < n ∧ n ≤ p.length := by
  rw [packetconsume]
  split_ifs with h0 h1 h2 h3
  · exact iff_of_false nofun (by omega)
  · exact iff_of_false nofun (by omega)
  · exact iff_of_false nofun (by omega)
  · exact iff_of_true rfl (by omega)
  · exact iff_of_false nofun (by omega)

theorem packetconsume_ne_overrun (h : n ≤ cap) : packetconsume p cap n ≠ .error .overrun :=
  fun hover => absurd (packetconsume_overrun_iff.mp hover).1 (by omega)

theorem consumed_of_overrun {β : Type} {k : _ → Except Fault β}
    (h : packetconsume p cap n >>= k = .error .overrun) (hn : n ≤ cap) :
    ∃ a, packetconsume p cap n = .ok a ∧ k a = .error .overrun :=
  (bind_eq_error h).resolve_left (packetconsume_ne_overrun hn)

theorem ofLe_reverse_U16PUT (h : n < 2 ^ 16) : ofLe (U16PUT n).reverse = n := by
  rw [U16PUT, reverse_reverse, ofLe_le_of_lt (by omega)]

theorem U16PUT_ofLe (h : bs.length = 2) : U16PUT (ofLe bs.reverse) = bs := by
  have := le_ofLe bs.reverse
  rw [length_reverse, h] at this
  rw [U16PUT, this, reverse_reverse]

/-- A string in a packet. -/
def strBytes (s : List UInt8) : List UInt8 := U16PUT s.length ++ s

theorem vtputstring_eq_ok {p' : Packet} {s : Option CString} (h : vtputstring p s = .ok p') :
    ∃ s', s = some s' ∧ s'.1.length ≤ VtMaxStringSize ∧ p' = p ++ strBytes s'.1 := by
  rcases s with _ | s'
  · cases h
  · simp only [vtputstring] at h
    split_ifs at h with hlen
    refine ⟨s', rfl, by omega, ?_⟩
    rw [← Except.ok.inj h, packetappend_eq _ rfl, packetappend_eq _ (by simp), strBytes,
      append_assoc]

theorem toCString_eq (s : CString) : toCString s.1 = s := by
  refine Subtype.ext (takeWhile_eq_self_iff.mpr ?_)
  intro b hb
  have : b ≠ 0 := fun h => s.2 (h ▸ hb)
  simpa using this

theorem vtgetstring_strBytes (q : Packet) (h : bs.length ≤ VtMaxStringSize) :
    vtgetstring (strBytes bs ++ q) = .ok (toCString bs, q) := by
  have hlen : ofLe (U16PUT bs.length).reverse = bs.length :=
    ofLe_reverse_U16PUT (by rw [VtMaxStringSize] at h; omega)
  rw [vtgetstring, strBytes, append_assoc, packetconsume_append _ (by simp) le_rfl]
  simp only [bind, Except.bind]
  rw [if_neg (by omega), packetconsume_append _ hlen.symm (by omega)]
  rfl

theorem vtgetstring_append (s : CString) (q : Packet) (h : s.1.length ≤ VtMaxStringSize) :
    vtgetstring (strBytes s.1 ++ q) = .ok (s, q) := by
  rw [vtgetstring_strBytes q h, toCString_eq]

theorem ofLe_reverse_U32PUT (c : UInt32) : ofLe (U32PUT c.toNat).reverse = c.toNat := by
  have := c.toNat_lt
  rw [U32PUT, reverse_reverse, ofLe_le_of_lt (by omega)]
  omega

/-- A promoted byte has zeros above its eight bits, so that its complement is never zero. -/
theorem isErrType_eq_false (b : UInt8) : isErrType b = false := by
  rw [isErrType, beq_eq_false_iff_ne]
  intro h
  have hnat : b.toUInt32.toNat = 2 ^ 32 - 1 := by
    rw [← UInt32.not_not (a := b.toUInt32), h]
    rfl
  have := b.toNat_lt
  rw [toNat_toUInt32] at hnat
  omega

theorem vtfromdisktype_lt (n : Nat) : vtfromdisktype n < 256 := by
  rw [vtfromdisktype, getD_eq_getElem?_getD]
  rcases hn : fromdisk[n]? with _ | v
  · decide
  · have hv : ∀ v ∈ fromdisk, v < 256 := by decide
    exact hv v (mem_of_getElem? hn)

/-! ## Round trips -/

/-- `f'` has what a message like `f` carries. -/
def VtFcall.Same (f f' : VtFcall) (t : MsgType) : Prop :=
  f'.msgtype = f.msgtype ∧ f'.tag = f.tag ∧
    match t with
    | .rerror => f'.error = f.error
    | .thello => f'.version = f.version ∧ f'.uid = f.uid ∧ f'.strength = f.strength ∧
        f'.crypto.n = f.crypto.n ∧ f'.crypto.list = f.crypto.list ∧
        f'.codec.n = f.codec.n ∧ f'.codec.list = f.codec.list
    | .rhello => f'.sid = f.sid ∧ f'.rcrypto = f.rcrypto ∧ f'.rcodec = f.rcodec
    | .tread => f'.score = f.score ∧
        f'.blocktype.toNat = vtfromdisktype (vttodisktype f.blocktype.toNat) ∧ f'.count = f.count
    | .rread => f'.data = f.data
    | .twrite => f'.blocktype.toNat = vtfromdisktype (vttodisktype f.blocktype.toNat) ∧
        f'.data = f.data
    | .rwrite => f'.score = f.score
    | .tping | .rping | .tgoodbye | .tsync | .rsync => True

/-- The type that comes back for a block type. -/
theorem blocktype_roundTrips (b : UInt8) :
    (ofNat (vtfromdisktype (ofNat (vttodisktype b.toNat)).toNat)).toNat =
      vtfromdisktype (vttodisktype b.toNat) := by
  rw [toNat_ofNat_of_lt' (vtfromdisktype_lt _), toNat_ofNat_of_lt' (vttodisktype_lt _)]

theorem Codes.list_eq_nil (h : c.n = 0) : c.list = [] := by
  rw [Codes.list, h]
  rfl

variable {f : VtFcall}

/-- A message is its type, its tag and a body, which is unpacked as it was packed. -/
theorem vtfcallpack_body (h : vtfcallpack f = .ok p) :
    ∃ t, MsgType.ofCode f.msgtype = some t ∧
      ((t = .thello → f.crypto.n = 0 ∧ f.codec.n = 0) →
        ∃ body, p = [f.msgtype, f.tag] ++ body ∧ ∀ g f0, f0.msgtype = f.msgtype → f0.tag = f.tag →
          ∃ f', unpackbody g f0 body t = .ok (f', []) ∧ f.Same f' t) := by
  have hstart : packetappend [] [f.msgtype, f.tag] 2 = [f.msgtype, f.tag] := rfl
  cases ht : MsgType.ofCode f.msgtype with
  | none => simp [vtfcallpack, ht] at h
  | some t =>
    refine ⟨t, rfl, fun hempty => ?_⟩
    simp only [vtfcallpack, ht, hstart] at h
    cases t
    case rerror =>
      obtain ⟨s, hs, hlen, rfl⟩ := vtputstring_eq_ok h
      refine ⟨_, rfl, ?_⟩
      intro g f0 htype htag
      refine ⟨{ f0 with error := some s }, ?_, htype, htag, hs.symm⟩
      rw [unpackbody, ← append_nil (strBytes s.1), vtgetstring_append s [] hlen]
      rfl
    case thello =>
      obtain ⟨hcrypto, hcodec⟩ := hempty rfl
      obtain ⟨p1, h1, h⟩ := bind_eq_ok h
      obtain ⟨v, hv, hvlen, rfl⟩ := vtputstring_eq_ok h1
      obtain ⟨p2, h2, h⟩ := bind_eq_ok h
      obtain ⟨u, hu, hulen, rfl⟩ := vtputstring_eq_ok h2
      cases h
      refine ⟨strBytes v.1 ++ (strBytes u.1 ++ ([f.strength, 0] ++ ([0] ++ []))), ?_, ?_⟩
      · rw [hcrypto, hcodec]
        simp [packetappend]
      intro g f0 htype htag
      refine ⟨{ f0 with version := some v, uid := some u, strength := f.strength,
                        crypto := ⟨[], 0, by decide⟩, codec := ⟨[], 0, by decide⟩ }, ?_,
        htype, htag, hv.symm, hu.symm, rfl, hcrypto.symm, (Codes.list_eq_nil hcrypto).symm,
        hcodec.symm, (Codes.list_eq_nil hcodec).symm⟩
      rw [unpackbody, vtgetstring_append v _ hvlen]
      simp only [bind, Except.bind]
      rw [vtgetstring_append u _ hulen]
      rfl
    case rhello =>
      obtain ⟨p1, h1, h⟩ := bind_eq_ok h
      obtain ⟨s, hs, hlen, rfl⟩ := vtputstring_eq_ok h1
      cases h
      refine ⟨strBytes s.1 ++ ([f.rcrypto, f.rcodec] ++ []), ?_, ?_⟩
      · simp [packetappend]
      · intro g f0 htype htag
        refine ⟨{ f0 with sid := some s, rcrypto := f.rcrypto, rcodec := f.rcodec }, ?_, htype,
          htag, hs.symm, rfl, rfl⟩
        rw [unpackbody, vtgetstring_append s _ hlen]
        rfl
    case tread =>
      have hscore : packetappend [f.msgtype, f.tag] f.score.1 VtScoreSize =
          [f.msgtype, f.tag] ++ f.score.1 := packetappend_eq _ (by rw [f.score.2])
      obtain ⟨b, hb⟩ : ∃ b, b = ofNat (vttodisktype f.blocktype.toNat) := ⟨_, rfl⟩
      simp only [isErrType_eq_false, Bool.false_eq_true, if_false, hscore, ← hb] at h
      have hback := blocktype_roundTrips f.blocktype
      rw [← hb] at hback
      -- the width of the count is told from what is left of the packet
      split_ifs at h with hcount
      · cases h
        refine ⟨f.score.1 ++ ([b, 0] ++ (U32PUT f.count.toNat ++ [])), ?_, ?_⟩
        · rw [packetappend_eq _ (by simp)]
          simp
        intro g f0 htype htag
        rw [unpackbody, packetconsume_append _ f.score.2 le_rfl]
        simp only [bind, Except.bind]
        rw [packetconsume_append _ (show [b, 0].length = 2 from rfl) (by decide)]
        simp only [isErrType_eq_false, Bool.false_eq_true, if_false]
        rw [if_neg (by simp), if_pos (by simp), packetconsume_append _ (length_U32PUT _) le_rfl]
        refine ⟨_, rfl, htype, htag, rfl, hback, ?_⟩
        simp only [ofLe_reverse_U32PUT, UInt32.ofNat_toNat]
      · cases h
        refine ⟨f.score.1 ++ ([b, 0] ++ (U16PUT f.count.toNat ++ [])), ?_, ?_⟩
        · rw [packetappend_eq _ (by simp)]
          simp
        intro g f0 htype htag
        rw [unpackbody, packetconsume_append _ f.score.2 le_rfl]
        simp only [bind, Except.bind]
        rw [packetconsume_append _ (show [b, 0].length = 2 from rfl) (by decide)]
        simp only [isErrType_eq_false, Bool.false_eq_true, if_false]
        rw [if_pos (by simp), packetconsume_append _ (length_U16PUT _) (by decide)]
        refine ⟨_, rfl, htype, htag, rfl, hback, ?_⟩
        simp only [ofLe_reverse_U16PUT (show f.count.toNat < 2 ^ 16 by omega), UInt32.ofNat_toNat]
    case rread =>
      cases h
      exact ⟨_, rfl, fun g f0 htype htag => ⟨_, rfl, htype, htag, rfl⟩⟩
    case twrite =>
      obtain ⟨b, hb⟩ : ∃ b, b = ofNat (vttodisktype f.blocktype.toNat) := ⟨_, rfl⟩
      have hback := blocktype_roundTrips f.blocktype
      simp only [isErrType_eq_false, Bool.false_eq_true, if_false] at h
      rw [← hb] at h hback
      cases h
      refine ⟨[b, 0, 0, 0] ++ f.data, rfl, ?_⟩
      intro g f0 htype htag
      rw [unpackbody, packetconsume_append _ (show [b, 0, 0, 0].length = 4 from rfl) le_rfl]
      simp only [bind, Except.bind, isErrType_eq_false]
      exact ⟨_, rfl, htype, htag, hback, rfl⟩
    case rwrite =>
      cases h
      refine ⟨f.score.1 ++ [], ?_, ?_⟩
      · rw [packetappend_eq _ (by rw [f.score.2]), append_nil]
      · intro g f0 htype htag
        rw [unpackbody, packetconsume_append _ f.score.2 le_rfl]
        exact ⟨_, rfl, htype, htag, rfl⟩
    all_goals
      cases h
      exact ⟨[], rfl, fun g f0 htype htag => ⟨f0, rfl, htype, htag, trivial⟩⟩

theorem vtfcallunpack_vtfcallpack (h : vtfcallpack f = .ok p)
    (hempty : f.msgtype = MsgType.thello.code → f.crypto.n = 0 ∧ f.codec.n = 0) (g : Garbage) :
    ∃ t f', MsgType.ofCode f.msgtype = some t ∧ vtfcallunpack g p = .ok (f', []) ∧ f.Same f' t := by
  obtain ⟨t, ht, hbody⟩ := vtfcallpack_body h
  obtain ⟨body, rfl, hunpack⟩ := hbody (by
    rintro rfl
    exact hempty (MsgType.code_of_ofCode ht).symm)
  obtain ⟨f', hrun, hsame⟩ :=
    hunpack g { zeroFcall with msgtype := f.msgtype, tag := f.tag } rfl rfl
  refine ⟨t, f', ht, ?_, hsame⟩
  rw [vtfcallunpack, packetconsume_append body (show [f.msgtype, f.tag].length = 2 from rfl)
    (by decide)]
  simp [bind, Except.bind, ht, hrun]

/-- The lists of a `Thello` are what the allocated memory holds. -/
theorem list_of_unpackcodes {i : Nat} {n : UInt8} {g : Garbage}
    (h : unpackcodes g i n p = .ok (c, q)) : c.list = vtmalloc g i c.n.toNat := by
  rw [unpackcodes] at h
  split_ifs at h
  · obtain ⟨_, -, h⟩ := bind_eq_ok h
    cases h
    exact take_of_length_le (by simp [length_vtmalloc])
  · cases h
    rfl

theorem lists_of_unpackbody {f' : VtFcall} {g : Garbage}
    (h : unpackbody g f p .thello = .ok (f', q)) :
    f'.crypto.list = vtmalloc g 0 f'.crypto.n.toNat ∧
      f'.codec.list = vtmalloc g 1 f'.codec.n.toNat := by
  obtain ⟨_, -, h⟩ := bind_eq_ok h
  obtain ⟨_, -, h⟩ := bind_eq_ok h
  obtain ⟨_, -, h⟩ := bind_eq_ok h
  obtain ⟨_, hcrypto, h⟩ := bind_eq_ok h
  obtain ⟨_, -, h⟩ := bind_eq_ok h
  obtain ⟨_, hcodec, h⟩ := bind_eq_ok h
  cases h
  exact ⟨list_of_unpackcodes hcrypto, list_of_unpackcodes hcodec⟩

/-- What a `Thello` is packed as begins with its type, and so it is unpacked as a `Thello`. -/
theorem unpackbody_of_thello {f' : VtFcall} {g : Garbage} (h : vtfcallpack f = .ok p)
    (hhello : f.msgtype = MsgType.thello.code) (hrun : vtfcallunpack g p = .ok (f', q)) :
    ∃ f0 body, unpackbody g f0 body .thello = .ok (f', q) := by
  have ht : MsgType.ofCode MsgType.thello.code = some .thello := rfl
  have happend : ∀ (p : Packet) buf n, p <+: packetappend p buf n := fun p buf n => by
    rw [packetappend]
    split_ifs
    · exact prefix_refl p
    · exact prefix_append _ _
  obtain ⟨body, rfl⟩ : [MsgType.thello.code, f.tag] <+: p := by
    simp only [vtfcallpack, hhello, ht] at h
    obtain ⟨p1, h1, h⟩ := bind_eq_ok h
    obtain ⟨v, -, -, rfl⟩ := vtputstring_eq_ok h1
    obtain ⟨p2, h2, h⟩ := bind_eq_ok h
    obtain ⟨u, -, -, rfl⟩ := vtputstring_eq_ok h2
    cases h
    refine .trans ?_ (.trans (happend _ _ _) (.trans (happend _ _ _) (.trans (happend _ _ _)
      (happend _ _ _))))
    exact ⟨strBytes v.1 ++ strBytes u.1, (append_assoc _ _ _).symm⟩
  have hstart := packetconsume_append body (show [MsgType.thello.code, f.tag].length = 2 from rfl)
    (show 2 ≤ 4 by decide)
  rw [vtfcallunpack, hstart] at hrun
  simp only [bind, Except.bind, getD_cons_zero, ht] at hrun
  split at hrun
  · cases hrun
  · cases hrun
  · next hbody =>
    split_ifs at hrun
    cases hrun
    exact ⟨_, _, hbody⟩

/-- Lists that come back whatever allocated memory holds are empty. -/
theorem codes_empty (h : vtfcallpack f = .ok p) (hhello : f.msgtype = MsgType.thello.code)
    (hall : ∀ g, ∃ t f', MsgType.ofCode f.msgtype = some t ∧ vtfcallunpack g p = .ok (f', []) ∧
      f.Same f' t) : f.crypto.n = 0 ∧ f.codec.n = 0 := by
  have hlists : ∀ b : UInt8, f.crypto.list = replicate f.crypto.n.toNat b ∧
      f.codec.list = replicate f.codec.n.toNat b := by
    intro b
    obtain ⟨t, f', ht, hrun, -, -, hsame⟩ := hall fun _ _ => b
    obtain rfl : MsgType.thello = t := Option.some.inj (.trans (by rw [hhello]; rfl) ht)
    obtain ⟨f0, body, hbody⟩ := unpackbody_of_thello h hhello hrun
    obtain ⟨hcrypto, hcodec⟩ := lists_of_unpackbody hbody
    obtain ⟨-, -, -, hn, hlist, hn', hlist'⟩ := hsame
    rw [hlist, hn] at hcrypto
    rw [hlist', hn'] at hcodec
    exact ⟨hcrypto.trans (by simp [vtmalloc]), hcodec.trans (by simp [vtmalloc])⟩
  have hzero : ∀ (n : UInt32) (l : List UInt8), (∀ b, l = replicate n.toNat b) → n = 0 := by
    intro n l hl
    have heq := (hl 0).symm.trans (hl 1)
    rw [replicate_inj] at heq
    exact UInt32.toNat_inj.mp (heq.2.resolve_right (by decide))
  exact ⟨hzero _ _ fun b => (hlists b).1, hzero _ _ fun b => (hlists b).2⟩

/-! ## Packets from elsewhere -/

/-- A list of `n` codes that is all there, at the beginning of `p`, and does not fit `buf`. -/
def LongList (n : UInt8) (p : Packet) : Prop := 4 < n.toNat ∧ n.toNat ≤ p.length

/-- The body of a `Thello` with a list that does not fit. -/
def LongBody (p : Packet) : Prop :=
  ∃ version uid strength n rest, version.length ≤ VtMaxStringSize ∧
    uid.length ≤ VtMaxStringSize ∧
    p = strBytes version ++ (strBytes uid ++ ([strength, n] ++ rest)) ∧
    (LongList n rest ∨
      ∃ list k rest', rest = list ++ ([k] ++ rest') ∧ list.length = n.toNat ∧ LongList k rest')

/-- A `Thello` with a list that does not fit. -/
def LongHello (p : Packet) : Prop :=
  ∃ tag body, p = [MsgType.thello.code, tag] ++ body ∧ LongBody body

/-- The disk type in a packet of one of the two types that have one. -/
def diskType (p : Packet) : Option UInt8 :=
  match p.head?.bind MsgType.ofCode with
  | some .tread => p[2 + VtScoreSize]?
  | some .twrite => p[2]?
  | _ => none

/-- A read has a count of two or four bytes, a write any data. -/
def SizeOk (p : Packet) : Prop :=
  match p.head?.bind MsgType.ofCode with
  | some .tread => p.length = 26 ∨ p.length = 28
  | _ => 6 ≤ p.length

theorem vtgetstring_eq_ok {s : CString} (h : vtgetstring p = .ok (s, q)) :
    ∃ bs, bs.length ≤ VtMaxStringSize ∧ p = strBytes bs ++ q := by
  obtain ⟨⟨buf, p1⟩, hbuf, hrest⟩ := bind_eq_ok h
  simp only at hrest
  split_ifs at hrest with hlen
  obtain ⟨⟨bs, p2⟩, hbs, hdone⟩ := bind_eq_ok hrest
  cases hdone
  refine ⟨bs.1, by rw [bs.2]; omega, ?_⟩
  rw [strBytes, bs.2, U16PUT_ofLe buf.2, append_assoc, packetconsume_eq_ok hbuf,
    packetconsume_eq_ok hbs]

theorem vtgetstring_ne_overrun (p : Packet) : vtgetstring p ≠ .error .overrun := by
  intro h
  obtain ⟨⟨buf, p1⟩, -, hrest⟩ := consumed_of_overrun h le_rfl
  simp only at hrest
  split_ifs at hrest with hlen
  · cases hrest
  · obtain ⟨_, -, hdone⟩ := consumed_of_overrun hrest (Nat.le_succ _)
    cases hdone

variable {g : Garbage} {i : Nat}

theorem unpackcodes_overrun_iff {n : UInt8} :
    unpackcodes g i n p = .error .overrun ↔ LongList n p := by
  rw [unpackcodes, LongList, ← packetconsume_overrun_iff]
  split_ifs with h0
  · constructor
    · intro h
      exact (bind_eq_error h).resolve_right fun ⟨_, _, h⟩ => by cases h
    · intro h
      rw [h]
      rfl
  · obtain rfl : n = 0 := not_not.mp h0
    exact iff_of_false nofun nofun

theorem unpackcodes_eq_ok {n : UInt8} (h : unpackcodes g i n p = .ok (c, q)) :
    ∃ bs, bs.length = n.toNat ∧ p = bs ++ q := by
  rw [unpackcodes] at h
  split_ifs at h with h0
  · obtain ⟨⟨bs, p1⟩, h1, h⟩ := bind_eq_ok h
    cases h
    exact ⟨bs.1, bs.2, packetconsume_eq_ok h1⟩
  · cases h
    obtain rfl : n = 0 := not_not.mp h0
    exact ⟨[], rfl, rfl⟩

theorem unpackbody_of_longBody (h : LongBody p) : unpackbody g f p .thello = .error .overrun := by
  obtain ⟨version, uid, strength, n, rest, hv, hu, rfl, hlist⟩ := h
  rw [unpackbody, vtgetstring_strBytes _ hv]
  simp only [bind, Except.bind]
  rw [vtgetstring_strBytes _ hu]
  simp only
  rw [packetconsume_append _ (show [strength, n].length = 2 from rfl) (by decide)]
  simp only [getD_cons_succ, getD_cons_zero]
  by_cases hlong : LongList n rest
  · rw [unpackcodes_overrun_iff.mpr hlong]
  obtain ⟨list, k, rest', rfl, hlen, hk⟩ := hlist.resolve_left hlong
  have hn : list.length ≤ 4 := by
    rw [LongList, ← hlen, length_append] at hlong
    omega
  have hcodes : ∃ c, unpackcodes g 0 n (list ++ ([k] ++ rest')) = .ok (c, [k] ++ rest') := by
    rw [unpackcodes]
    split_ifs with h0
    · rw [packetconsume_append _ hlen (by omega)]
      exact ⟨_, rfl⟩
    · obtain rfl : n = 0 := not_not.mp h0
      obtain rfl := eq_nil_of_length_eq_zero hlen
      exact ⟨_, rfl⟩
  obtain ⟨c, hc⟩ := hcodes
  rw [hc]
  simp only
  rw [packetconsume_append _ (show [k].length = 1 from rfl) (by decide)]
  simp only [getD_cons_zero]
  rw [unpackcodes_overrun_iff.mpr hk]

/-- Only the lists of a `Thello` can fail to fit. -/
theorem unpackbody_eq_overrun (h : unpackbody g f p t = .error .overrun) :
    t = .thello ∧ LongBody p := by
  cases t
  case thello =>
    refine ⟨rfl, ?_⟩
    obtain ⟨⟨version, p1⟩, hv, h1⟩ := (bind_eq_error h).resolve_left (vtgetstring_ne_overrun _)
    obtain ⟨⟨uid, p2⟩, hu, h2⟩ := (bind_eq_error h1).resolve_left (vtgetstring_ne_overrun _)
    obtain ⟨⟨⟨buf, htwo⟩, p3⟩, hbuf, h3⟩ := consumed_of_overrun h2 (by decide)
    obtain ⟨vs, hvlen, hp⟩ := vtgetstring_eq_ok hv
    obtain ⟨us, hulen, hp1⟩ := vtgetstring_eq_ok hu
    have hp2 := packetconsume_eq_ok hbuf
    obtain ⟨strength, n, rfl⟩ := length_eq_two.mp htwo
    refine ⟨vs, us, strength, n, p3, hvlen, hulen, by rw [hp, hp1, hp2], ?_⟩
    rcases bind_eq_error h3 with hover | ⟨⟨crypto, p4⟩, hcrypto, h4⟩
    · exact Or.inl (unpackcodes_overrun_iff.mp hover)
    right
    obtain ⟨list, hlist, hp3⟩ := unpackcodes_eq_ok hcrypto
    obtain ⟨⟨⟨buf', hone⟩, p5⟩, hbuf', h5⟩ := consumed_of_overrun h4 (by decide)
    have hp4 := packetconsume_eq_ok hbuf'
    obtain ⟨k, rfl⟩ := length_eq_one_iff.mp hone
    rcases bind_eq_error h5 with hover | ⟨_, -, hdone⟩
    · exact ⟨list, k, p5, by rw [hp3, hp4], hlist, unpackcodes_overrun_iff.mp hover⟩
    · cases hdone
  case rerror =>
    obtain ⟨_, -, hdone⟩ := (bind_eq_error h).resolve_left (vtgetstring_ne_overrun _)
    cases hdone
  case rhello =>
    obtain ⟨_, -, h1⟩ := (bind_eq_error h).resolve_left (vtgetstring_ne_overrun _)
    obtain ⟨_, -, hdone⟩ := consumed_of_overrun h1 (by decide)
    cases hdone
  case tread =>
    obtain ⟨_, -, h1⟩ := consumed_of_overrun h le_rfl
    obtain ⟨_, -, h2⟩ := consumed_of_overrun h1 (by decide)
    simp only at h2
    split_ifs at h2
    · cases h2
    · obtain ⟨_, -, hdone⟩ := consumed_of_overrun h2 (by decide)
      cases hdone
    · obtain ⟨_, -, hdone⟩ := consumed_of_overrun h2 (by decide)
      cases hdone
    · cases h2
  case twrite =>
    obtain ⟨_, -, h1⟩ := consumed_of_overrun h (by decide)
    simp only at h1
    split_ifs at h1
    cases h1
  case rwrite =>
    obtain ⟨_, -, hdone⟩ := consumed_of_overrun h le_rfl
    cases hdone
  all_goals cases h

/-- A store past the end of `buf` is a list of a `Thello` that does not fit. -/
theorem vtfcallunpack_overrun_iff (g : Garbage) :
    vtfcallunpack g p = .error .overrun ↔ LongHello p := by
  constructor
  · intro hover
    obtain ⟨⟨⟨buf, htwo⟩, p1⟩, hbuf, hrest⟩ := consumed_of_overrun hover (by decide)
    have hp := packetconsume_eq_ok hbuf
    obtain ⟨type, tag, rfl⟩ := length_eq_two.mp htwo
    simp only at hrest
    split at hrest
    · cases hrest
    next t ht =>
    split at hrest
    · next hbody =>
      obtain ⟨rfl, hlong⟩ := unpackbody_eq_overrun hbody
      obtain rfl : type = MsgType.thello.code := (MsgType.code_of_ofCode ht).symm
      exact ⟨tag, p1, hp, hlong⟩
    · cases hrest
    · split_ifs at hrest
      cases hrest
  · rintro ⟨tag, body, rfl, hlong⟩
    have ht : MsgType.ofCode MsgType.thello.code = some .thello := rfl
    have hstart := packetconsume_append body (show [MsgType.thello.code, tag].length = 2 from rfl)
      (show 2 ≤ 4 by decide)
    rw [vtfcallunpack, hstart]
    simp only [bind, Except.bind, getD_cons_zero, ht, unpackbody_of_longBody hlong]

theorem packetconsume_short (h : p.length < n) (cap : Nat) :
    ∃ msg, packetconsume p cap n = .error (.fail msg) := by
  rw [packetconsume, dif_neg (by omega)]
  split_ifs with h1
  · exact ⟨_, rfl⟩
  · exact ⟨_, rfl⟩

/-- The body of a read is unpacked exactly if its count has two or four bytes. -/
theorem unpackbody_tread (g : Garbage) (f : VtFcall) (score : Score) (r : Packet) :
    if r.length = 4 ∨ r.length = 6 then ∃ f', unpackbody g f (score.1 ++ r) .tread = .ok (f', [])
    else ∃ msg, unpackbody g f (score.1 ++ r) .tread = .error (.fail msg) := by
  rw [unpackbody, packetconsume_append r score.2 le_rfl]
  simp only [bind, Except.bind]
  rcases lt_or_ge r.length 2 with hshort | hlong
  · obtain ⟨msg, hmsg⟩ := packetconsume_short hshort 4
    rw [if_neg (by omega), hmsg]
    exact ⟨msg, rfl⟩
  have htwo : (r.take 2).length = 2 := length_take_of_le hlong
  have hdrop : (r.drop 2).length = r.length - 2 := length_drop
  have hhead := packetconsume_append (r.drop 2) htwo (show 2 ≤ 4 by decide)
  rw [take_append_drop] at hhead
  simp only [hhead, isErrType_eq_false, Bool.false_eq_true, if_false]
  have hcount : ∀ n ≤ 4, ∀ hlen : (r.drop 2).length = n,
      packetconsume (r.drop 2) 4 n = .ok (⟨r.drop 2, hlen⟩, []) := by
    intro n hn hlen
    have h := packetconsume_append [] hlen hn
    rwa [append_nil] at h
  split_ifs with hsize h2 h4 h2 h4
  · rw [hcount 2 (by decide) h2]
    exact ⟨_, rfl⟩
  · rw [hcount 4 (by decide) h4]
    exact ⟨_, rfl⟩
  · omega
  · omega
  · omega
  · exact ⟨_, rfl⟩

/-- The body of a write is unpacked exactly if it has a header. -/
theorem unpackbody_twrite (g : Garbage) (f : VtFcall) (r : Packet) :
    if 4 ≤ r.length then ∃ f', unpackbody g f r .twrite = .ok (f', [])
    else ∃ msg, unpackbody g f r .twrite = .error (.fail msg) := by
  rw [unpackbody]
  split_ifs with hlen
  · have hfour : (r.take 4).length = 4 := length_take_of_le hlen
    have hhead := packetconsume_append (r.drop 4) hfour le_rfl
    rw [take_append_drop] at hhead
    simp only [bind, Except.bind, hhead, isErrType_eq_false]
    exact ⟨_, rfl⟩
  · obtain ⟨msg, hmsg⟩ := packetconsume_short (Nat.lt_of_not_le hlen) 4
    rw [hmsg]
    exact ⟨msg, rfl⟩

/-- A body decides whether a packet is accepted. -/
theorem vtfcallunpack_cons (g : Garbage) {type tag : UInt8} (r : Packet)
    (ht : MsgType.ofCode type = some t) {P : Prop} [Decidable P]
    (h : if P then
        ∃ f', unpackbody g { zeroFcall with msgtype := type, tag := tag } r t = .ok (f', [])
      else ∃ msg, unpackbody g { zeroFcall with msgtype := type, tag := tag } r t =
        .error (.fail msg)) :
    (∃ msg, vtfcallunpack g (type :: tag :: r) = .error (.fail msg)) ↔ ¬ P := by
  have hstart := packetconsume_append r (show [type, tag].length = 2 from rfl)
    (show 2 ≤ 4 by decide)
  split_ifs at h with hP
  · obtain ⟨f', hbody⟩ := h
    rw [vtfcallunpack, show type :: tag :: r = [type, tag] ++ r from rfl, hstart]
    simp [bind, Except.bind, ht, hbody, hP]
  · obtain ⟨msg, hbody⟩ := h
    rw [vtfcallunpack, show type :: tag :: r = [type, tag] ++ r from rfl, hstart]
    simp [bind, Except.bind, ht, hbody, hP]

/-- A read or write is rejected exactly if its size is wrong, whatever its disk type. -/
theorem vtfcallunpack_rejects (hb : diskType p = some b) (g : Garbage) :
    (∃ msg, vtfcallunpack g p = .error (.fail msg)) ↔ ¬ SizeOk p := by
  rcases p with _ | ⟨type, p⟩
  · cases hb
  rcases p with _ | ⟨tag, r⟩
  · simp only [diskType, List.head?_cons, Option.bind_some] at hb
    split at hb <;> simp [VtScoreSize] at hb
  simp only [diskType, SizeOk, List.head?_cons, Option.bind_some, List.length_cons] at hb ⊢
  split at hb
  · next ht =>
    have hlen : VtScoreSize ≤ r.length := by
      have := (List.getElem?_eq_some_iff.mp hb).1
      simp only [List.length_cons] at this
      omega
    have hscore : (r.take VtScoreSize).length = VtScoreSize := List.length_take_of_le hlen
    have hbody := unpackbody_tread g { zeroFcall with msgtype := type, tag := tag }
      ⟨r.take VtScoreSize, hscore⟩ (r.drop VtScoreSize)
    rw [List.take_append_drop] at hbody
    rw [vtfcallunpack_cons g r ht hbody, List.length_drop, ht, VtScoreSize]
    rw [VtScoreSize] at hlen
    simp only
    omega
  · next ht =>
    rw [vtfcallunpack_cons g r ht (unpackbody_twrite g _ r), ht]
    simp only
    omega
  · cases hb

/-- **Venti messages.** What is packed is unpacked, whatever allocated memory holds, unless it is a
`Thello` with lists that are not empty. A packet from elsewhere is unpacked into the buffers that
are there unless it is a `Thello` with a list that does not fit; and a read or write, also one of an
illegal type, is rejected if its size is wrong and only then. -/
theorem vtfcall_roundTrips (f : VtFcall) (g : Garbage) (packet : List UInt8) :
    (∀ p, vtfcallpack f = .ok p →
      ((∀ g', ∃ t f', MsgType.ofCode f.msgtype = some t ∧ vtfcallunpack g' p = .ok (f', []) ∧
        f.Same f' t) ↔ (f.msgtype = MsgType.thello.code → f.crypto.n = 0 ∧ f.codec.n = 0))) ∧
    (vtfcallunpack g packet ≠ .error .overrun ↔ ¬ LongHello packet) ∧
    ∀ b, diskType packet = some b →
      ((∃ msg, vtfcallunpack g packet = .error (.fail msg)) ↔ ¬ SizeOk packet) := by
  refine ⟨fun p h => ⟨?_, fun hempty => vtfcallunpack_vtfcallpack h hempty⟩, ?_, ?_⟩
  · intro hall hhello
    exact codes_empty h hhello hall
  · exact not_congr (vtfcallunpack_overrun_iff g)
  · intro b hb
    exact vtfcallunpack_rejects hb g

theorem vtfcall_roundTrips_error :
    let f : VtFcall := { zeroFcall with
      msgtype := 1, tag := 7, error := some ⟨[110, 111], by decide⟩ }
    ∀ g, ∃ t f', MsgType.ofCode f.msgtype = some t ∧
      vtfcallunpack g [1, 7, 0, 2, 110, 111] = .ok (f', []) ∧ f.Same f' t := by
  intro f
  exact ((vtfcall_roundTrips f (fun _ _ => 0) []).1 _ (by decide)).mpr (by decide)

/-- A `Thello` with one crypto suite comes back with another; one with five is stored past the end
of `buf`; and a write of the disk type 0, which is illegal, is accepted. -/
theorem vtfcall_lost :
    let g : Garbage := fun _ _ => 0
    let f : VtFcall :=
      { zeroFcall with
        msgtype := 4, version := some ⟨[], by decide⟩, uid := some ⟨[], by decide⟩
        crypto := ⟨[1], 1, by decide⟩ }
    let f5 : VtFcall := { f with crypto := ⟨[1, 1, 1, 1, 1], 5, by decide⟩ }
    (∃ p f', vtfcallpack f = .ok p ∧ vtfcallunpack g p = .ok (f', []) ∧ f.crypto.list = [1] ∧
      f'.crypto.list = [0]) ∧
    (∃ p, vtfcallpack f5 = .ok p ∧ vtfcallunpack g p = .error .overrun) ∧
    (diskType [14, 0, 0, 0, 0, 0] = some 0 ∧ vtfromdisktype 0 = VtCorruptType ∧
      ∃ f', vtfcallunpack g [14, 0, 0, 0, 0, 0] = .ok (f', [])) := by
  refine ⟨⟨_, _, rfl, rfl, rfl, rfl⟩, ⟨_, rfl, rfl⟩, rfl, rfl, ⟨_, rfl⟩⟩

end Plan9Port.Venti
