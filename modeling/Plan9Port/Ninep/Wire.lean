import Plan9Port.Ninep.Fcall

/-!
# The 9P message layouts

What a 9P message is on the wire, as one table. A message is a list of `Field`s, each an integer
of a fixed width or a byte string preceded by its length; `fields` lists them for each message
type. `sizeS2M`, `convS2M` and `convM2S` each spell the same layouts out by hand, and are measured
against this table in the following modules.
-/

namespace Plan9Port.Ninep

open Memory LittleEndian List

/-- A part of a message. -/
inductive Field
  /-- An integer of `w` bytes. -/
  | num (w v : Nat)
  /-- A string of bytes after its length in `w` bytes. -/
  | blob (w : Nat) (bs : List UInt8)
  deriving DecidableEq, Repr

/-- The bytes of a part. -/
def Field.bytes : Field → List UInt8
  | .num w v => le w v
  | .blob w bs => le w bs.length ++ bs

/-- The part can be read back: its integer, or its length, fits its width. -/
def Field.Fits : Field → Prop
  | .num w v => v < 256 ^ w
  | .blob w bs => bs.length < 256 ^ w

@[simp] theorem Field.fits_num {w v : Nat} : (Field.num w v).Fits ↔ v < 256 ^ w := Iff.rfl

@[simp] theorem Field.fits_blob {w : Nat} {bs : List UInt8} :
    (Field.blob w bs).Fits ↔ bs.length < 256 ^ w := Iff.rfl

/-- The bytes of consecutive parts. -/
def wire (fs : List Field) : List UInt8 :=
  fs.flatMap Field.bytes

@[simp] theorem wire_nil : wire [] = [] := rfl

@[simp] theorem wire_cons (x : Field) (fs : List Field) : wire (x :: fs) = x.bytes ++ wire fs := rfl

@[simp] theorem wire_append (fs gs : List Field) : wire (fs ++ gs) = wire fs ++ wire gs :=
  flatMap_append

@[simp] theorem Field.length_bytes_num (w v : Nat) : (Field.num w v).bytes.length = w :=
  length_le w v

@[simp] theorem Field.length_bytes_blob (w : Nat) (bs : List UInt8) :
    (Field.blob w bs).bytes.length = w + bs.length := by
  simp [Field.bytes]

/-- What the pointers of a message stand for: the strings, and the data of a given length. -/
structure View where
  str : Nat → List UInt8
  data : Nat → Nat → List UInt8

/-- The contents of a string that may be missing: `nil` counts as the empty string. -/
def strBytes (m : Mem) (s : Nat) : List UInt8 :=
  if s = nil then [] else cstring m s

/-- What pointers stand for in a memory. -/
def view (m : Mem) : View :=
  ⟨strBytes m, slice m⟩

variable {m : Mem} {s : Nat} {t : MsgType}

theorem strBytes_nil (h : s = nil) : (view m).str s = [] := if_pos h

theorem CStr.strBytes_eq {bs : List UInt8} (h : CStr m s bs) (hs : s ≠ nil) : (view m).str s = bs :=
  (if_neg hs).trans h.cstring_eq

theorem nul_free_strBytes (h : s ≠ nil → ∃ bs, CStr m s bs) : 0 ∉ (view m).str s := by
  by_cases hs : s = nil
  · rw [strBytes_nil hs]
    exact not_mem_nil
  · obtain ⟨bs, hbs⟩ := h hs
    rw [hbs.strBytes_eq hs]
    exact hbs.nul_free

/-- A string on the wire. -/
def strField (v : View) (s : Nat) : Field :=
  .blob BIT16SZ (v.str s)

/-- A qid on the wire. -/
def qidFields (q : Qid) : List Field :=
  [.num BIT8SZ q.type.toNat, .num BIT32SZ q.vers.toNat, .num BIT64SZ q.path.toNat]

/-- The names of a walk. -/
def Fcall.wnames (f : Fcall) : List Nat :=
  f.wname.toList.take f.nwname.toNat

/-- The qids of a walk. -/
def Fcall.wqids (f : Fcall) : List Qid :=
  f.wqid.toList.take f.nwqid.toNat

/-- **The layouts**: what follows the size, the type and the tag, for each message type. -/
def fields (v : View) (f : Fcall) : MsgType → List Field
  | .tversion | .rversion => [.num BIT32SZ f.msize.toNat, strField v f.version]
  | .tflush => [.num BIT16SZ f.oldtag.toNat]
  | .tauth => [.num BIT32SZ f.afid.toNat, strField v f.uname, strField v f.aname]
  | .tattach =>
    [.num BIT32SZ f.fid.toNat, .num BIT32SZ f.afid.toNat, strField v f.uname, strField v f.aname]
  | .twalk =>
    [.num BIT32SZ f.fid.toNat, .num BIT32SZ f.newfid.toNat, .num BIT16SZ f.nwname.toNat] ++
      f.wnames.map (strField v)
  | .topen | .topenfd => [.num BIT32SZ f.fid.toNat, .num BIT8SZ f.mode.toNat]
  | .tcreate =>
    [.num BIT32SZ f.fid.toNat, strField v f.name, .num BIT32SZ f.perm.toNat,
      .num BIT8SZ f.mode.toNat]
  | .tread =>
    [.num BIT32SZ f.fid.toNat, .num BIT64SZ f.offset.toUInt64.toNat, .num BIT32SZ f.count.toNat]
  | .twrite =>
    [.num BIT32SZ f.fid.toNat, .num BIT64SZ f.offset.toUInt64.toNat,
      .blob BIT32SZ (v.data f.data f.count.toNat)]
  | .tclunk | .tremove | .tstat => [.num BIT32SZ f.fid.toNat]
  | .twstat => [.num BIT32SZ f.fid.toNat, .blob BIT16SZ (v.data f.stat f.nstat.toNat)]
  | .rerror => [strField v f.ename]
  | .rflush | .rclunk | .rremove | .rwstat => []
  | .rauth => qidFields f.aqid
  | .rattach => qidFields f.qid
  | .rwalk => .num BIT16SZ f.nwqid.toNat :: f.wqids.flatMap qidFields
  | .ropen | .rcreate => qidFields f.qid ++ [.num BIT32SZ f.iounit.toNat]
  | .ropenfd =>
    qidFields f.qid ++ [.num BIT32SZ f.iounit.toNat, .num BIT32SZ f.unixfd.toUInt32.toNat]
  | .rread => [.blob BIT32SZ (v.data f.data f.count.toNat)]
  | .rwrite => [.num BIT32SZ f.count.toNat]
  | .rstat => [.blob BIT16SZ (v.data f.stat f.nstat.toNat)]

/-- What precedes the fields: the size of the whole message, its type and its tag. -/
def header (size : Nat) (f : Fcall) : List Field :=
  [.num BIT32SZ size, .num BIT8SZ f.type.toNat, .num BIT16SZ f.tag.toNat]

/-- The strings that a message type carries. -/
def Fcall.strings (f : Fcall) : MsgType → List Nat
  | .tversion | .rversion => [f.version]
  | .tauth | .tattach => [f.uname, f.aname]
  | .twalk => f.wnames
  | .tcreate => [f.name]
  | .rerror => [f.ename]
  | _ => []

/-- The counted data that a message type carries, as pointer and length. -/
def Fcall.blobs (f : Fcall) : MsgType → List (Nat × Nat)
  | .twrite | .rread => [(f.data, f.count.toNat)]
  | .twstat | .rstat => [(f.stat, f.nstat.toNat)]
  | _ => []

/-- The qids that a message type carries. -/
def Fcall.qids (f : Fcall) : MsgType → List Qid
  | .rauth => [f.aqid]
  | .rattach | .ropen | .rcreate | .ropenfd => [f.qid]
  | .rwalk => f.wqids
  | _ => []

/-- A layout depends on the memory only through its strings and data. -/
theorem fields_congr {v v' : View} {f : Fcall} (hs : ∀ s ∈ f.strings t, v.str s = v'.str s)
    (hb : ∀ b ∈ f.blobs t, v.data b.1 b.2 = v'.data b.1 b.2) : fields v f t = fields v' f t := by
  cases t
  case twalk =>
    have hn : f.wnames.map (strField v) = f.wnames.map (strField v') :=
      map_congr_left fun s h => congrArg (Field.blob BIT16SZ) (hs s h)
    simp only [fields, hn]
  all_goals simp_all [fields, strField, Fcall.strings, Fcall.blobs]

/-! ## Unique reading -/

theorem toUInt32_inj {a b : Int32} : a.toUInt32 = b.toUInt32 ↔ a = b :=
  ⟨fun h => congrArg Int32.ofUInt32 h, congrArg _⟩

theorem toUInt64_inj {a b : Int64} : a.toUInt64 = b.toUInt64 ↔ a = b :=
  ⟨fun h => congrArg Int64.ofUInt64 h, congrArg _⟩

theorem qidFields_inj {q q' : Qid} (h : qidFields q = qidFields q') : q = q' := by
  obtain ⟨path, vers, type⟩ := q
  simp_all [qidFields, UInt8.toNat_inj, UInt64.toNat_inj]

/-- Two parts of the same kind and width. -/
def Field.SameShape : Field → Field → Prop
  | .num w _, .num w' _ => w = w'
  | .blob w _, .blob w' _ => w = w'
  | _, _ => False

/-- A part that fits is determined by its bytes and its shape. -/
theorem Field.bytes_inj {x y : Field} (hs : x.SameShape y) (hx : x.Fits) (hy : y.Fits)
    {xs ys : List UInt8} (h : x.bytes ++ xs = y.bytes ++ ys) : x = y ∧ xs = ys := by
  cases x <;> cases y <;> simp only [SameShape] at hs <;> subst hs <;>
    simp only [bytes, append_assoc] at h <;>
    obtain ⟨hlen, h⟩ := append_inj h (by simp only [length_le])
  · rw [le_injOn hx hy hlen]
    exact ⟨rfl, h⟩
  · obtain ⟨hbs, h⟩ := append_inj h (le_injOn hx hy hlen)
    rw [hbs]
    exact ⟨rfl, h⟩

/-- Parts that fit are determined by their bytes and their shapes. -/
theorem wire_inj {fs gs : List Field} (hs : List.Forall₂ Field.SameShape fs gs)
    (hfs : ∀ x ∈ fs, x.Fits) (hgs : ∀ x ∈ gs, x.Fits) {xs ys : List UInt8}
    (h : wire fs ++ xs = wire gs ++ ys) : fs = gs ∧ xs = ys := by
  induction hs with
  | nil => exact ⟨rfl, h⟩
  | @cons x y fs gs hxy _ ih =>
    simp only [wire_cons, append_assoc] at h
    obtain ⟨rfl, htail⟩ := Field.bytes_inj hxy (hfs _ (by simp)) (hgs _ (by simp)) h
    obtain ⟨rfl, hrest⟩ :=
      ih (fun z hz => hfs z (by simp [hz])) (fun z hz => hgs z (by simp [hz])) htail
    exact ⟨rfl, hrest⟩

theorem forall₂_sameShape_strFields {v v' : View} {ss ss' : List Nat} (h : ss.length = ss'.length) :
    List.Forall₂ Field.SameShape (ss.map (strField v)) (ss'.map (strField v')) := by
  induction ss generalizing ss' with
  | nil => simp [eq_nil_of_length_eq_zero h.symm]
  | cons s ss ih =>
    obtain _ | ⟨s', ss'⟩ := ss'
    · simp at h
    · exact .cons rfl (ih (by simpa using h))

theorem forall₂_sameShape_qidFields {qs qs' : List Qid} (h : qs.length = qs'.length) :
    List.Forall₂ Field.SameShape (qs.flatMap qidFields) (qs'.flatMap qidFields) := by
  induction qs generalizing qs' with
  | nil => simp [eq_nil_of_length_eq_zero h.symm]
  | cons q qs ih =>
    obtain _ | ⟨q', qs'⟩ := qs'
    · simp at h
    · exact .cons rfl (.cons rfl (.cons rfl (ih (by simpa using h))))

/-- Parts that begin alike and whose rests have the shapes that the beginning says. -/
theorem wire_append_inj {fs fs' gs gs' : List Field} (hfit : ∀ x ∈ fs ++ gs, x.Fits)
    (hfit' : ∀ x ∈ fs' ++ gs', x.Fits) (hs : List.Forall₂ Field.SameShape fs fs')
    (hs' : fs = fs' → List.Forall₂ Field.SameShape gs gs')
    (h : wire (fs ++ gs) = wire (fs' ++ gs')) :
    fs ++ gs = fs' ++ gs' := by
  rw [forall_mem_append] at hfit hfit'
  rw [wire_append, wire_append] at h
  obtain ⟨hfs, htail⟩ := wire_inj hs hfit.1 hfit'.1 h
  have htail' : wire gs ++ [] = wire gs' ++ [] := by rw [htail]
  rw [hfs, (wire_inj (hs' hfs) hfit.2 hfit'.2 htail').1]

/-- **A layout that fits is determined by its bytes.** -/
theorem fields_inj {v v' : View} {f f' : Fcall} (hfit : ∀ x ∈ fields v f t, x.Fits)
    (hfit' : ∀ x ∈ fields v' f' t, x.Fits) (h : wire (fields v f t) = wire (fields v' f' t)) :
    fields v f t = fields v' f' t := by
  have key : List.Forall₂ Field.SameShape (fields v f t) (fields v' f' t) →
      fields v f t = fields v' f' t := fun hs => by
    have h' : wire (fields v f t) ++ [] = wire (fields v' f' t) ++ [] := by rw [h]
    exact (wire_inj hs hfit hfit' h').1
  cases t
  case twalk =>
    -- the number of names is read before them
    refine wire_append_inj hfit hfit' (by simp [Field.SameShape]) (fun hpre => ?_) h
    have hn : f.nwname.toNat = f'.nwname.toNat := by simp_all
    exact forall₂_sameShape_strFields (by simp [Fcall.wnames, hn])
  case rwalk =>
    refine @wire_append_inj [_] [_] _ _ hfit hfit' (by simp [Field.SameShape]) (fun hpre => ?_) h
    have hn : f.nwqid.toNat = f'.nwqid.toNat := by simp_all
    exact forall₂_sameShape_qidFields (by simp [Fcall.wqids, hn])
  all_goals exact key (by simp [fields, qidFields, strField, Field.SameShape])

end Plan9Port.Ninep
