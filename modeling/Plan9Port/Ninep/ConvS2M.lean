import Plan9Port.Ninep.Wire

/-!
# Packing a message

`lib9/convS2M.c`. The packing cursor is the memory with the address `p` of the next byte; the
steps of `convS2M` run in the state monad over it, and `return 0` is its failure.

## Main definitions

* `sizeS2M`, `convS2M`: the size of a packed message, and the packing itself

## Main results

* `sizeS2M_eq`: the size is that of the layout, modulo `2 ^ 32`
* `bodyS2M_run`: the body of the switch stores the layout's bytes
* `convS2M_eq`: packing into a long enough buffer stores the header and the layout
-/

namespace Plan9Port.Ninep

open Memory LittleEndian Fcall List

/-! ## The code -/

/-- The packing cursor: memory, and the pointer `p`. -/
structure Packer where
  mem : Mem
  p : Nat

/-- The statements of `convS2M`; failing is `return 0`. -/
abbrev S2M := EStateM Unit Packer

/-- `PBIT8(p, v); p += BIT8SZ`. -/
def put8 (v : Nat) : S2M Unit := fun w =>
  .ok () ⟨patch w.mem w.p [.ofNat v], w.p + BIT8SZ⟩

/-- `PBIT16(p, v); p += BIT16SZ`. -/
def put16 (v : Nat) : S2M Unit := fun w =>
  .ok () ⟨patch w.mem w.p [.ofNat v, .ofNat (v >>> 8)], w.p + BIT16SZ⟩

/-- `PBIT32(p, v); p += BIT32SZ`. -/
def put32 (v : Nat) : S2M Unit := fun w =>
  .ok () ⟨patch w.mem w.p [.ofNat v, .ofNat (v >>> 8), .ofNat (v >>> 16), .ofNat (v >>> 24)],
    w.p + BIT32SZ⟩

/-- `PBIT64(p, v); p += BIT64SZ`. -/
def put64 (v : Nat) : S2M Unit := fun w =>
  .ok () ⟨patch w.mem w.p [.ofNat v, .ofNat (v >>> 8), .ofNat (v >>> 16), .ofNat (v >>> 24),
    .ofNat (v >>> 32), .ofNat (v >>> 40), .ofNat (v >>> 48), .ofNat (v >>> 56)],
    w.p + BIT64SZ⟩

/-- `memmove(p, s, n); p += n`. -/
def putmem (s n : Nat) : S2M Unit := fun w =>
  .ok () ⟨memmove w.mem w.p s n, w.p + n⟩

/-- A string after its length, which is an `uint`; `nil` is the empty string. -/
def pstring (s : Nat) : S2M Unit := do
  if s = nil then
    put16 0
  else
    let n := strlen (← get).mem s % 2 ^ 32
    put16 n
    putmem s n

/-- A qid is packed. -/
def pqid (q : Qid) : S2M Unit := do
  put8 q.type.toNat
  put32 q.vers.toNat
  put64 q.path.toNat

/-- The bytes of a string. -/
def stringsz (m : Mem) (s : Nat) : Nat :=
  if s = nil then BIT16SZ else BIT16SZ + strlen m s

/-- The size of the packed message, in `uint` arithmetic; 0 for an unknown type. -/
def sizeS2M (m : Mem) (f : Fcall) : Nat :=
  let n := BIT32SZ + BIT8SZ + BIT16SZ
  match MsgType.ofCode f.type with
  | none => 0
  | some t =>
    (match t with
    | .tversion => n + BIT32SZ + stringsz m f.version
    | .tflush => n + BIT16SZ
    | .tauth => n + BIT32SZ + stringsz m f.uname + stringsz m f.aname
    | .tattach => n + BIT32SZ + BIT32SZ + stringsz m f.uname + stringsz m f.aname
    | .twalk =>
      (f.wname.toList.take f.nwname.toNat).foldl (fun n s => n + stringsz m s)
        (n + BIT32SZ + BIT32SZ + BIT16SZ)
    | .topen | .topenfd => n + BIT32SZ + BIT8SZ
    | .tcreate => n + BIT32SZ + stringsz m f.name + BIT32SZ + BIT8SZ
    | .tread => n + BIT32SZ + BIT64SZ + BIT32SZ
    | .twrite => n + BIT32SZ + BIT64SZ + BIT32SZ + f.count.toNat
    | .tclunk | .tremove => n + BIT32SZ
    | .tstat => n + BIT32SZ
    | .twstat => n + BIT32SZ + BIT16SZ + f.nstat.toNat
    | .rversion => n + BIT32SZ + stringsz m f.version
    | .rerror => n + stringsz m f.ename
    | .rflush => n
    | .rauth => n + QIDSZ
    | .rattach => n + QIDSZ
    | .rwalk => n + BIT16SZ + f.nwqid.toNat * QIDSZ
    | .ropen | .rcreate => n + QIDSZ + BIT32SZ
    | .ropenfd => n + QIDSZ + BIT32SZ + BIT32SZ
    | .rread => n + BIT32SZ + f.count.toNat
    | .rwrite => n + BIT32SZ
    | .rclunk => n
    | .rremove => n
    | .rstat => n + BIT16SZ + f.nstat.toNat
    | .rwstat => n) % 2 ^ 32

/-- The switch of `convS2M`. -/
def bodyS2M (f : Fcall) : MsgType → S2M Unit
  | .tversion => do
    put32 f.msize.toNat
    pstring f.version
  | .tflush => put16 f.oldtag.toNat
  | .tauth => do
    put32 f.afid.toNat
    pstring f.uname
    pstring f.aname
  | .tattach => do
    put32 f.fid.toNat
    put32 f.afid.toNat
    pstring f.uname
    pstring f.aname
  | .twalk => do
    put32 f.fid.toNat
    put32 f.newfid.toNat
    put16 f.nwname.toNat
    if f.nwname.toNat > MAXWELEM then throw ()
    (f.wname.toList.take f.nwname.toNat).forM pstring
  | .topen | .topenfd => do
    put32 f.fid.toNat
    put8 f.mode.toNat
  | .tcreate => do
    put32 f.fid.toNat
    pstring f.name
    put32 f.perm.toNat
    put8 f.mode.toNat
  | .tread => do
    put32 f.fid.toNat
    put64 f.offset.toUInt64.toNat
    put32 f.count.toNat
  | .twrite => do
    put32 f.fid.toNat
    put64 f.offset.toUInt64.toNat
    put32 f.count.toNat
    putmem f.data f.count.toNat
  | .tclunk | .tremove => put32 f.fid.toNat
  | .tstat => put32 f.fid.toNat
  | .twstat => do
    put32 f.fid.toNat
    put16 f.nstat.toNat
    putmem f.stat f.nstat.toNat
  | .rversion => do
    put32 f.msize.toNat
    pstring f.version
  | .rerror => pstring f.ename
  | .rflush => pure ()
  | .rauth => pqid f.aqid
  | .rattach => pqid f.qid
  | .rwalk => do
    put16 f.nwqid.toNat
    if f.nwqid.toNat > MAXWELEM then throw ()
    (f.wqid.toList.take f.nwqid.toNat).forM pqid
  | .ropen | .rcreate => do
    pqid f.qid
    put32 f.iounit.toNat
  | .ropenfd => do
    pqid f.qid
    put32 f.iounit.toNat
    put32 f.unixfd.toUInt32.toNat
  | .rread => do
    put32 f.count.toNat
    putmem f.data f.count.toNat
  | .rwrite => put32 f.count.toNat
  | .rclunk => pure ()
  | .rremove => pure ()
  | .rstat => do
    put16 f.nstat.toNat
    putmem f.stat f.nstat.toNat
  | .rwstat => pure ()

/-- Packs `f` into the `nap` bytes at `ap`: the size, or 0 for failure, and the memory left. -/
def convS2M (m : Mem) (f : Fcall) (ap nap : Nat) : Nat × Mem :=
  let size := sizeS2M m f
  if size = 0 then (0, m)
  else if size > nap then (0, m)
  else
    let run : S2M Unit := do
      put32 size
      put8 f.type.toNat
      put16 f.tag.toNat
      match MsgType.ofCode f.type with
      | none => throw ()
      | some t => bodyS2M f t
    match run.run ⟨m, ap⟩ with
    | .error _ w => (0, w.mem)
    | .ok _ w => if size ≠ w.p - ap then (0, w.mem) else (size, w.mem)

/-! ## The size -/

theorem stringsz_eq (m : Mem) (s : Nat) : stringsz m s = (strField (view m) s).bytes.length := by
  simp only [stringsz, strField, view, strBytes, strlen]
  split_ifs <;> simp

theorem foldl_stringsz (m : Mem) (ss : List Nat) (n : Nat) :
    ss.foldl (fun n s => n + stringsz m s) n = n + (wire (ss.map (strField (view m)))).length := by
  induction ss generalizing n with
  | nil => rfl
  | cons s ss ih =>
    rw [foldl_cons, ih, map_cons, wire_cons, length_append, stringsz_eq, add_assoc]

@[simp] theorem length_wire_qidFields (q : Qid) : (wire (qidFields q)).length = QIDSZ := by
  simp [qidFields]

theorem length_wire_qids (qs : List Qid) :
    (wire (qs.flatMap qidFields)).length = qs.length * QIDSZ := by
  induction qs with
  | nil => simp
  | cons q qs ih =>
    rw [flatMap_cons, wire_append, length_append, ih, length_wire_qidFields,
      length_cons, add_mul, one_mul, add_comm]

/-- The pointers of a message are good: its strings end, its data lies in memory, and its counts
fit its arrays. -/
structure Fcall.Valid (m : Mem) (f : Fcall) (t : MsgType) : Prop where
  strings : ∀ s ∈ f.strings t, s ≠ nil → ∃ bs, CStr m s bs
  blobs : ∀ b ∈ f.blobs t, b.1 + b.2 ≤ m.length
  nwname : t = .twalk → f.nwname.toNat ≤ MAXWELEM
  nwqid : t = .rwalk → f.nwqid.toNat ≤ MAXWELEM

/-- Nothing that a message points to meets the addresses from `lo` up to `hi`. -/
structure Fcall.Apart (m : Mem) (f : Fcall) (t : MsgType) (lo hi : Nat) : Prop where
  strings : ∀ s ∈ f.strings t, s ≠ nil → s + strlen m s + 1 ≤ lo ∨ hi ≤ s
  blobs : ∀ b ∈ f.blobs t, b.1 + b.2 ≤ lo ∨ hi ≤ b.1

variable {f : Fcall} {m : Mem}

theorem Fcall.Valid.length_wqids (h : f.Valid m .rwalk) : f.wqids.length = f.nwqid.toNat := by
  have := h.nwqid rfl
  simp only [wqids, length_take, Vector.length_toList]
  omega

variable {t : MsgType}

/-- **The size is that of the layout**, in `uint` arithmetic. -/
theorem sizeS2M_eq (ht : MsgType.ofCode f.type = some t) (hv : f.Valid m t) :
    sizeS2M m f = (BIT32SZ + BIT8SZ + BIT16SZ + (wire (fields (view m) f t)).length) % 2 ^ 32 := by
  simp only [sizeS2M, ht]
  congr 1
  have hb := hv.blobs
  cases t
  case twalk => simp [foldl_stringsz, fields, wnames]; omega
  case rwalk => simp [fields, length_wire_qids, hv.length_wqids]; omega
  all_goals
    simp [fields, view, stringsz_eq, blobs] at hb ⊢
    try rw [length_slice hb]
    try omega

/-! ## The bytes

The cursor after `xs` has been stored at `ap` is `packed m ap xs`. `Stores m ap hi c fs` says that
the statements `c` append the bytes of `fs`, as long as they stay below `hi`; the layouts are then
put together with `Stores.seq`, statement by statement. -/

/-- The cursor when `xs` has been stored at `ap`. -/
def packed (m : Mem) (ap : Nat) (xs : List UInt8) : Packer :=
  ⟨patch m ap xs, ap + xs.length⟩

/-- The statements `c` of a message at `ap`, below `hi`, store the bytes of `fs`. -/
def Stores (m : Mem) (ap hi : Nat) (c : S2M Unit) (fs : List Field) : Prop :=
  ∀ xs, ap + (xs ++ wire fs).length ≤ hi →
    c.run (packed m ap xs) = .ok () (packed m ap (xs ++ wire fs))

variable {s : Nat} {x : Field}

section Steps

variable {ap hi n : Nat} {c d : S2M Unit} {fs gs : List Field}

theorem packed_append (xs ys : List UInt8) :
    (⟨patch (packed m ap xs).mem (packed m ap xs).p ys, (packed m ap xs).p + ys.length⟩ : Packer) =
      packed m ap (xs ++ ys) := by
  simp only [packed, patch_patch_append, length_append, add_assoc]

theorem stores_pure : Stores m ap hi (pure ()) [] := fun xs _ => by simp

theorem Stores.seq (hc : Stores m ap hi c fs) (hd : Stores m ap hi d gs) :
    Stores m ap hi (do c; d) (fs ++ gs) := by
  intro xs hroom
  rw [wire_append, ← append_assoc] at hroom ⊢
  have hroom' : ap + (xs ++ wire fs).length ≤ hi := by
    rw [length_append] at hroom
    omega
  rw [EStateM.run_bind, hc xs hroom']
  exact hd _ hroom

/-- A statement that stores exactly the bytes `ys` at the cursor. -/
theorem Stores.of_patch
    (h : ∀ w, c.run w = .ok () ⟨patch w.mem w.p x.bytes, w.p + x.bytes.length⟩) :
    Stores m ap hi c [x] := by
  intro xs _
  rw [h, packed_append, wire_cons, wire_nil, append_nil]

theorem stores_put8 (v : Nat) : Stores m ap hi (put8 v) [.num BIT8SZ v] := .of_patch fun _ => rfl

theorem stores_put16 (v : Nat) : Stores m ap hi (put16 v) [.num BIT16SZ v] :=
  .of_patch fun _ => by rw [Field.bytes, BIT16SZ, le_two]; rfl

theorem stores_put32 (v : Nat) : Stores m ap hi (put32 v) [.num BIT32SZ v] :=
  .of_patch fun _ => by rw [Field.bytes, BIT32SZ, le_four]; rfl

theorem stores_put64 (v : Nat) : Stores m ap hi (put64 v) [.num BIT64SZ v] :=
  .of_patch fun _ => by rw [Field.bytes, BIT64SZ, le_eight]; rfl

theorem stores_pqid (q : Qid) : Stores m ap hi (pqid q) (qidFields q) :=
  (stores_put8 _).seq ((stores_put32 _).seq (stores_put64 _))

/-- Copying bytes that the stores so far have not touched. -/
theorem putmem_packed {xs : List UInt8} (hs : s + n ≤ m.length)
    (hd : s + n ≤ ap ∨ ap + xs.length ≤ s) :
    (putmem s n).run (packed m ap xs) = .ok () (packed m ap (xs ++ slice m s n)) := by
  rw [← packed_append, length_slice hs]
  simp only [putmem, EStateM.run, memmove, packed, slice_patch_of_disjoint hd]

/-- Data that the message does not overlap, after its length. -/
theorem Stores.blob {w : Nat} (hc : Stores m ap hi c [.num w n]) (hs : s + n ≤ m.length)
    (hd : s + n ≤ ap ∨ hi ≤ s) : Stores m ap hi (do c; putmem s n) [.blob w (slice m s n)] := by
  intro xs hroom
  have hbytes : wire [.blob w (slice m s n)] = wire [.num w n] ++ slice m s n := by
    simp [Field.bytes, length_slice hs]
  rw [hbytes, ← append_assoc] at hroom ⊢
  have hroom' : ap + (xs ++ wire [.num w n]).length ≤ hi := by
    rw [length_append] at hroom
    omega
  rw [EStateM.run_bind, hc xs hroom']
  exact putmem_packed hs (by omega)

/-- A string that the message does not overlap, after its length. -/
theorem stores_pstring (hv : s ≠ nil → ∃ bs, CStr m s bs)
    (hd : s ≠ nil → s + strlen m s + 1 ≤ ap ∨ hi ≤ s) (hlt : (strBytes m s).length < 2 ^ 32) :
    Stores m ap hi (pstring s) [strField (view m) s] := by
  by_cases hs : s = nil
  · have hnil : pstring s = put16 0 := by rw [pstring, if_pos hs]
    rw [hnil, strField, strBytes_nil hs]
    exact stores_put16 0
  obtain ⟨bs, hbs⟩ := hv hs
  have hlen : strlen m s = bs.length := by rw [strlen, hbs.cstring_eq]
  have hlt : bs.length < 2 ^ 32 := (hbs.strBytes_eq hs) ▸ hlt
  have hst : slice m s bs.length = bs := (slice_append_iff.mp hbs.stored).1
  have hle := hbs.le_length
  have hfield : strField (view m) s = .blob BIT16SZ (slice m s bs.length) := by
    rw [strField, hbs.strBytes_eq hs, hst]
  have hblob : Stores m ap hi (do put16 bs.length; putmem s bs.length)
      [.blob BIT16SZ (slice m s bs.length)] :=
    (stores_put16 _).blob (by omega) (by omega)
  intro xs hroom
  rw [hfield] at hroom ⊢
  -- `strlen` reads the memory that the message is being packed into
  have hread : strlen (packed m ap xs).mem s % 2 ^ 32 = bs.length := by
    rw [length_append] at hroom
    rw [strlen, packed, (hbs.patch (by omega)).cstring_eq, Nat.mod_eq_of_lt hlt]
  rw [← hblob xs hroom, pstring, if_neg hs, EStateM.run_bind, EStateM.run_get]
  simp only [hread]

/-- A loop over a list stores its items in order. -/
theorem stores_forM {α : Type} {c : α → S2M Unit} {g : α → List Field} {l : List α}
    (h : ∀ a ∈ l, Stores m ap hi (c a) (g a)) : Stores m ap hi (l.forM c) (l.flatMap g) := by
  induction l with
  | nil => exact stores_pure
  | cons a l ih =>
    rw [forM_eq_forM, forM_cons, flatMap_cons]
    exact (h a (by simp)).seq (ih fun b hb => h b (by simp [hb]))

end Steps

/-- **The switch stores the layout.** -/
theorem bodyS2M_run {ap hi : Nat} (hv : f.Valid m t) (ha : f.Apart m t ap hi)
    (hlt : ∀ s ∈ f.strings t, (strBytes m s).length < 2 ^ 32) :
    Stores m ap hi (bodyS2M f t) (fields (view m) f t) := by
  have hstr : ∀ s ∈ f.strings t, Stores m ap hi (pstring s) [strField (view m) s] := fun s h =>
    stores_pstring (hv.strings s h) (ha.strings s h) (hlt s h)
  have hblob : ∀ b ∈ f.blobs t, ∀ {c w}, Stores m ap hi c [.num w b.2] →
      Stores m ap hi (do c; putmem b.1 b.2) [.blob w (slice m b.1 b.2)] := fun b h _ _ hc =>
    hc.blob (hv.blobs b h) (ha.blobs b h)
  cases t
  case tversion | rversion => exact (stores_put32 _).seq (hstr _ (by simp [strings]))
  case tflush => exact stores_put16 _
  case tauth =>
    exact (stores_put32 _).seq
      ((hstr _ (by simp [strings])).seq (hstr _ (by simp [strings])))
  case tattach =>
    exact (stores_put32 _).seq ((stores_put32 _).seq
      ((hstr _ (by simp [strings])).seq (hstr _ (by simp [strings]))))
  case twalk =>
    have hle : ¬ f.nwname.toNat > MAXWELEM := Nat.not_lt.mpr (hv.nwname rfl)
    have hnames : Stores m ap hi (f.wnames.forM pstring) (f.wnames.map (strField (view m))) := by
      rw [← flatMap_pure_eq_map]
      exact stores_forM hstr
    simp only [bodyS2M, if_neg hle]
    exact (stores_put32 _).seq ((stores_put32 _).seq ((stores_put16 _).seq hnames))
  case topen | topenfd => exact (stores_put32 _).seq (stores_put8 _)
  case tcreate =>
    exact (stores_put32 _).seq ((hstr _ (by simp [strings])).seq
      ((stores_put32 _).seq (stores_put8 _)))
  case tread => exact (stores_put32 _).seq ((stores_put64 _).seq (stores_put32 _))
  case twrite =>
    exact (stores_put32 _).seq ((stores_put64 _).seq
      (hblob (f.data, f.count.toNat) (by simp [blobs]) (stores_put32 _)))
  case tclunk | tremove | tstat => exact stores_put32 _
  case twstat =>
    exact (stores_put32 _).seq
      (hblob (f.stat, f.nstat.toNat) (by simp [blobs]) (stores_put16 _))
  case rerror => exact hstr _ (by simp [strings])
  case rflush | rclunk | rremove | rwstat => exact stores_pure
  case rauth | rattach => exact stores_pqid _
  case rwalk =>
    have hle : ¬ f.nwqid.toNat > MAXWELEM := Nat.not_lt.mpr (hv.nwqid rfl)
    have hqids : Stores m ap hi (f.wqids.forM pqid) (f.wqids.flatMap qidFields) :=
      stores_forM fun q _ => stores_pqid q
    simp only [bodyS2M, if_neg hle]
    exact (stores_put16 _).seq hqids
  case ropen | rcreate => exact (stores_pqid _).seq (stores_put32 _)
  case ropenfd => exact (stores_pqid _).seq ((stores_put32 _).seq (stores_put32 _))
  case rread => exact hblob (f.data, f.count.toNat) (by simp [blobs]) (stores_put32 _)
  case rwrite => exact stores_put32 _
  case rstat => exact hblob (f.stat, f.nstat.toNat) (by simp [blobs]) (stores_put16 _)

/-- The size of a packed message: the header and the layout. -/
def wireSize (m : Mem) (f : Fcall) (t : MsgType) : Nat :=
  BIT32SZ + BIT8SZ + BIT16SZ + (wire (fields (view m) f t)).length

theorem length_wire_header (size : Nat) (m : Mem) (f : Fcall) (t : MsgType) :
    (wire (header size f ++ fields (view m) f t)).length = wireSize m f t := by
  simp [header, wireSize]
  omega

theorem length_bytes_le_wire {fs : List Field} (h : x ∈ fs) :
    x.bytes.length ≤ (wire fs).length := by
  obtain ⟨as, bs, rfl⟩ := append_of_mem h
  rw [wire_append, wire_cons, length_append, length_append]
  omega

theorem strField_mem_fields {v : View} (h : s ∈ f.strings t) : strField v s ∈ fields v f t := by
  cases t <;> simp only [strings, mem_cons, not_mem_nil, or_false] at h
  case twalk => exact mem_append_right _ (mem_map_of_mem h)
  case tauth | tattach => rcases h with rfl | rfl <;> simp [fields]
  case tversion | rversion | tcreate | rerror => simp [fields, h]

/-- Each string is a part of the message. -/
theorem length_strBytes_le_wireSize (h : s ∈ f.strings t) :
    (strBytes m s).length ≤ wireSize m f t := by
  have hle := length_bytes_le_wire (strField_mem_fields (v := view m) h)
  rw [strField, Field.length_bytes_blob, view] at hle
  rw [wireSize]
  exact (Nat.le_add_left _ _).trans (hle.trans (Nat.le_add_left _ _))

/-- **Packing.** Into a buffer that is long enough and holds nothing the message points to,
`convS2M` stores the header and the layout, and returns their size. -/
theorem convS2M_eq {ap nap : Nat} (ht : MsgType.ofCode f.type = some t) (hv : f.Valid m t)
    (ha : f.Apart m t ap (ap + nap)) (hlt : wireSize m f t < 2 ^ 32) (hle : wireSize m f t ≤ nap) :
    convS2M m f ap nap =
      (wireSize m f t, patch m ap (wire (header (wireSize m f t) f ++ fields (view m) f t))) := by
  have hsize : sizeS2M m f = wireSize m f t := by
    rw [sizeS2M_eq ht hv, ← wireSize, Nat.mod_eq_of_lt hlt]
  have hpos : wireSize m f t ≠ 0 := by simp [wireSize]
  have hrun : Stores m ap (ap + nap)
      (do put32 (wireSize m f t); put8 f.type.toNat; put16 f.tag.toNat; bodyS2M f t)
      (header (wireSize m f t) f ++ fields (view m) f t) :=
    (stores_put32 _).seq ((stores_put8 _).seq ((stores_put16 _).seq
      (bodyS2M_run hv ha fun s hs => (length_strBytes_le_wireSize hs).trans_lt hlt)))
  have hstart : (⟨m, ap⟩ : Packer) = packed m ap [] := by simp [packed]
  have hlen := length_wire_header (wireSize m f t) m f t
  simp only [convS2M, hsize, if_neg hpos, Nat.not_lt.mpr hle, ht, if_false]
  rw [hstart, hrun [] (by rw [nil_append, hlen]; omega)]
  simp only [packed, nil_append, hlen, Nat.add_sub_cancel_left, ne_eq, not_true_eq_false, if_false]

end Plan9Port.Ninep
