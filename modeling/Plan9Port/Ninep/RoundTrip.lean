import Mathlib.Data.UInt
import Plan9Port.Ninep.ConvS2M
import Plan9Port.Ninep.ConvM2S

/-!
# Packing and unpacking are inverse

`convM2S` followed by `convS2M` reproduces the message, byte for byte, although `gstring` has
rewritten the buffer in between. `convS2M` followed by `convM2S` reproduces the `Fcall`, on the
fields its type carries, as long as the versions of its qids fit the four bytes they have on the
wire: `Qid.vers` is an `ulong`.

## Main definitions

* `Fcall.Same`: two messages agree on the fields of a type

## Main results

* `convS2M_convM2S`: repacking reproduces the bytes
* `convM2S_convS2M`: unpacking a packed message reproduces the message
* `vers_truncated`: a version of more than 32 bits is not reproduced
-/

namespace Plan9Port.Ninep

open Memory LittleEndian List

/-! ## Repacking an unpacked message -/

variable {t : MsgType} {f : Fcall}

namespace Read

variable {m m' : Mem} {ap nap size : Nat}

variable (h : Read m ap nap size f m' t)
include h

/-- The strings of an unpacked message. -/
theorem cstr {s : Nat} (hs : s ∈ f.strings t) (hnul : 0 ∉ (unread m).str s) :
    CStr m' s ((unread m).str s) :=
  ⟨hnul, (h.took.strings s hs).2.2⟩

/-- What the pointers stand for is what they stood for before. -/
theorem fields_view (hnul : ∀ s ∈ f.strings t, 0 ∉ (unread m).str s) :
    fields (view m') f t = fields (unread m) f t :=
  fields_congr (fun s hs => (h.cstr hs (hnul s hs)).strBytes_eq
    (Nat.ne_of_gt (Nat.zero_lt_of_lt (h.took.strings s hs).1)))
    fun b hb => (h.took.blobs b hb).2.2

theorem valid (hmem : ap + nap ≤ m.length) (hnul : ∀ s ∈ f.strings t, 0 ∉ (unread m).str s) :
    f.Valid m' t where
  strings s hs _ := ⟨_, h.cstr hs (hnul s hs)⟩
  blobs b hb := by
    have h1 := (h.took.blobs b hb).2.1
    have h2 := h.took.length
    have h3 := h.le
    simp only at h1 h2
    omega
  nwname := h.nwname
  nwqid := h.nwqid

/-- The message points into its own buffer only. -/
theorem apart {lo hi : Nat} (hd : hi ≤ ap ∨ ap + nap ≤ lo)
    (hnul : ∀ s ∈ f.strings t, 0 ∉ (unread m).str s) : f.Apart m' t lo hi where
  strings s hs _ := by
    obtain ⟨h1, h2, -⟩ := h.took.strings s hs
    have h3 := h.le
    rw [strlen, (h.cstr hs (hnul s hs)).cstring_eq]
    simp only at h2
    omega
  blobs b hb := by
    obtain ⟨h1, h2, -⟩ := h.took.blobs b hb
    have h3 := h.le
    simp only at h2
    omega

end Read

/-- **Repacking.** Whatever buffer `convM2S` accepts, if its strings hold no NUL, packing the
message it returns into a fresh buffer reproduces the bytes that were there before. -/
theorem convS2M_convM2S {m m' : Mem} {ap nap size bp nb : Nat} {f f' : Fcall}
    (hmem : ap + nap ≤ m.length) (h : convM2S m ap nap f = (size, f', m')) (hsize : size ≠ 0)
    (hnul : ∀ t, MsgType.ofCode f'.type = some t → ∀ s ∈ f'.strings t, 0 ∉ (unread m).str s)
    (hfresh : bp + nb ≤ ap ∨ ap + nap ≤ bp) (hbp : bp + nb ≤ m.length) (hnb : size ≤ nb) :
    (convS2M m' f' bp nb).1 = size ∧ slice (convS2M m' f' bp nb).2 bp size = slice m ap size := by
  obtain ⟨t, hr⟩ := convM2S_sound hmem h hsize
  have hnul := hnul t hr.type
  have hfields := hr.fields_view hnul
  have hws : wireSize m' f' t = size := by
    rw [wireSize, hfields]
    exact hr.size_eq.symm
  have hlt : size < 2 ^ 32 := by
    obtain ⟨h1, rfl, -⟩ := convM2S_cases h hsize
    have h32 : ap + BIT32SZ ≤ m.length := by rw [BIT32SZ]; omega
    rw [gbit32_eq h32]
    exact ofLe_slice_lt h32
  have hlen := length_wire_header size m' f' t
  rw [convS2M_eq hr.type (hr.valid hmem hnul) (hr.apart hfresh hnul) (hws ▸ hlt) (hws ▸ hnb), hws]
  refine ⟨rfl, ?_⟩
  rw [hws] at hlen
  have hstored : slice (patch m' bp (wire (header size f' ++ fields (view m') f' t))) bp
      (wire (header size f' ++ fields (view m') f' t)).length =
        wire (header size f' ++ fields (view m') f' t) := by
    have hlen' : m'.length = m.length := hr.took.length
    exact slice_patch_self (by omega)
  rw [hlen] at hstored
  rw [hstored, hfields, hr.bytes]

/-- A `Tversion` of the version `9P`, and room to pack it again. -/
def versionMsg : Mem :=
  [15, 0, 0, 0, 100, 255, 255, 0, 32, 0, 0, 2, 0, 57, 80] ++ List.replicate 15 0

theorem convS2M_convM2S_versionMsg :
    let r := convM2S versionMsg 0 15 default
    (convS2M r.2.2 r.2.1 15 15).1 = 15 ∧
      slice (convS2M r.2.2 r.2.1 15 15).2 15 15 = slice versionMsg 0 15 := by
  have hrun : convM2S versionMsg 0 15 default =
      (15, (convM2S versionMsg 0 15 default).2.1, (convM2S versionMsg 0 15 default).2.2) :=
    Prod.ext (by decide) rfl
  refine convS2M_convM2S (by decide) hrun (by decide) (fun t ht => ?_) (by decide) (by decide)
    (by decide)
  obtain rfl : t = .tversion := Option.some.inj (ht.symm.trans (by decide))
  decide

/-! ## Unpacking a packed message -/

/-- The messages `f`, with strings and data in `m`, and `f'`, with strings and data in `m'`, agree
on the fields that the type `t` carries. A missing string counts as an empty one. -/
def Fcall.Same (m : Mem) (f : Fcall) (m' : Mem) (f' : Fcall) (t : MsgType) : Prop :=
  f.type = f'.type ∧ f.tag = f'.tag ∧
  match t with
  | .tversion | .rversion =>
    f.msize = f'.msize ∧ strBytes m f.version = strBytes m' f'.version
  | .tflush => f.oldtag = f'.oldtag
  | .tauth =>
    f.afid = f'.afid ∧ strBytes m f.uname = strBytes m' f'.uname ∧
      strBytes m f.aname = strBytes m' f'.aname
  | .tattach =>
    f.fid = f'.fid ∧ f.afid = f'.afid ∧ strBytes m f.uname = strBytes m' f'.uname ∧
      strBytes m f.aname = strBytes m' f'.aname
  | .twalk =>
    f.fid = f'.fid ∧ f.newfid = f'.newfid ∧ f.nwname = f'.nwname ∧
      f.wnames.map (strBytes m) = f'.wnames.map (strBytes m')
  | .topen | .topenfd => f.fid = f'.fid ∧ f.mode = f'.mode
  | .tcreate =>
    f.fid = f'.fid ∧ strBytes m f.name = strBytes m' f'.name ∧ f.perm = f'.perm ∧ f.mode = f'.mode
  | .tread => f.fid = f'.fid ∧ f.offset = f'.offset ∧ f.count = f'.count
  | .twrite =>
    f.fid = f'.fid ∧ f.offset = f'.offset ∧ f.count = f'.count ∧
      slice m f.data f.count.toNat = slice m' f'.data f'.count.toNat
  | .tclunk | .tremove | .tstat => f.fid = f'.fid
  | .twstat =>
    f.fid = f'.fid ∧ f.nstat = f'.nstat ∧
      slice m f.stat f.nstat.toNat = slice m' f'.stat f'.nstat.toNat
  | .rerror => strBytes m f.ename = strBytes m' f'.ename
  | .rflush | .rclunk | .rremove | .rwstat => True
  | .rauth => f.aqid = f'.aqid
  | .rattach => f.qid = f'.qid
  | .rwalk => f.nwqid = f'.nwqid ∧ f.wqids = f'.wqids
  | .ropen | .rcreate => f.qid = f'.qid ∧ f.iounit = f'.iounit
  | .ropenfd => f.qid = f'.qid ∧ f.iounit = f'.iounit ∧ f.unixfd = f'.unixfd
  | .rread =>
    f.count = f'.count ∧ slice m f.data f.count.toNat = slice m' f'.data f'.count.toNat
  | .rwrite => f.count = f'.count
  | .rstat =>
    f.nstat = f'.nstat ∧ slice m f.stat f.nstat.toNat = slice m' f'.stat f'.nstat.toNat

theorem flatMap_qidFields_inj {qs qs' : List Qid}
    (h : qs.flatMap qidFields = qs'.flatMap qidFields) : qs = qs' := by
  induction qs generalizing qs' with
  | nil =>
    obtain _ | ⟨q', qs'⟩ := qs'
    · rfl
    · simp [qidFields] at h
  | cons q qs ih =>
    obtain _ | ⟨q', qs'⟩ := qs'
    · simp [qidFields] at h
    · rw [flatMap_cons, flatMap_cons] at h
      obtain ⟨h1, h2⟩ := append_inj h (by simp [qidFields])
      rw [qidFields_inj h1, ih h2]

theorem map_strField_inj {v v' : View} {ss ss' : List Nat}
    (h : ss.map (strField v) = ss'.map (strField v')) : ss.map v.str = ss'.map v'.str := by
  have hinj : Function.Injective (Field.blob BIT16SZ) := fun _ _ h => (Field.blob.inj h).2
  apply map_injective_iff.mpr hinj
  rw [map_map, map_map]
  exact h

variable {f' : Fcall}

/-- Messages with one layout agree on its fields. -/
theorem Fcall.same_of_fields {m m' : Mem} (hv : f.Valid m t) (hv' : f'.Valid m' t)
    (htype : f.type = f'.type) (htag : f.tag = f'.tag)
    (h : fields (view m) f t = fields (view m') f' t) : Fcall.Same m f m' f' t := by
  refine ⟨htype, htag, ?_⟩
  -- the length of data is that of the field
  have hblob : ∀ b ∈ f.blobs t, ∀ b' ∈ f'.blobs t, slice m b.1 b.2 = slice m' b'.1 b'.2 →
      b.2 = b'.2 := fun b hb b' hb' heq => by
    rw [← length_slice (hv.blobs b hb), heq, length_slice (hv'.blobs b' hb')]
  cases t
  case twalk =>
    obtain ⟨hpre, hnames⟩ := append_inj h rfl
    simp only [cons.injEq, Field.num.injEq, UInt32.toNat_inj, UInt16.toNat_inj] at hpre
    exact ⟨hpre.1.2, hpre.2.1.2, hpre.2.2.1.2, map_strField_inj hnames⟩
  case rwalk =>
    obtain ⟨hn, hqids⟩ := cons.inj h
    exact ⟨UInt16.toNat_inj.mp (Field.num.inj hn).2, flatMap_qidFields_inj hqids⟩
  case rauth | rattach => exact qidFields_inj h
  case ropen | rcreate | ropenfd =>
    obtain ⟨hq, hrest⟩ := append_inj h rfl
    refine ⟨qidFields_inj hq, ?_⟩
    simpa [UInt32.toNat_inj, toUInt32_inj] using hrest
  all_goals
    simp_all [fields, strField, view, Fcall.blobs, UInt64.toNat_inj, UInt32.toNat_inj,
      UInt16.toNat_inj, UInt8.toNat_inj, toUInt64_inj]

/-- Packing and unpacking carry the message over: packing into `nap` bytes at `ap` returns the size
if it fits and 0 otherwise, and unpacking exactly those bytes returns the size again, with a
message that agrees on the fields of the type. -/
def Fcall.RoundTrips (m : Mem) (f : Fcall) (t : MsgType) (ap nap : Nat) : Prop :=
  (nap < sizeS2M m f → (convS2M m f ap nap).1 = 0) ∧
  (sizeS2M m f ≤ nap →
    (convS2M m f ap nap).1 = sizeS2M m f ∧
    ∀ f₀ f' m', ∀ n, convM2S (convS2M m f ap nap).2 ap (sizeS2M m f) f₀ = (n, f', m') →
      n = sizeS2M m f ∧ Fcall.Same m f m' f' t)

/-- The strings of a message are determined by its layout. -/
theorem strings_of_fields {v v' : View} (h : fields v f t = fields v' f' t) :
    (f.strings t).map v.str = (f'.strings t).map v'.str := by
  cases t
  case twalk => exact map_strField_inj (append_inj h rfl).2
  all_goals simp_all [fields, strField, Fcall.strings]

theorem forall_fits_fields {m : Mem} (hv : f.Valid m t)
    (hlen : ∀ s ∈ f.strings t, (strBytes m s).length ≤ 65535)
    (hvers : ∀ q ∈ f.qids t, q.vers.toNat < 2 ^ 32) : ∀ x ∈ fields (view m) f t, x.Fits := by
  have hstr : ∀ s ∈ f.strings t, (strField (view m) s).Fits := fun s hs =>
    Nat.lt_succ_of_le (hlen s hs)
  have hqid : ∀ q ∈ f.qids t, ∀ x ∈ qidFields q, x.Fits := fun q hq => by
    simpa [qidFields, Field.Fits, q.type.toNat_lt, q.path.toNat_lt] using hvers q hq
  have hblob : ∀ b ∈ f.blobs t, (slice m b.1 b.2).length = b.2 := fun b hb =>
    length_slice (hv.blobs b hb)
  have h32 : ∀ n : UInt32, n.toNat < 256 ^ BIT32SZ := fun n => n.toNat_lt
  have h16 : ∀ n : UInt16, n.toNat < 256 ^ BIT16SZ := fun n => n.toNat_lt
  have h8 : ∀ n : UInt8, n.toNat < 256 ^ BIT8SZ := fun n => n.toNat_lt
  have h64 : ∀ n : UInt64, n.toNat < 256 ^ BIT64SZ := fun n => n.toNat_lt
  cases t
  case ropen | rcreate =>
    exact forall_mem_append.mpr ⟨hqid _ (by simp [Fcall.qids]), by simpa using h32 _⟩
  case ropenfd =>
    exact forall_mem_append.mpr
      ⟨hqid _ (by simp [Fcall.qids]), by simpa using ⟨h32 _, h32 _⟩⟩
  case rwalk =>
    refine forall_mem_cons.mpr ⟨h16 _, fun x hx => ?_⟩
    obtain ⟨q, hq, hx⟩ := mem_flatMap.mp hx
    exact hqid q hq x hx
  all_goals
    simp_all [fields, view, Fcall.strings, Fcall.qids, Fcall.blobs]

/-- The header can be read back. -/
theorem header_inj {n : Nat} {fs fs' : List Field} (hn : n < 2 ^ 32)
    (h : wire (header n f ++ fs) = wire (header n f' ++ fs')) :
    f.type = f'.type ∧ f.tag = f'.tag ∧ wire fs = wire fs' := by
  have hfit : ∀ f : Fcall, ∀ x ∈ header n f, x.Fits := fun f => by
    simpa [header, f.type.toNat_lt, f.tag.toNat_lt] using hn
  rw [wire_append, wire_append] at h
  obtain ⟨hhead, hwire⟩ := wire_inj (by simp [header, Field.SameShape]) (hfit f) (hfit f') h
  simp only [header, cons.injEq, Field.num.injEq, UInt8.toNat_inj, UInt16.toNat_inj] at hhead
  exact ⟨hhead.2.1.2, hhead.2.2.1.2, hwire⟩

/-- **Round trip.** Every message with good pointers, strings of at most 65535 bytes, a size below
`2 ^ 32` and qid versions below `2 ^ 32` is carried over. -/
theorem convM2S_convS2M {m : Mem} {f : Fcall} {t : MsgType} {ap nap : Nat}
    (ht : MsgType.ofCode f.type = some t) (hv : f.Valid m t) (ha : f.Apart m t ap (ap + nap))
    (hlen : ∀ s ∈ f.strings t, (strBytes m s).length ≤ 65535) (hsize : wireSize m f t < 2 ^ 32)
    (hvers : ∀ q ∈ f.qids t, q.vers.toNat < 2 ^ 32) (hap : ap + nap ≤ m.length) :
    f.RoundTrips m t ap nap := by
  have hsz : sizeS2M m f = wireSize m f t := by
    rw [sizeS2M_eq ht hv, ← wireSize, Nat.mod_eq_of_lt hsize]
  refine ⟨fun hlt => ?_, fun hle => ?_⟩
  · simp only [convS2M, gt_iff_lt, hlt, if_true, ite_self]
  have hfit := forall_fits_fields hv hlen hvers
  rw [hsz] at hle ⊢
  rw [convS2M_eq ht hv ha hsize hle]
  refine ⟨rfl, fun f₀ f' m' n hrun => ?_⟩
  set m1 := patch m ap (wire (header (wireSize m f t) f ++ fields (view m) f t)) with hm1
  have hmem : ap + wireSize m f t ≤ m1.length := by rw [hm1, length_patch]; omega
  have hbytes : slice m1 ap (wireSize m f t) =
      wire (header (wireSize m f t) f ++ fields (view m) f t) := by
    have hroom : ap + (wire (header (wireSize m f t) f ++ fields (view m) f t)).length ≤
        m.length := by
      rw [length_wire_header]
      omega
    have := slice_patch_self hroom
    rwa [length_wire_header, ← hm1] at this
  obtain rfl : n = wireSize m f t := by
    have := convM2S_complete (f := f₀) hmem ht hbytes rfl le_rfl hsize hfit hv.nwname hv.nwqid
    rwa [hrun] at this
  obtain ⟨t', hr⟩ := convM2S_sound hmem hrun (by simp [wireSize])
  obtain ⟨htype, htag, hwire⟩ := header_inj hsize
    (show wire (header _ f ++ _) = wire (header _ f' ++ _) by rw [← hbytes, hr.bytes])
  obtain rfl : t = t' := by
    have := hr.type
    rw [← htype, ht] at this
    exact Option.some.inj this
  have hfields := fields_inj hfit hr.took.fits hwire
  have hnul : ∀ s ∈ f'.strings t, 0 ∉ (unread m1).str s := fun s hs => by
    have hmem' : (unread m1).str s ∈ (f.strings t).map (view m).str := by
      rw [strings_of_fields hfields]
      exact mem_map_of_mem hs
    obtain ⟨s0, hs0, heq⟩ := mem_map.mp hmem'
    rw [← heq]
    exact nul_free_strBytes (hv.strings s0 hs0)
  refine ⟨rfl, Fcall.same_of_fields hv (hr.valid hmem hnul) htype htag ?_⟩
  rw [hfields, hr.fields_view hnul]

/-- A `Tauth` of the user `ab` for the tree `c`. -/
theorem convM2S_convS2M_tauth :
    Fcall.RoundTrips ([0, 97, 98, 0, 99, 0] ++ List.replicate 20 0)
      { (default : Fcall) with type := 102, afid := 3, uname := 1, aname := 4 } .tauth 6 20 := by
  refine convM2S_convS2M rfl ⟨fun s hs hne => ?_, nofun, nofun, nofun⟩ ⟨by decide, nofun⟩
    (by decide) (by decide) (by decide) (by decide)
  rcases mem_cons.mp hs with rfl | hs
  · exact ⟨[97, 98], by decide, by decide⟩
  · obtain rfl := mem_singleton.mp hs
    exact ⟨[99], by decide, by decide⟩

/-- The version of a qid is an `ulong` and has four bytes on the wire, so that a version of
`2 ^ 32` is unpacked as 0. -/
theorem vers_truncated :
    let m : Mem := List.replicate 20 0
    let f : Fcall := { (default : Fcall) with type := 105, qid := ⟨0, 2 ^ 32, 0⟩ }
    MsgType.ofCode f.type = some .rattach ∧ f.Valid m .rattach ∧ f.Apart m .rattach 0 (0 + 20) ∧
      (∀ s ∈ f.strings .rattach, (strBytes m s).length ≤ 65535) ∧ wireSize m f .rattach < 2 ^ 32 ∧
      ¬ f.RoundTrips m .rattach 0 20 := by
  refine ⟨rfl, ⟨nofun, nofun, nofun, nofun⟩, ⟨nofun, nofun⟩, nofun, by decide, fun h => ?_⟩
  have hsame := ((h.2 (by decide)).2 default _ _ _ rfl).2.2.2
  revert hsame
  decide

end Plan9Port.Ninep
