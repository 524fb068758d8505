import Plan9Port.Ninep.Dir
import Plan9Port.Ninep.RoundTrip

/-!
# The lengths in a packed message

The size of a message has 32 bits, a count of data 32 and the length of a string 16. `convS2M` adds
up sizes as an `uint` and stores what it has; it returns 0 if the size is not the number of bytes
that it stored, which finds a sum that does not fit. The length of a string is not checked.

## Main results

* `convS2M_returns`: what is known of a message that was packed
* `lengths_true`: every length that is stored is right if the strings are short, and only then
* `ename_length_truncated`: an `Rerror` with the length 0 for 65536 bytes
-/

namespace Plan9Port.Ninep

open Memory LittleEndian Ninep.Field MsgType List Prod Nat

/-- The bytes at `p` are those of `fs`, and the length before any data is the length of the data. -/
structure Counted (m : Mem) (p : Nat) (fs : List Field) : Prop where
  bytes : slice m p (wire fs).length = wire fs
  lengths : ∀ as w bs cs, fs = as ++ .blob w bs :: cs →
    ofLe (slice m (p + (wire as).length) w) = bs.length

variable {m m' : Mem} {t : MsgType}

theorem Counted.of_bytes {p : Nat} {fs : List Field} (h : slice m p (wire fs).length = wire fs)
    (hfit : ∀ w bs, Field.blob w bs ∈ fs → bs.length < 256 ^ w) : Counted m p fs := by
  refine ⟨h, ?_⟩
  rintro as w bs cs rfl
  have hlt := hfit w bs (by simp)
  have hlen : (wire (as ++ .blob w bs :: cs)).length =
      (wire as ++ (le w bs.length ++ (bs ++ wire cs))).length := by simp [Field.bytes]
  rw [hlen, wire_append, wire_cons, Field.bytes, append_assoc, slice_append_iff] at h
  have hle := (slice_append_iff.mp h.2).1
  rw [length_le] at hle
  rw [hle, ofLe_le_of_lt hlt]

/-! ## What is on the wire of a qid -/

/-- The version has four bytes on the wire. -/
def Qid.onWire (q : Qid) : Qid := { q with vers := .ofNat (q.vers.toNat % 2 ^ 32) }

theorem toNat_vers_onWire (q : Qid) : q.onWire.vers.toNat = q.vers.toNat % 2 ^ 32 :=
  UInt64.toNat_ofNat_of_lt' ((mod_lt _ (by decide)).trans (by decide))

theorem wire_qidFields_onWire (q : Qid) : wire (qidFields q.onWire) = wire (qidFields q) := by
  have hvers : (num BIT32SZ q.onWire.vers.toNat).bytes = (num BIT32SZ q.vers.toNat).bytes := by
    rw [toNat_vers_onWire]
    exact le_mod 4 _
  simp only [qidFields, wire_cons, hvers]
  rfl

/-- A message as it comes back. -/
def Fcall.onWire (f : Fcall) : Fcall :=
  { f with qid := f.qid.onWire, aqid := f.aqid.onWire, wqid := f.wqid.map Qid.onWire }

theorem wqids_onWire (f : Fcall) : f.onWire.wqids = f.wqids.map Qid.onWire := by
  rw [Fcall.wqids, Fcall.wqids, map_take]
  exact congrArg (take _) Vector.toList_map

theorem wire_fields_onWire (v : View) (f : Fcall) (t : MsgType) :
    wire (fields v f.onWire t) = wire (fields v f t) := by
  have hqids : ∀ qs : List Qid, wire ((qs.map Qid.onWire).flatMap qidFields) =
      wire (qs.flatMap qidFields) := by
    intro qs
    induction qs with
    | nil => rfl
    | cons q qs ih =>
      rw [map_cons, flatMap_cons, flatMap_cons, wire_append, wire_append, ih, wire_qidFields_onWire]
  cases t
  case rwalk => simp only [fields, wire_cons, wqids_onWire, hqids]; rfl
  case rauth => exact wire_qidFields_onWire f.aqid
  case rattach => exact wire_qidFields_onWire f.qid
  case ropen | rcreate | ropenfd =>
    simp only [fields, wire_append]
    exact congrArg (· ++ _) (wire_qidFields_onWire f.qid)
  all_goals rfl

theorem vers_onWire_lt {f : Fcall} {q : Qid} (h : q ∈ f.onWire.qids t) : q.vers.toNat < 2 ^ 32 := by
  obtain ⟨q', rfl⟩ : ∃ q', q = Qid.onWire q' := by
    cases t
    case rwalk =>
      rw [Fcall.qids, wqids_onWire] at h
      obtain ⟨q', -, rfl⟩ := mem_map.mp h
      exact ⟨q', rfl⟩
    case rauth => exact ⟨f.aqid, mem_singleton.mp h⟩
    case rattach | ropen | rcreate | ropenfd => exact ⟨f.qid, mem_singleton.mp h⟩
    all_goals exact absurd h not_mem_nil
  rw [toNat_vers_onWire]
  exact mod_lt _ (by decide)

/-! ## Messages that are packed -/

/-- The pointers of a message are good, and nothing they point to is in the buffer. -/
structure Fcall.Packable (m : Mem) (f : Fcall) (t : MsgType) (ap nap : Nat) : Prop where
  strings : ∀ s ∈ f.strings t, s ≠ nil → ∃ bs, CStr m s bs
  blobs : ∀ b ∈ f.blobs t, b.1 + b.2 ≤ m.length
  apart : f.Apart m t ap (ap + nap)

section Packed

variable {f : Fcall} {ap nap n : Nat}

theorem length_wire_names {ss : List Nat} (hlen : ∀ s ∈ ss, (strBytes m s).length < 2 ^ 16) :
    (wire (ss.map (strField (view m)))).length ≤ ss.length * (2 ^ 16 + 1) := by
  induction ss with
  | nil => simp
  | cons s ss ih =>
    have hs := hlen s (by simp)
    have hss := ih fun s' h => hlen s' (by simp [h])
    simp only [map_cons, wire_cons, length_append, strField, length_bytes_blob,
      view, length_cons, BIT16SZ] at hss ⊢
    omega

/-- Without data no sum of sizes comes near `2 ^ 32`. -/
theorem wireSize_lt (hv : f.Valid m t) (hlen : ∀ s ∈ f.strings t, (strBytes m s).length < 2 ^ 16)
    (hw : t ≠ .twrite) (hr : t ≠ .rread) : wireSize m f t < 2 ^ 32 := by
  have hb := hv.blobs
  have hstat := f.nstat.toNat_lt
  cases t
  case twrite | rread => contradiction
  case twalk =>
    have hnames := length_wire_names hlen
    have hcount : f.wnames.length ≤ 16 := (length_take_le' _ _).trans Vector.length_toList.le
    simp only [wireSize, fields, wire_append, length_append, Fcall.strings] at hnames ⊢
    simp
    omega
  case rwalk =>
    have hcount : f.wqids.length ≤ 16 := (length_take_le' _ _).trans Vector.length_toList.le
    simp only [wireSize, fields, wire_cons, length_append, length_wire_qids]
    simp
    omega
  all_goals
    simp [wireSize, fields, strField, view, Fcall.strings, Fcall.blobs] at hlen hb ⊢
    try rw [length_slice hb]
    try omega

/-- The statements of `convS2M`, for a message of type `t` whose size is taken to be `size`. -/
theorem convS2M_cases (h : convS2M m f ap nap = (n, m')) (hn : n ≠ 0) :
    n = sizeS2M m f ∧ sizeS2M m f ≤ nap ∧ ∃ t w, ofCode f.type = some t ∧
      ((do put32 (sizeS2M m f); put8 f.type.toNat; put16 f.tag.toNat; bodyS2M f t) : S2M Unit).run
        ⟨m, ap⟩ = .ok () w ∧ w.p - ap = sizeS2M m f ∧ w.mem = m' := by
  simp only [convS2M] at h
  split_ifs at h with h0 hle
  · exact absurd (congrArg fst h).symm hn
  · exact absurd (congrArg fst h).symm hn
  cases ht : ofCode f.type with
  | none => exact absurd (by rw [sizeS2M, ht]) h0
  | some t =>
    simp only [ht] at h
    split at h
    · exact absurd (congrArg fst h).symm hn
    · next w hrun =>
      split_ifs at h with hp
      · exact absurd (congrArg fst h).symm hn
      · cases h
        exact ⟨rfl, by omega, t, w, rfl, hrun, by omega, rfl⟩

/-- The counts of a walk are checked. -/
theorem bodyS2M_counts {w w' : Packer} (h : (bodyS2M f t).run w = .ok () w') :
    (t = .twalk → f.nwname.toNat ≤ MAXWELEM) ∧ (t = .rwalk → f.nwqid.toNat ≤ MAXWELEM) := by
  constructor
  · rintro rfl
    by_contra hgt
    simp only [bodyS2M, if_pos (Nat.lt_of_not_le hgt)] at h
    cases h
  · rintro rfl
    by_contra hgt
    simp only [bodyS2M, if_pos (Nat.lt_of_not_le hgt)] at h
    cases h

/-- Where the cursor is after a message with data. -/
theorem bodyS2M_data {w w' : Packer} (hb : ∀ b ∈ f.blobs t, b.1 + b.2 ≤ m.length)
    (ht : t = .twrite ∨ t = .rread) (h : (bodyS2M f t).run w = .ok () w') :
    w'.p = w.p + (wire (fields (view m) f t)).length := by
  rcases ht with rfl | rfl
  · have hlen := length_slice (hb _ (.head _))
    cases h
    simp [fields, view, hlen, BIT32SZ, BIT64SZ]
    omega
  · have hlen := length_slice (hb _ (.head _))
    cases h
    simp [fields, view, hlen, BIT32SZ]
    omega

/-- **A message that was packed** has a size below `2 ^ 32`, and is in the buffer. -/
theorem convS2M_returns (h : convS2M m f ap nap = (n, m')) (hn : n ≠ 0)
    (hp : ∀ t, ofCode f.type = some t → f.Packable m t ap nap)
    (hlen : ∀ t, ofCode f.type = some t → ∀ s ∈ f.strings t, (strBytes m s).length < 2 ^ 16) :
    ∃ t, ofCode f.type = some t ∧ f.Valid m t ∧ n = wireSize m f t ∧ n < 2 ^ 32 ∧ n ≤ nap ∧
      m' = patch m ap (wire (header n f ++ fields (view m) f t)) := by
  obtain ⟨rfl, hle, t, w, ht, hrun, hw, rfl⟩ := convS2M_cases h hn
  have hp := hp t ht
  have hlen := hlen t ht
  have hbody : ∃ w1 : Packer, w1.p = ap + 7 ∧ (bodyS2M f t).run w1 = .ok () w := ⟨_, rfl, hrun⟩
  obtain ⟨w1, hw1, hbody⟩ := hbody
  obtain ⟨hwalk, hqids⟩ := bodyS2M_counts hbody
  have hv : f.Valid m t := ⟨hp.strings, hp.blobs, hwalk, hqids⟩
  have hsize := sizeS2M_eq ht hv
  have hlt : wireSize m f t < 2 ^ 32 := by
    by_cases hdata : t = .twrite ∨ t = .rread
    · -- the size that was computed is that of the bytes stored
      have hp' := bodyS2M_data hp.blobs hdata hbody
      simp only [wireSize, BIT32SZ, BIT8SZ, BIT16SZ]
      omega
    · obtain ⟨hw', hr'⟩ := not_or.mp hdata
      exact wireSize_lt hv hlen hw' hr'
  have hn' : sizeS2M m f = wireSize m f t := by
    rw [hsize, ← wireSize, mod_eq_of_lt hlt]
  have hconv := convS2M_eq ht hv hp.apart hlt (hn' ▸ hle)
  rw [h] at hconv
  rw [hn']
  exact ⟨t, ht, hv, rfl, hlt, hn' ▸ hle, congrArg snd hconv⟩

/-- What is counted in a message: its strings, and data that has as many bytes as its count. -/
theorem blob_mem_fields {w : Nat} {bs : List UInt8} (hv : f.Valid m t)
    (h : blob w bs ∈ fields (view m) f t) :
    (∃ s ∈ f.strings t, w = BIT16SZ ∧ bs = strBytes m s) ∨ bs.length < 256 ^ w := by
  have hqid : ∀ q, blob w bs ∉ qidFields q := fun q => by simp [qidFields]
  have hb : ∀ b ∈ f.blobs t, (slice m b.1 b.2).length = b.2 := fun b hb =>
    length_slice (hv.blobs b hb)
  have h16 := f.nstat.toNat_lt
  have h32 := f.count.toNat_lt
  cases t
  case twalk =>
    rcases mem_append.mp h with h | h
    · simp at h
    · obtain ⟨s, hs, heq⟩ := mem_map.mp h
      obtain ⟨rfl, rfl⟩ := blob.inj heq
      exact .inl ⟨s, hs, rfl, rfl⟩
  case rwalk =>
    rcases mem_cons.mp h with h | h
    · cases h
    · obtain ⟨q, -, hq⟩ := mem_flatMap.mp h
      exact absurd hq (hqid q)
  case rauth | rattach => exact absurd h (hqid _)
  case ropen | rcreate | ropenfd =>
    rcases mem_append.mp h with h | h
    · exact absurd h (hqid _)
    · simp at h
  all_goals
    simp only [fields, strField, view, Fcall.strings, Fcall.blobs, mem_cons, not_mem_nil, or_false,
      false_or, reduceCtorEq, blob.injEq, exists_eq_or_imp, exists_eq_left, forall_eq] at h hb ⊢
  case twrite | rread =>
    obtain ⟨rfl, rfl⟩ := h
    exact .inr (hb.symm ▸ h32)
  case twstat | rstat =>
    obtain ⟨rfl, rfl⟩ := h
    exact .inr (hb.symm ▸ h16)
  all_goals tauto

/-- The message is in the buffer, with its own size and right lengths, and is accepted. -/
theorem convS2M_counted (h : convS2M m f ap nap = (n, m')) (hn : n ≠ 0) (hmem : ap + nap ≤ m.length)
    (hp : ∀ t, ofCode f.type = some t → f.Packable m t ap nap)
    (hlen : ∀ t, ofCode f.type = some t → ∀ s ∈ f.strings t, (strBytes m s).length < 2 ^ 16) :
    ∃ t, ofCode f.type = some t ∧ n = wireSize m f t ∧ gbit32 m' ap = n ∧
      Counted m' (ap + 7) (fields (view m) f t) ∧ ∀ f0, (convM2S m' ap n f0).1 = n := by
  obtain ⟨t, ht, hv, hsize, hlt, hle, rfl⟩ := convS2M_returns h hn hp hlen
  have hlen := hlen t ht
  have htotal : n = (wire (header n f) ++ wire (fields (view m) f t)).length := by
    rw [← wire_append, length_wire_header, hsize]
  have hhead : (wire (header n f)).length = 7 := by simp [header]
  have hwire : slice (patch m ap (wire (header n f ++ fields (view m) f t))) ap n =
      wire (header n f) ++ wire (fields (view m) f t) := by
    have hself := slice_patch_self (show ap +
      (wire (header n f) ++ wire (fields (view m) f t)).length ≤ m.length by omega)
    rw [← htotal] at hself
    rw [wire_append, hself]
  set m' := patch m ap (wire (header n f ++ fields (view m) f t)) with hm'
  have hroom : ap + n ≤ m'.length := by
    rw [hm', length_patch]
    omega
  have hparts : slice m' ap 7 = wire (header n f) ∧
      slice m' (ap + 7) (wire (fields (view m) f t)).length = wire (fields (view m) f t) := by
    have h := hwire
    nth_rewrite 1 [htotal] at h
    rwa [slice_append_iff, hhead] at h
  have hge : 7 ≤ n := by
    rw [htotal, length_append, hhead]
    omega
  refine ⟨t, ht, hsize, (read_header f (by omega) hlt hparts.1).1,
    .of_bytes hparts.2 fun w bs hmem => ?_, fun f0 => ?_⟩
  · rcases blob_mem_fields hv hmem with ⟨s, hs, rfl, rfl⟩ | hfit
    · exact hlen s hs
    · exact hfit
  -- what is read back has the versions that are on the wire
  have hv' : f.onWire.Valid m t :=
    ⟨by cases t <;> exact hv.strings, by cases t <;> exact hv.blobs, hv.nwname, hv.nwqid⟩
  have hlen' : ∀ s ∈ f.onWire.strings t, (strBytes m s).length ≤ 65535 := by
    cases t <;> exact fun s hs => le_of_lt_succ (hlen s hs)
  have hfit := forall_fits_fields hv' hlen' fun q hq => vers_onWire_lt hq
  have hwire' := wire_fields_onWire (view m) f t
  refine convM2S_complete (g := f.onWire) (v := view m) hroom ht ?_ ?_ le_rfl hlt hfit hv.nwname
    hv.nwqid
  · rw [hwire, wire_append, hwire']
    rfl
  · rw [hwire', htotal, length_append, hhead]

end Packed

/-! ## Directory entries -/

theorem convD2M_counted {d : Dir} {buf nbuf n : Nat} (h : convD2M m d buf nbuf = (n, m'))
    (hn : BIT16SZ < n) (hmem : buf + nbuf ≤ m.length) (hv : d.Valid m)
    (ha : d.Apart m buf (buf + nbuf)) (hsize : sizeD2M m d ≤ 65537) :
    n = sizeD2M m d ∧ gbit16 m' buf = n - BIT16SZ ∧
      Counted m' (buf + BIT16SZ) (dirFields (view m) d) ∧ statcheck m' buf n = 0 := by
  -- a buffer that is too small gets the count only
  have hle : sizeD2M m d ≤ nbuf := by
    by_contra hgt
    have hss : STATFIXLEN + d.sv.foldl (fun ns s => ns + nsv m s) 0 = sizeD2M m d := rfl
    simp only [convD2M, hss, put16, EStateM.run, if_pos (Nat.lt_of_not_le hgt)] at h
    split_ifs at h
    · exact absurd (congrArg fst h) (by simp only; omega)
    · exact absurd (congrArg fst h) (by simp only; omega)
  obtain ⟨-, hcheck, -⟩ := @convD2M_convM2D 0 m d buf nbuf hv ha hsize hle hmem
  rw [convD2M_eq hv ha hle] at h hcheck
  cases h
  set count := num BIT16SZ (sizeD2M m d - BIT16SZ) with hcount
  have htotal : (count.bytes ++ wire (dirFields (view m) d)).length = sizeD2M m d := by
    rw [length_append, hcount, length_bytes_num, sizeD2M_eq]
  have hself := slice_patch_self
    (show buf + (count.bytes ++ wire (dirFields (view m) d)).length ≤ m.length by omega)
  have hstat := packed_statBuffer hsize (by rw [length_patch]; omega) (htotal ▸ hself)
  have hparts := (slice_append_iff.mp hself).2
  rw [hcount, length_bytes_num] at hparts
  refine ⟨rfl, hstat.2.1, .of_bytes hparts fun w bs hblob => ?_, (hcheck _).mpr rfl⟩
  -- a string is a part of the entry, whose size fits
  have hle' := length_bytes_le_wire hblob
  have hwire := sizeD2M_eq m d
  rw [length_bytes_blob] at hle'
  obtain rfl : w = BIT16SZ := by
    rcases mem_append.mp hblob with hint | hstr
    · simp [intFields, qidFields] at hint
    · obtain ⟨s, -, heq⟩ := mem_map.mp hstr
      exact (blob.inj heq).1.symm
  simp only [BIT16SZ] at *
  omega

/-- A length that is right fits the bytes that it is stored in. -/
theorem Counted.length_lt {p w : Nat} {fs : List Field} {bs : List UInt8} (h : Counted m p fs)
    (hmem : Field.blob w bs ∈ fs) : bs.length < 256 ^ w := by
  obtain ⟨as, cs, rfl⟩ := append_of_mem hmem
  rw [← h.lengths as w bs cs rfl]
  exact (ofLe_lt _).trans_le (Nat.pow_le_pow_right (by decide) (length_take_le _ _))

/-- **The lengths are right** exactly if the strings are short: a message that was packed has its
own size in front and the length of each string before it, and is accepted; so is a directory entry
exactly if its size fits its count. -/
theorem lengths_true (m m' : Mem) (p np n : Nat) (hmem : p + np ≤ m.length) :
    (∀ f, convS2M m f p np = (n, m') → n ≠ 0 →
      (∀ t, MsgType.ofCode f.type = some t → f.Packable m t p np) →
      ((∃ t, MsgType.ofCode f.type = some t ∧ n = wireSize m f t ∧ gbit32 m' p = n ∧
        Counted m' (p + 7) (fields (view m) f t) ∧ ∀ f₀, (convM2S m' p n f₀).1 = n) ↔
      ∀ t, MsgType.ofCode f.type = some t →
        ∀ s ∈ f.strings t, (strBytes m s).length < 2 ^ 16)) ∧
    (∀ d, convD2M m d p np = (n, m') → BIT16SZ < n → d.Valid m → d.Apart m p (p + np) →
      ((n = sizeD2M m d ∧ gbit16 m' p = n - BIT16SZ ∧
        Counted m' (p + BIT16SZ) (dirFields (view m) d) ∧ statcheck m' p n = 0) ↔
      sizeD2M m d ≤ 65537)) := by
  refine ⟨fun f h hn hp => ⟨?_, convS2M_counted h hn hmem hp⟩,
    fun d h hn hv ha => ⟨?_, convD2M_counted h hn hmem hv ha⟩⟩
  · rintro ⟨t, ht, -, -, hcounted, -⟩ t' ht' s hs
    obtain rfl := Option.some.inj (ht.symm.trans ht')
    exact hcounted.length_lt (strField_mem_fields hs)
  · rintro ⟨rfl, hcount, -⟩
    have hlt : gbit16 m' p < 256 ^ 2 := (ofLe_two _ _).symm.trans_lt (ofLe_lt _)
    simp only [BIT16SZ] at *
    omega

/-- An `Rerror` whose text is before the buffer. -/
theorem packable_rerror {f : Fcall} {ap nap : Nat} {bs : List UInt8} (hf : f.type = 107)
    (hbs : CStr m f.ename bs) (hap : f.ename + bs.length + 1 ≤ ap) :
    ∀ t, ofCode f.type = some t →
      f.Packable m t ap nap ∧ f.strings t = [f.ename] ∧ t = .rerror := by
  intro t ht
  rw [hf] at ht
  obtain rfl : t = .rerror := Option.some.inj (ht.symm.trans (by decide))
  refine ⟨⟨fun s hs _ => ?_, nofun, fun s hs _ => .inl ?_, nofun⟩, rfl, rfl⟩
  · obtain rfl := mem_singleton.mp hs
    exact ⟨bs, hbs⟩
  · obtain rfl := mem_singleton.mp hs
    rwa [strlen, hbs.cstring_eq]

theorem exists_eq_of_fst {r : Nat × Mem} {n : Nat} (h : r.1 = n) : ∃ m, r = (n, m) :=
  ⟨r.2, Prod.ext h rfl⟩

/-- The bytes `ab`, and room for a message. -/
def shortError : Mem := [0, 97, 98, 0] ++ List.replicate 60 0

/-- An `Rerror` of two bytes, and an entry without strings. -/
theorem lengths_true_rerror :
    ∃ m' m'', convS2M shortError { (default : Fcall) with type := 107, ename := 1 } 4 11 =
        (11, m') ∧ gbit32 m' 4 = 11 ∧ (convM2S m' 4 11 default).1 = 11 ∧
      convD2M shortError default 4 49 = (49, m'') ∧ gbit16 m'' 4 = 47 ∧
      statcheck m'' 4 49 = 0 := by
  have hab : CStr shortError 1 [97, 98] := ⟨by decide, by decide⟩
  obtain ⟨m', hconv⟩ := exists_eq_of_fst (show (convS2M shortError
    { (default : Fcall) with type := 107, ename := 1 } 4 11).1 = 11 by decide +kernel)
  obtain ⟨m'', hdir⟩ := exists_eq_of_fst (show (convD2M shortError default 4 49).1 = 49 by
    decide +kernel)
  have hp := @packable_rerror shortError { (default : Fcall) with type := 107, ename := 1 } 4 11
    [97, 98] rfl hab (by decide)
  have hnil : ∀ s ∈ (default : Dir).sv, s = nil := by decide
  obtain ⟨t, -, -, hsize, -, haccept⟩ := (lengths_true _ _ _ _ _ (by decide)).1 _ hconv
    (by decide) (fun t ht => (hp t ht).1) |>.mpr (fun t ht s hs => by
      rw [(hp t ht).2.1] at hs
      obtain rfl := mem_singleton.mp hs
      decide)
  obtain ⟨-, hcount, -, hcheck⟩ := (lengths_true _ _ _ _ _ (by decide)).2 _ hdir (by decide)
    (fun s hs hne => absurd (hnil s hs) hne) (fun s hs hne => absurd (hnil s hs) hne)
    |>.mpr (by decide)
  exact ⟨m', m'', hconv, hsize, haccept default, hdir, hcount, hcheck⟩

/-- An `Rerror` whose text has `2 ^ 16` bytes is packed with the length 0, and is not accepted. -/
theorem rerror_truncated {f : Fcall} {ap : Nat} {bs : List UInt8} (hf : f.type = 107)
    (hbs : CStr m f.ename bs) (hne : f.ename ≠ nil) (hlen : bs.length = 2 ^ 16)
    (hap : f.ename + bs.length + 1 ≤ ap) (hmem : ap + 65545 ≤ m.length) :
    ∃ m', convS2M m f ap 65545 = (65545, m') ∧ gbit16 m' (ap + 7) = 0 ∧
      ∀ f0, (convM2S m' ap 65545 f0).1 = 0 := by
  have ht : ofCode f.type = some .rerror := by
    rw [hf]
    decide
  obtain ⟨hp, -, -⟩ := @packable_rerror m f ap 65545 bs hf hbs hap .rerror ht
  have hstr : (view m).str f.ename = bs := hbs.strBytes_eq hne
  have hfields : fields (view m) f .rerror = [.blob BIT16SZ bs] := by rw [fields, strField, hstr]
  have hsize : wireSize m f .rerror = 65545 := by
    rw [wireSize, hfields]
    simp [hlen, BIT32SZ, BIT8SZ, BIT16SZ]
  have hconv := convS2M_eq ht ⟨hp.strings, hp.blobs, (by simp), (by simp)⟩ hp.apart (by omega)
    hsize.le
  rw [hsize, hfields] at hconv
  -- the bytes of the message
  have hhead : (wire (header 65545 f)).length = 7 := by simp [header]
  have htotal : (wire (header 65545 f ++ [.blob BIT16SZ bs])).length = 65545 := by
    rw [wire_append, length_append, hhead]
    simp [hlen, BIT16SZ]
  have hbytes := slice_patch_self
    (show ap + (wire (header 65545 f ++ [.blob BIT16SZ bs])).length ≤ m.length by omega)
  set m' := patch m ap (wire (header 65545 f ++ [.blob BIT16SZ bs])) with hm'
  have hroom : ap + 65545 ≤ m'.length := by rwa [hm', length_patch]
  have hparts := hbytes
  rw [wire_append, slice_append_iff, hhead, wire_cons, wire_nil, append_nil, bytes,
    slice_append_iff, length_le] at hparts
  obtain ⟨hheader, hcount, -⟩ := hparts
  rw [htotal] at hbytes
  refine ⟨m', hconv, ?_, fun f0 => ?_⟩
  · rw [gbit16_eq (by rw [BIT16SZ]; omega), hcount, hlen]
    decide
  by_contra hne0
  obtain ⟨n, f', m'', hrun⟩ : ∃ n f' m'', convM2S m' ap 65545 f0 = (n, f', m'') := ⟨_, _, _, rfl⟩
  rw [hrun] at hne0
  obtain ⟨-, hn, -⟩ := convM2S_cases hrun hne0
  rw [(read_header f0 (by omega) (by decide) hheader).1] at hn
  subst hn
  obtain ⟨t, hr⟩ := convM2S_sound hroom hrun hne0
  have hsame := hbytes.symm.trans hr.bytes
  obtain ⟨htype, -, hwire⟩ := header_inj (by decide) hsame
  obtain rfl : .rerror = t := Option.some.inj (ht.symm.trans (htype ▸ hr.type))
  -- a length that was read is below `2 ^ 16`, and the text is longer
  have hfit := hr.took.fits _ (.head _)
  have hlens := congrArg length hwire
  simp only [fields, strField, fits_blob, wire_cons, wire_nil, append_nil,
    length_bytes_blob, BIT16SZ] at hfit hlens
  omega

theorem cstr_cons {bs ys : List UInt8} (h : 0 ∉ bs) : CStr (0 :: (bs ++ 0 :: ys)) 1 bs := by
  refine ⟨h, ?_⟩
  rw [slice, drop_succ_cons, drop_zero, append_cons bs 0 ys]
  exact take_left

/-- A text of `2 ^ 16` bytes, and room for a message. -/
def longError : Mem := 0 :: (List.replicate (2 ^ 16) 97 ++ 0 :: List.replicate 65545 0)

/-- **A length that was truncated**: the message is packed, and its text has the length 0. -/
theorem ename_length_truncated :
    strlen longError 1 = 65536 ∧
      ∃ m', convS2M longError { (default : Fcall) with type := 107, ename := 1 } 65538 65545 =
          (65545, m') ∧ gbit16 m' (65538 + 7) = 0 ∧
        ∀ f₀, (convM2S m' 65538 65545 f₀).1 = 0 := by
  have hlen : (replicate (2 ^ 16) (97 : UInt8)).length = 2 ^ 16 := length_replicate
  have hbs : CStr longError 1 (replicate (2 ^ 16) 97) :=
    cstr_cons fun h => absurd (eq_of_mem_replicate h) (by decide)
  refine ⟨by rw [strlen, hbs.cstring_eq, hlen]; decide, ?_⟩
  refine rerror_truncated rfl hbs (by decide) hlen (by rw [hlen]; decide) ?_
  rw [longError, length_cons, length_append, length_cons, hlen, length_replicate]
  decide

end Plan9Port.Ninep
