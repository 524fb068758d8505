import Plan9Port.Venti.Bucket

/-!
# Writing the index cache

`icachewritesect` of `icachewrite.c` (`cmd/venti/srv`): the dirty entries of an index section are
sorted by score, and then written chunk by chunk. A chunk is a range of buckets that fits into the
buffer; it is read, updated entry by entry, and written back. An entry that does not fit its bucket
is taken off the chunk's list, so that it is not marked clean, and the call returns an error.

The partition is what `readpart` reads and `writepart` writes. The copies of its blocks in the disk
cache are refreshed with the same bytes and are not modelled; nor is the pacing of the writes.
-/

namespace Plan9Port.Venti

open LittleEndian Memory SortedMap List

/-- The index. -/
structure Index where
  div : Nat

/-! ## Sorting -/

/-- Scores are compared. -/
def scorecmp (a b : IEntry) : Int := bytecmp a.score b.score

/-- How often the two pointers of `iesort` move, for the entries ahead of the second one. -/
def strides : List IEntry → Nat
  | [] => 0
  | [_] => 1
  | _ :: _ :: es => strides es + 1

/-- Sorted lists are merged. -/
def merge : List IEntry → List IEntry → List IEntry
  | [], es₂ => es₂
  | e₁ :: es₁, [] => e₁ :: es₁
  | e₁ :: es₁, e₂ :: es₂ =>
    if scorecmp e₁ e₂ > 0 then e₂ :: merge (e₁ :: es₁) es₂
    else e₁ :: merge es₁ (e₂ :: es₂)

/-- `iesort`, with fuel for the depth of the recursion. -/
def iesortLoop : Nat → List IEntry → List IEntry
  | 0, es => es
  | fuel + 1, es =>
    match es with
    | [] => []
    | [e] => [e]
    | es =>
      let n := strides (es.drop 2) + 1
      merge (iesortLoop fuel (es.take n)) (iesortLoop fuel (es.drop n))

/-- The entries in the order of scores. -/
def iesort (es : List IEntry) : List IEntry := iesortLoop es.length es

/-! ## Chunks -/

/-- `hashbits(score, 32)`. -/
def hashbits (score : List UInt8) : Nat := ofLe (score.take 4).reverse

/-- The bucket of an entry. -/
def bucketOf (ix : Index) (ie : IEntry) : Nat := hashbits ie.score / ix.div

/-- Where the bucket is. -/
def ie2diskaddr (ix : Index) (is : ISect) (ie : IEntry) : Nat :=
  (is.blockbase + ((bucketOf ix ie + 2 ^ 64 - is.start) % 2 ^ 64) <<< is.blocklog) % 2 ^ 64

/-- The size of the buffer. -/
def Bufsize : Nat := 8 * 1024 * 1024

/-- `naddr - addr`, unsigned. -/
def sub64 (naddr addr : Nat) : Nat := (naddr + 2 ^ 64 - addr) % 2 ^ 64

/-- The loop of `nextchunk`: the entries of the chunk, those after it, and the offset of the last
bucket. -/
def nextchunkLoop (ix : Index) (is : ISect) (addr : Nat) :
    List IEntry → Nat → List IEntry × List IEntry × Nat
  | [], nbuf => ([], [], nbuf)
  | ie :: es, nbuf =>
    let d := sub64 (ie2diskaddr ix is ie) addr
    if d ≥ Bufsize then ([], ie :: es, nbuf)
    else
      let (chunk, rest, nbuf) := nextchunkLoop ix is addr es (d % 2 ^ 32)
      (ie :: chunk, rest, nbuf)

/-- The update loop of `icachewritesect`: the buffer, the chunk without the entries that were
skipped, and whether there were any. -/
def updateChunk (ix : Index) (is : ISect) (addr nbuf : Nat) :
    List IEntry → List UInt8 → Option (List UInt8 × List IEntry × Bool)
  | [], buf => some (buf, [], false)
  | ie :: es, buf => do
    let off := sub64 (ie2diskaddr ix is ie) addr % 2 ^ 32
    if off + is.blocksize > nbuf then none
    else do
      let r ← update is ie off buf
      match r with
      | none =>
        let (buf, chunk, _) ← updateChunk ix is addr nbuf es buf
        return (buf, chunk, true)
      | some buf =>
        let (buf, chunk, err) ← updateChunk ix is addr nbuf es buf
        return (buf, ie :: chunk, err)

/-- One turn of the outer loop, for the first entry `ie`, whose bucket is at `addr`: the partition,
the entries that are clean now, those that are left, and whether there was an error. -/
def writeChunk (ix : Index) (is : ISect) (addr : Nat) (ie : IEntry) (es : List IEntry)
    (part : Part) : Option (Part × List IEntry × List IEntry × Bool) :=
  let (chunk, rest, nbuf) := nextchunkLoop ix is addr es 0
  let nbuf := nbuf + is.blocksize
  match readpart part addr nbuf with
  | none => some (part, [], rest, true)
  | some buf => do
    let (buf, chunk, err) ← updateChunk ix is addr nbuf (ie :: chunk) buf
    match writepart part addr buf with
    | none => return (part, [], rest, true)
    | some part => return (part, chunk, rest, err)

/-- The loop of `icachewritesect`. -/
def writeLoop (ix : Index) (is : ISect) : Nat → List IEntry → Part →
    Option (Part × List IEntry × Bool)
  | _, [], part => some (part, [], false)
  | 0, _ :: _, _ => none
  | fuel + 1, ie :: es, part => do
    let (part, chunk, rest, err) ← writeChunk ix is (ie2diskaddr ix is ie) ie es part
    let (part, clean, err') ← writeLoop ix is fuel rest part
    return (part, chunk ++ clean, err || err')

/-- `icachewritesect`, for the entries that `icachedirty` has found. -/
def icachewritesect (ix : Index) (is : ISect) (dirty : List IEntry) (part : Part) :
    Option (Part × List IEntry × Bool) :=
  writeLoop ix is dirty.length (iesort dirty) part

/-! ## The order of the entries -/

variable {a b : IEntry}

theorem scorecmp_le_iff : scorecmp a b ≤ 0 ↔ a.score.map UInt8.toNat ≤ b.score.map UInt8.toNat := by
  rw [scorecmp]
  rcases bytecmp_cases (a.length_score.trans b.length_score.symm) with
    ⟨hc, hlt⟩ | ⟨hc, heq⟩ | ⟨hc, hlt⟩
  · exact ⟨fun _ => hlt.le, fun _ => by omega⟩
  · exact ⟨fun _ => by rw [heq], fun _ => by omega⟩
  · exact ⟨fun h => by omega, fun h => absurd hlt (not_lt.mpr h)⟩

theorem merge_eq (es₁ es₂ : List IEntry) :
    merge es₁ es₂ = es₁.merge es₂ fun a b => scorecmp a b ≤ 0 := by
  induction es₁, es₂ using merge.induct with
  | case1 es₂ => simp [merge]
  | case2 e₁ es₁ => simp [merge]
  | case3 e₁ es₁ e₂ es₂ hgt ih =>
    rw [merge, if_pos hgt, cons_merge_cons, if_neg (by simpa using hgt), ih]
  | case4 e₁ es₁ e₂ es₂ hle ih =>
    rw [merge, if_neg hle, cons_merge_cons, if_pos (by simpa using hle), ih]

theorem merge_perm (es₁ es₂ : List IEntry) : (merge es₁ es₂).Perm (es₁ ++ es₂) := by
  rw [merge_eq]
  exact merge_perm_append _

theorem merge_sorted {es₁ es₂ : List IEntry} (h1 : es₁.Pairwise (scorecmp · · ≤ 0))
    (h2 : es₂.Pairwise (scorecmp · · ≤ 0)) : (merge es₁ es₂).Pairwise (scorecmp · · ≤ 0) := by
  have htrans : ∀ a b c : IEntry, scorecmp a b ≤ 0 → scorecmp b c ≤ 0 → scorecmp a c ≤ 0 := by
    simp only [scorecmp_le_iff]
    exact fun _ _ _ => le_trans
  have htotal : ∀ a b : IEntry, scorecmp a b ≤ 0 ∨ scorecmp b a ≤ 0 := by
    simp only [scorecmp_le_iff]
    exact fun _ _ => le_total _ _
  have := @pairwise_merge _ (fun a b => scorecmp a b ≤ 0) (by simpa using htrans)
    (by simpa using htotal) es₁ es₂ (by simpa using h1) (by simpa using h2)
  rw [merge_eq]
  simpa using this

theorem strides_le (es : List IEntry) : strides es ≤ es.length := by
  induction es using strides.induct with
  | case1 => simp [strides]
  | case2 e => simp [strides]
  | case3 a b es ih =>
    rw [strides, length_cons, length_cons]
    omega

variable {es : List IEntry} {fuel : Nat}

theorem iesortLoop_spec (hfuel : es.length ≤ fuel) :
    (iesortLoop fuel es).Perm es ∧ (iesortLoop fuel es).Pairwise (scorecmp · · ≤ 0) := by
  induction fuel generalizing es with
  | zero =>
    obtain rfl := length_eq_zero_iff.mp (Nat.le_zero.mp hfuel)
    exact ⟨.refl _, Pairwise.nil⟩
  | succ fuel ih =>
    match es with
    | [] => exact ⟨.refl _, Pairwise.nil⟩
    | [e] => exact ⟨.refl _, pairwise_singleton _ _⟩
    | a :: b :: es =>
      -- both parts are shorter than the whole
      have hstride := strides_le es
      simp only [length_cons] at hfuel
      obtain ⟨n, hn⟩ : ∃ n, n = strides es + 1 := ⟨_, rfl⟩
      have htake : ((a :: b :: es).take n).length ≤ fuel := by
        rw [length_take, length_cons, length_cons]
        omega
      have hdrop : ((a :: b :: es).drop n).length ≤ fuel := by
        rw [length_drop, length_cons, length_cons]
        omega
      obtain ⟨hperm1, hsorted1⟩ := ih htake
      obtain ⟨hperm2, hsorted2⟩ := ih hdrop
      have hloop : iesortLoop (fuel + 1) (a :: b :: es) =
          merge (iesortLoop fuel ((a :: b :: es).take n))
            (iesortLoop fuel ((a :: b :: es).drop n)) := by
        rw [hn]
        rfl
      rw [hloop]
      refine ⟨(merge_perm _ _).trans ?_, merge_sorted hsorted1 hsorted2⟩
      have := hperm1.append hperm2
      rwa [take_append_drop] at this

theorem iesort_perm (es : List IEntry) : (iesort es).Perm es := (iesortLoop_spec le_rfl).1

theorem iesort_sorted (es : List IEntry) : (iesort es).Pairwise (scorecmp · · ≤ 0) :=
  (iesortLoop_spec le_rfl).2

/-- Bytes that compare in order are numbers in order. -/
theorem ofLe_reverse_le {xs ys : List UInt8} (hlen : xs.length = ys.length)
    (h : bytecmp xs ys ≤ 0) : ofLe xs.reverse ≤ ofLe ys.reverse := by
  induction xs generalizing ys with
  | nil =>
    obtain rfl := length_eq_zero_iff.mp hlen.symm
    exact le_rfl
  | cons x xs ih =>
    obtain ⟨y, ys, rfl⟩ := exists_cons_of_length_eq_add_one hlen.symm
    have hlen' : xs.length = ys.length := by simpa using hlen
    have happ : ∀ (zs : List UInt8) (b : UInt8),
        ofLe (zs.reverse ++ [b]) = ofLe zs.reverse + 256 ^ zs.length * b.toNat := by
      intro zs b
      have hpow : 2 ^ (8 * zs.reverse.length) = 256 ^ zs.length := by
        rw [length_reverse, Nat.pow_mul]
      have hlt := ofLe_lt zs.reverse
      rw [length_reverse, ← hpow] at hlt
      rw [ofLe_append, or_shiftLeft hlt, hpow, Nat.mul_comm]
      simp [ofLe]
    rw [reverse_cons, reverse_cons, happ, happ, hlen']
    have hx : ofLe xs.reverse < 256 ^ ys.length := by
      have := ofLe_lt xs.reverse
      rwa [length_reverse, hlen'] at this
    rw [bytecmp] at h
    split_ifs at h with hne hgt
    · omega
    · -- the first byte decides
      have hlt : x.toNat + 1 ≤ y.toNat := by
        have h1 : ¬ y.toNat < x.toNat := fun h => hgt (UInt8.lt_iff_toNat_lt.mpr h)
        have h2 : x.toNat ≠ y.toNat := fun h => hne (UInt8.toNat_inj.mp h)
        omega
      calc ofLe xs.reverse + 256 ^ ys.length * x.toNat
          ≤ 256 ^ ys.length + 256 ^ ys.length * x.toNat := by omega
        _ = 256 ^ ys.length * (x.toNat + 1) := by rw [Nat.mul_add, Nat.mul_one, Nat.add_comm]
        _ ≤ 256 ^ ys.length * y.toNat := Nat.mul_le_mul_left _ hlt
        _ ≤ ofLe ys.reverse + 256 ^ ys.length * y.toNat := Nat.le_add_left _ _
    · obtain rfl : x = y := not_not.mp hne
      exact Nat.add_le_add_right (ih hlen' h) _

theorem hashbits_le (h : scorecmp a b ≤ 0) : hashbits a.score ≤ hashbits b.score := by
  have hlen : (a.score.take 4).length = (b.score.take 4).length := by
    rw [length_take, length_take, a.length_score, b.length_score]
  refine ofLe_reverse_le hlen ?_
  rw [scorecmp, ← take_append_drop 4 a.score, ← take_append_drop 4 b.score,
    bytecmp_append hlen] at h
  split_ifs at h with hzero
  · exact h
  · exact (not_not.mp hzero).le

/-! ## The update loop -/

/-- The addresses of the buckets of a section that are in the partition. -/
def Slot (is : ISect) (size a : Nat) : Prop :=
  ∃ k, a = is.blockbase + k * is.blocksize ∧ a + is.blocksize ≤ size

/-- A bucket that is a sorted map: not too many entries, in the order of `ientrycmp`. -/
def Good (is : ISect) (buf : List UInt8) (off : Nat) : Prop :=
  count is buf off ≤ is.buckmax ∧ Sorted key (entries is buf off)

variable {off n addr : Nat} {is : ISect} {part : Part}

section

variable (hn : addr + n ≤ part.length) (hoff : off + is.blocksize ≤ n)
include hn hoff

/-- A range of the partition, as a buffer. -/
theorem count_slice : count is (slice part addr n) off = count is part (addr + off) := by
  have hroom : 6 ≤ is.blocksize := is.room
  have hlen := length_slice hn
  rw [count, count, unpackibucket, unpackibucket, U16GET, U16GET, U32GET, U32GET, hlen,
    slice_slice part (by omega), slice_slice part (by omega)]
  rw [if_pos (by omega), if_pos (by omega), if_pos (by omega), if_pos (by omega),
    add_assoc addr off 2]

theorem entries_slice (hcount : count is part (addr + off) ≤ is.buckmax) :
    entries is (slice part addr n) off = entries is part (addr + off) := by
  have hfits := is.buckmax_fits.1
  rw [entries, entries, count_slice hn hoff, records, records]
  refine map_congr_left fun i hi => ?_
  have hi' : (i + 1) * IEntrySize ≤ is.buckmax * IEntrySize :=
    Nat.mul_le_mul_right _ ((mem_range.mp hi).trans_le hcount)
  rw [add_mul, one_mul] at hi'
  rw [slice_slice part (by omega)]
  congr 1
  omega

end

theorem Good.slice (h : Good is part (addr + off)) (hn : addr + n ≤ part.length)
    (hoff : off + is.blocksize ≤ n) : Good is (slice part addr n) off := by
  refine ⟨?_, ?_⟩
  · rw [count_slice hn hoff]
    exact h.1
  · rw [entries_slice hn hoff h.1]
    exact h.2

/-- The entries of `es` that go into the bucket at the address `a`, packed. -/
def entriesFor (ix : Index) (is : ISect) (a : Nat) (es : List IEntry) : List (List UInt8) :=
  (es.filter fun ie => ie2diskaddr ix is ie = a).map packientry

variable {ie : IEntry} {ix : Index}

theorem entriesFor_cons_self {a : Nat} (es : List IEntry) (h : ie2diskaddr ix is ie = a) :
    entriesFor ix is a (ie :: es) = packientry ie :: entriesFor ix is a es := by
  simp [entriesFor, h]

theorem entriesFor_cons_of_ne {a : Nat} (es : List IEntry) (h : ie2diskaddr ix is ie ≠ a) :
    entriesFor ix is a (ie :: es) = entriesFor ix is a es := by
  simp [entriesFor, h]

variable {size : Nat}

/-- Two blocks of a section are the same or disjoint. -/
theorem Slot.disjoint {a b : Nat} (ha : Slot is size a) (hb : Slot is size b) (hne : a ≠ b) :
    a + is.blocksize ≤ b ∨ b + is.blocksize ≤ a := by
  obtain ⟨i, rfl, -⟩ := ha
  obtain ⟨j, rfl, -⟩ := hb
  rcases lt_trichotomy i j with hlt | rfl | hgt
  · have : (i + 1) * is.blocksize ≤ j * is.blocksize := Nat.mul_le_mul_right _ hlt
    rw [add_mul] at this
    omega
  · exact absurd rfl hne
  · have : (j + 1) * is.blocksize ≤ i * is.blocksize := Nat.mul_le_mul_right _ hgt
    rw [add_mul] at this
    omega

variable {buf : List UInt8} {nbuf : Nat}

/-- **The update loop.** The entries of a chunk are put into their buckets one after the other, each
bucket a sorted map of bounded size; the loop reports whether one of them refuses an entry. -/
theorem updateChunk_spec (hnbuf : nbuf < 2 ^ 32) (hend : addr + nbuf < 2 ^ 64)
    (hlen : buf.length = nbuf)
    (hes : ∀ ie ∈ es, addr ≤ ie2diskaddr ix is ie ∧ Slot is (addr + nbuf) (ie2diskaddr ix is ie))
    (hgood : ∀ off, Slot is (addr + nbuf) (addr + off) → Good is buf off) :
    ∃ buf' kept err, updateChunk ix is addr nbuf es buf = some (buf', kept, err) ∧
      buf'.length = nbuf ∧ kept.Sublist es ∧ (err = false → kept = es) ∧
      (∀ off, Slot is (addr + nbuf) (addr + off) → Good is buf' off ∧
        entries is buf' off =
          puts key is.buckmax (entriesFor ix is (addr + off) es) (entries is buf off)) ∧
      (err = true ↔ ∃ off, Slot is (addr + nbuf) (addr + off) ∧
        Refuses key is.buckmax (entriesFor ix is (addr + off) es) (entries is buf off)) := by
  induction es generalizing buf with
  | nil =>
    refine ⟨buf, [], false, rfl, hlen, .refl _, fun _ => rfl, fun off hoff => ⟨hgood off hoff, rfl⟩,
      by simp [entriesFor, Refuses]⟩
  | cons ie es ih =>
    obtain ⟨hle, hslot⟩ := hes ie (.head _)
    obtain ⟨o, ho⟩ : ∃ o, ie2diskaddr ix is ie = addr + o := ⟨_, (Nat.add_sub_cancel' hle).symm⟩
    have hfit : o + is.blocksize ≤ nbuf := by
      obtain ⟨k, -, hk⟩ := hslot
      omega
    have hoff : sub64 (ie2diskaddr ix is ie) addr % 2 ^ 32 = o := by
      rw [sub64, ho]
      omega
    rw [ho] at hslot
    obtain ⟨hcount, hsorted⟩ := hgood o hslot
    have hes' : ∀ ie ∈ es, addr ≤ ie2diskaddr ix is ie ∧
        Slot is (addr + nbuf) (ie2diskaddr ix is ie) := fun e he =>
      hes e (.tail _ he)
    rcases update_spec ie (by omega) hcount hsorted with
      ⟨hfits, hupdate⟩ | ⟨hfits, buf1, hupdate, hlen1, hcount1, hentries1, hframe⟩
    · -- the bucket refuses the entry, and stays as it is
      obtain ⟨buf', kept, err, hrun, hlen', hkept, -, hbuckets, herr⟩ := ih hlen hes' hgood
      have hput : put key is.buckmax (packientry ie) (entries is buf o) = entries is buf o :=
        if_neg hfits
      refine ⟨buf', kept, true, ?_, hlen', hkept.cons _, by simp, fun off hslot' => ?_, ?_⟩
      · simp only [updateChunk, hoff, hupdate, hrun, Lib.some_bind,
          if_neg (by omega : ¬ o + is.blocksize > nbuf)]
        rfl
      · obtain ⟨hgood', hentries'⟩ := hbuckets off hslot'
        refine ⟨hgood', ?_⟩
        by_cases hoo : off = o
        · subst hoo
          rw [entriesFor_cons_self es ho, puts_cons, hput, hentries']
        · rw [entriesFor_cons_of_ne es (by omega), hentries']
      · refine iff_of_true rfl ⟨o, hslot, ?_⟩
        rw [entriesFor_cons_self es ho]
        exact Or.inl hfits
    · -- the bucket takes the entry, and the others stay as they are
      have hput : put key is.buckmax (packientry ie) (entries is buf o) = entries is buf1 o := by
        rw [hentries1]
        exact if_pos hfits
      have hothers : ∀ off, Slot is (addr + nbuf) (addr + off) → off ≠ o →
          count is buf1 off = count is buf off ∧ entries is buf1 off = entries is buf off := by
        intro off hslot' hne
        refine entries_congr hlen1 (hgood off hslot').1 (hframe _ _ ?_)
        have := hslot'.disjoint hslot (by omega)
        omega
      have hgood1 : ∀ off, Slot is (addr + nbuf) (addr + off) → Good is buf1 off := by
        intro off hslot'
        by_cases hoo : off = o
        · subst hoo
          exact ⟨hcount1, hentries1 ▸ hsorted.upsert _⟩
        · obtain ⟨hc, he⟩ := hothers off hslot' hoo
          exact ⟨hc ▸ (hgood off hslot').1, he ▸ (hgood off hslot').2⟩
      obtain ⟨buf', kept, err, hrun, hlen', hkept, hall, hbuckets, herr⟩ :=
        ih (hlen1.trans hlen) hes' hgood1
      refine ⟨buf', ie :: kept, err, ?_, hlen', hkept.cons_cons _, fun h => by rw [hall h],
        fun off hslot' => ?_, ?_⟩
      · simp only [updateChunk, hoff, hupdate, hrun, Lib.some_bind,
          if_neg (by omega : ¬ o + is.blocksize > nbuf)]
        rfl
      · obtain ⟨hgood', hentries'⟩ := hbuckets off hslot'
        refine ⟨hgood', ?_⟩
        by_cases hoo : off = o
        · subst hoo
          rw [entriesFor_cons_self es ho, puts_cons, hput, hentries']
        · rw [entriesFor_cons_of_ne es (by omega), hentries', (hothers off hslot' hoo).2]
      · rw [herr]
        refine exists_congr fun off => and_congr_right fun hslot' => ?_
        by_cases hoo : off = o
        · subst hoo
          rw [entriesFor_cons_self es ho, Refuses, hput]
          exact (or_iff_right (not_not.mpr hfits)).symm
        · rw [entriesFor_cons_of_ne es (by omega), (hothers off hslot' hoo).2]

/-! ## All the chunks -/

/-- The entry belongs into the section, and its bucket is in the partition. -/
def InSection (ix : Index) (is : ISect) (size : Nat) (ie : IEntry) : Prop :=
  is.start ≤ bucketOf ix ie ∧ is.blockbase + (bucketOf ix ie - is.start + 1) * is.blocksize ≤ size

theorem InSection.ie2diskaddr_eq (h : InSection ix is size ie) (hsize : size < 2 ^ 64) :
    ie2diskaddr ix is ie = is.blockbase + (bucketOf ix ie - is.start) * is.blocksize := by
  obtain ⟨hstart, hend⟩ := h
  have hroom : 6 ≤ is.blocksize := is.room
  have hle : bucketOf ix ie - is.start ≤ (bucketOf ix ie - is.start) * is.blocksize :=
    Nat.le_mul_of_pos_right _ (by omega)
  rw [add_mul, one_mul] at hend
  have hsub : (bucketOf ix ie + 2 ^ 64 - is.start) % 2 ^ 64 = bucketOf ix ie - is.start := by omega
  rw [ie2diskaddr, hsub, Nat.shiftLeft_eq, ← ISect.blocksize]
  exact Nat.mod_eq_of_lt (by omega)

theorem InSection.slot (h : InSection ix is size ie) (hsize : size < 2 ^ 64) :
    Slot is size (ie2diskaddr ix is ie) := by
  refine ⟨bucketOf ix ie - is.start, h.ie2diskaddr_eq hsize, ?_⟩
  have hend := h.2
  rw [add_mul, one_mul] at hend
  rw [h.ie2diskaddr_eq hsize]
  omega

attribute [irreducible] ie2diskaddr

/-- Entries sorted by score are sorted by the address of their bucket. -/
theorem ie2diskaddr_le (hsize : size < 2 ^ 64) (ha : InSection ix is size a)
    (hb : InSection ix is size b) (h : scorecmp a b ≤ 0) :
    ie2diskaddr ix is a ≤ ie2diskaddr ix is b := by
  have hbucket : bucketOf ix a ≤ bucketOf ix b := Nat.div_le_div_right (hashbits_le h)
  rw [ha.ie2diskaddr_eq hsize, hb.ie2diskaddr_eq hsize]
  exact Nat.add_le_add_left (Nat.mul_le_mul_right _ (by omega)) _

theorem nextchunkLoop_spec (haddr : addr < 2 ^ 64) (nbuf0 : Nat)
    (hsorted : es.Pairwise fun a b => ie2diskaddr ix is a ≤ ie2diskaddr ix is b)
    (hes : ∀ ie ∈ es, addr ≤ ie2diskaddr ix is ie ∧ nbuf0 ≤ ie2diskaddr ix is ie - addr ∧
      ie2diskaddr ix is ie < 2 ^ 64) (hnbuf0 : nbuf0 < Bufsize) :
    ∃ chunk rest nbuf, nextchunkLoop ix is addr es nbuf0 = (chunk, rest, nbuf) ∧
      es = chunk ++ rest ∧ nbuf < Bufsize ∧ nbuf0 ≤ nbuf ∧
      (∀ ie ∈ chunk, ie2diskaddr ix is ie ≤ addr + nbuf) ∧
      (nbuf = nbuf0 ∨ ∃ ie ∈ chunk, ie2diskaddr ix is ie = addr + nbuf) := by
  induction es generalizing nbuf0 with
  | nil => exact ⟨[], [], nbuf0, rfl, rfl, hnbuf0, le_rfl, by simp, Or.inl rfl⟩
  | cons ie es ih =>
    obtain ⟨hfirst, hsorted'⟩ := pairwise_cons.mp hsorted
    obtain ⟨hle, hge0, hlt⟩ := hes ie (.head _)
    have hd : sub64 (ie2diskaddr ix is ie) addr = ie2diskaddr ix is ie - addr := by
      rw [sub64]
      omega
    by_cases hbig : ie2diskaddr ix is ie - addr ≥ Bufsize
    · refine ⟨[], ie :: es, nbuf0, ?_, rfl, hnbuf0, le_rfl, by simp, Or.inl rfl⟩
      simp only [nextchunkLoop, hd, if_pos hbig]
    -- the chunk goes on, up to the bucket of this entry at least
    have hmod : (ie2diskaddr ix is ie - addr) % 2 ^ 32 = ie2diskaddr ix is ie - addr :=
      Nat.mod_eq_of_lt (by rw [Bufsize] at hbig; omega)
    obtain ⟨chunk, rest, nbuf, hloop, hsplit, hnbuf, hge, hchunk, hlast⟩ :=
      ih (ie2diskaddr ix is ie - addr) hsorted' (fun e he => by
        have h1 := hfirst e he
        have h2 := (hes e (.tail _ he)).2.2
        exact ⟨by omega, by omega, h2⟩) (by omega)
    refine ⟨ie :: chunk, rest, nbuf, ?_, by rw [hsplit]; rfl, hnbuf, by omega, ?_, ?_⟩
    · simp only [nextchunkLoop, hd, if_neg hbig, hmod, hloop]
    · exact forall_mem_cons.mpr ⟨by omega, hchunk⟩
    · rcases hlast with rfl | ⟨e, he, heq⟩
      · exact Or.inr ⟨ie, .head _, by omega⟩
      · exact Or.inr ⟨e, mem_cons_of_mem _ he, heq⟩

theorem entriesFor_append (ix : Index) (is : ISect) (a : Nat) (es es' : List IEntry) :
    entriesFor ix is a (es ++ es') = entriesFor ix is a es ++ entriesFor ix is a es' := by
  simp [entriesFor]

theorem entriesFor_eq_nil {a : Nat} (h : ∀ ie ∈ es, ie2diskaddr ix is ie ≠ a) :
    entriesFor ix is a es = [] := by
  rw [entriesFor, map_eq_nil_iff, filter_eq_nil_iff]
  intro ie hie
  simpa using h ie hie

theorem writeChunk_eq {chunk rest kept : List IEntry} {part1 : Part} {buf' : List UInt8}
    {err : Bool} (hnext : nextchunkLoop ix is addr es 0 = (chunk, rest, nbuf))
    (hread : readpart part addr (nbuf + is.blocksize) = some buf)
    (hupdate : updateChunk ix is addr (nbuf + is.blocksize) (ie :: chunk) buf =
      some (buf', kept, err)) (hwrite : writepart part addr buf' = some part1) :
    writeChunk ix is addr ie es part = some (part1, kept, rest, err) := by
  simp only [writeChunk, hnext, hread, hupdate, hwrite, Lib.some_bind]
  rfl

/-- The outer loop, over entries that are sorted by the address of their bucket. -/
theorem writeLoop_spec (hfuel : es.length ≤ fuel) (hsize : part.length < 2 ^ 64)
    (hes : ∀ ie ∈ es, InSection ix is part.length ie)
    (hsorted : es.Pairwise fun a b => ie2diskaddr ix is a ≤ ie2diskaddr ix is b)
    (hgood : ∀ a, Slot is part.length a → Good is part a) :
    ∃ part' clean err, writeLoop ix is fuel es part = some (part', clean, err) ∧
      part'.length = part.length ∧ clean.Sublist es ∧ (err = false → clean = es) ∧
      (∀ a, Slot is part.length a → Good is part' a ∧ entries is part' a =
        puts key is.buckmax (entriesFor ix is a es) (entries is part a)) ∧
      (err = true ↔ ∃ a, Slot is part.length a ∧
        Refuses key is.buckmax (entriesFor ix is a es) (entries is part a)) := by
  induction fuel generalizing es part with
  | zero =>
    obtain rfl := length_eq_zero_iff.mp (Nat.le_zero.mp hfuel)
    exact ⟨part, [], false, rfl, rfl, .refl _, fun _ => rfl, fun a ha => ⟨hgood a ha, rfl⟩,
      by simp [entriesFor, Refuses]⟩
  | succ fuel ih =>
    rcases es with _ | ⟨ie, es⟩
    · exact ⟨part, [], false, rfl, rfl, .refl _, fun _ => rfl, fun a ha => ⟨hgood a ha, rfl⟩,
        by simp [entriesFor, Refuses]⟩
    have hslots : ∀ e ∈ ie :: es, Slot is part.length (ie2diskaddr ix is e) := fun e he =>
      (hes e he).slot hsize
    have hbound : ∀ e ∈ ie :: es, ie2diskaddr ix is e < 2 ^ 64 := fun e he => by
      obtain ⟨k, -, hk⟩ := hslots e he
      omega
    obtain ⟨hfirst, hsorted'⟩ := pairwise_cons.mp hsorted
    have hfirst' := hslots ie (.head _)
    have hbound' := hbound ie (.head _)
    obtain ⟨d, hd⟩ : ∃ d, d = ie2diskaddr ix is ie := ⟨_, rfl⟩
    rw [← hd] at hfirst hfirst' hbound'
    obtain ⟨chunk, rest, nbuf, hnext, rfl, hnbuf, -, hchunk, hlast⟩ := nextchunkLoop_spec
      hbound' 0 hsorted' (fun e he =>
        ⟨hfirst e he, Nat.zero_le _, hbound e (.tail _ he)⟩)
      (by unfold Bufsize; omega)
    -- the last bucket of the chunk
    have hend : Slot is part.length (d + nbuf) := by
      rcases hlast with hzero | ⟨e, he, heq⟩
      · rw [hzero, add_zero]
        exact hfirst'
      · rw [← heq]
        exact hslots e (.tail _ (mem_append_left _ he))
    have hlen : d + (nbuf + is.blocksize) ≤ part.length := by
      obtain ⟨k, -, hk⟩ := hend
      omega
    have hbs : is.blocksize ≤ MaxDiskBlock := is.blocksize_le
    rw [MaxDiskBlock] at hbs
    rw [Bufsize] at hnbuf
    obtain ⟨buf', kept, err, hupdate, hlen', hkept, hall, hbuckets, herr⟩ := updateChunk_spec
      (by omega : nbuf + is.blocksize < 2 ^ 32) (by omega : d + (nbuf + is.blocksize) < 2 ^ 64)
      (length_slice hlen)
      (fun e (he : e ∈ ie :: chunk) => by
        have hslot : Slot is part.length (ie2diskaddr ix is e) :=
          hslots e ((mem_cons.mp he).elim (fun h => h ▸ mem_cons_self)
            fun h => mem_cons_of_mem _ (mem_append_left _ h))
        have hrange : d ≤ ie2diskaddr ix is e ∧ ie2diskaddr ix is e ≤ d + nbuf := by
          rcases mem_cons.mp he with rfl | he
          · omega
          · exact ⟨hfirst e (mem_append_left _ he), hchunk e he⟩
        obtain ⟨k, hk, -⟩ := hslot
        exact ⟨hrange.1, k, hk, by omega⟩)
      (fun off hoff => by
        obtain ⟨k, hk, hle⟩ := hoff
        exact Good.slice (hgood _ ⟨k, hk, by omega⟩) hlen (by omega))
    obtain ⟨part1, hpart1⟩ : ∃ part1, part1 = patch part d buf' := ⟨_, rfl⟩
    have hlen1 : part1.length = part.length := by rw [hpart1, length_patch]
    have hslice1 : slice part1 d (nbuf + is.blocksize) = buf' := by
      rw [hpart1, ← hlen', slice_patch_self (by omega)]
    -- each bucket of the partition is one of the chunk, or is not touched
    have hcases : ∀ a, Slot is part.length a →
        (∃ off, a = d + off ∧ Slot is (d + (nbuf + is.blocksize)) (d + off)) ∨
        (a + is.blocksize ≤ d ∨ d + (nbuf + is.blocksize) ≤ a) := by
      intro a ha
      rcases lt_or_ge a d with hlt | hge
      · have := ha.disjoint hfirst' (by omega)
        omega
      · rcases lt_or_ge (d + nbuf) a with hgt | hle
        · have := ha.disjoint hend (by omega)
          omega
        · obtain ⟨k, hk, -⟩ := ha
          exact Or.inl ⟨a - d, by omega, k, by omega, by omega⟩
    have hnone : ∀ a, (a + is.blocksize ≤ d ∨ d + (nbuf + is.blocksize) ≤ a) →
        entriesFor ix is a (ie :: chunk) = [] := by
      intro a ha
      have hroom : 6 ≤ is.blocksize := is.room
      refine entriesFor_eq_nil fun e he heq => ?_
      rcases mem_cons.mp he with rfl | he
      · omega
      · have h1 := hfirst e (mem_append_left _ he)
        have h2 := hchunk e he
        omega
    have hparts : ∀ a, Slot is part.length a → Good is part1 a ∧ entries is part1 a =
        puts key is.buckmax (entriesFor ix is a (ie :: chunk)) (entries is part a) := by
      intro a ha
      rcases hcases a ha with ⟨off, rfl, hoff⟩ | hout
      · obtain ⟨hgood', hentries'⟩ := hbuckets off hoff
        obtain ⟨k, -, hle⟩ := hoff
        have hfit : off + is.blocksize ≤ nbuf + is.blocksize := by omega
        have hcount := count_slice (hlen1 ▸ hlen) hfit
        rw [hslice1] at hcount
        have hentries := entries_slice (hlen1 ▸ hlen) hfit (hcount ▸ hgood'.1)
        rw [hslice1] at hentries
        rw [entries_slice hlen (by omega) (hgood _ ha).1] at hentries'
        exact ⟨⟨hcount ▸ hgood'.1, hentries ▸ hgood'.2⟩, hentries ▸ hentries'⟩
      · have hsame : slice part1 a is.blocksize = slice part a is.blocksize := by
          rw [hpart1, slice_patch_of_disjoint (by omega)]
        obtain ⟨hc, he⟩ := entries_congr hlen1 (hgood a ha).1 hsame
        rw [hnone a hout, puts_nil]
        exact ⟨⟨hc ▸ (hgood a ha).1, he ▸ (hgood a ha).2⟩, he⟩
    simp only [length_cons, length_append] at hfuel
    obtain ⟨part', clean, err', hrest, hlen2, hclean, hall', hbuckets', herr'⟩ := ih
      (by omega : rest.length ≤ fuel) (by omega : part1.length < 2 ^ 64)
      (fun e he => hlen1 ▸ hes e (.tail _ (mem_append_right _ he)))
      (pairwise_append.mp hsorted').2.1 (fun a ha => (hparts a (hlen1 ▸ ha)).1)
    rw [hlen1] at hbuckets' herr'
    have hread : readpart part d (nbuf + is.blocksize) =
        some (slice part d (nbuf + is.blocksize)) := if_pos hlen
    have hwrite : writepart part d buf' = some part1 := by
      rw [writepart, if_pos (by omega), hpart1]
    have hes_eq : ie :: (chunk ++ rest) = (ie :: chunk) ++ rest := rfl
    refine ⟨part', kept ++ clean, err || err', ?_, hlen2.trans hlen1, ?_, ?_, fun a ha => ?_, ?_⟩
    · simp only [writeLoop, ← hd, writeChunk_eq hnext hread hupdate hwrite, hrest, Lib.some_bind]
      rfl
    · exact hes_eq ▸ hkept.append hclean
    · intro h
      obtain ⟨h1, h2⟩ := Bool.or_eq_false_iff.mp h
      rw [hall h1, hall' h2, hes_eq]
    · obtain ⟨hgood', hentries'⟩ := hbuckets' a ha
      refine ⟨hgood', ?_⟩
      rw [hes_eq, entriesFor_append, puts_append, hentries', (hparts a ha).2]
    · rw [Bool.or_eq_true, herr, herr']
      constructor
      · rintro (⟨off, hoff, href⟩ | ⟨a, ha, href⟩)
        · obtain ⟨k, hk, hle⟩ := hoff
          have hslot : Slot is part.length (d + off) := ⟨k, hk, by omega⟩
          refine ⟨_, hslot, ?_⟩
          rw [entries_slice hlen (by omega) (hgood _ hslot).1] at href
          rw [hes_eq, entriesFor_append, refuses_append]
          exact Or.inl href
        · refine ⟨a, ha, ?_⟩
          rw [hes_eq, entriesFor_append, refuses_append, ← (hparts a ha).2]
          exact Or.inr href
      · rintro ⟨a, ha, href⟩
        rw [hes_eq, entriesFor_append, refuses_append, ← (hparts a ha).2] at href
        rcases href with href | href
        · rcases hcases a ha with ⟨off, rfl, hoff⟩ | hout
          · refine Or.inl ⟨off, hoff, ?_⟩
            obtain ⟨k, -, hle⟩ := hoff
            rw [entries_slice hlen (by omega) (hgood _ ha).1]
            exact href
          · rw [hnone a hout] at href
            exact absurd href (by simp [Refuses])
        · exact Or.inr ⟨a, ha, href⟩

/-! ## The section -/

/-- A bucket with at most `buckmax` entries, in the order of `ientrycmp` and no key twice. -/
def InOrder (is : ISect) (buf : List UInt8) (off : Nat) : Prop :=
  count is buf off ≤ is.buckmax ∧ (entries is buf off).Pairwise fun r s => ientrycmp r s < 0

theorem inOrder_iff_good (hoff : off + is.blocksize ≤ buf.length) :
    InOrder is buf off ↔ Good is buf off := by
  refine and_congr_right fun hcount => Pairwise.iff_of_mem fun {r s} hr hs => ?_
  have hfits := is.buckmax_fits.1
  have hlen : ∀ r ∈ entries is buf off, r.length = IEntrySize := by
    intro r hr
    obtain ⟨i, hi, rfl⟩ := mem_map.mp hr
    have hi' : (i + 1) * IEntrySize ≤ is.buckmax * IEntrySize :=
      Nat.mul_le_mul_right _ ((mem_range.mp hi).trans_le hcount)
    rw [add_mul, one_mul] at hi'
    exact length_slice (by omega)
  exact ientrycmp_neg_iff (hlen r hr) (hlen s hs)

/-- What `bucklook` is to return from the bucket at `off`: the tagged offset of the entry with the
key, or the offset between the entries before and after the key. -/
def Found (is : ISect) (buf : List UInt8) (off : Nat) (score : List UInt8) (otype : Int) : Prop :=
  let k := keyOf score (UInt8.ofNat (vttodisktype (otype % 2 ^ 32).toNat))
  let h := bucklook score otype buf (off + IBucketSize) (count is buf off)
  (∃ xs y ys, entries is buf off = xs ++ y :: ys ∧ key y = k ∧
    h = some (xs.length * IEntrySize ||| 1)) ∨
  ∃ xs ys, entries is buf off = xs ++ ys ∧ (∀ y ∈ xs, key y < k) ∧ (∀ y ∈ ys, k < key y) ∧
    h = some (xs.length * IEntrySize)

/-- **The buckets of a section are sorted maps.** Writing the dirty entries, in the order of their
scores, puts each of them into its bucket; the buckets stay sorted and no longer than `buckmax`, and
`bucklook` finds what they hold. An entry that does not fit leaves its bucket alone, and then there
is an error. -/
theorem icachewritesect_spec {ix : Index} {is : ISect} {dirty : List IEntry} {part : Part}
    (hsize : part.length < 2 ^ 64) (hdirty : ∀ ie ∈ dirty, InSection ix is part.length ie)
    (hsorted : ∀ a, Slot is part.length a → InOrder is part a) :
    ∃ es part' clean err, es.Perm dirty ∧ es.Pairwise (scorecmp · · ≤ 0) ∧
      icachewritesect ix is dirty part = some (part', clean, err) ∧
      part'.length = part.length ∧ clean.Sublist es ∧ (err = false → clean = es) ∧
      (∀ a, Slot is part.length a → InOrder is part' a ∧
        entries is part' a = puts key is.buckmax (entriesFor ix is a es) (entries is part a) ∧
        ∀ score otype, score.length = VtScoreSize → otype ≠ -1 → Found is part' a score otype) ∧
      (err = true ↔ ∃ a, Slot is part.length a ∧
        Refuses key is.buckmax (entriesFor ix is a es) (entries is part a)) := by
  have hperm := iesort_perm dirty
  have hes : ∀ ie ∈ iesort dirty, InSection ix is part.length ie := fun ie hie =>
    hdirty ie (hperm.mem_iff.mp hie)
  have horder : (iesort dirty).Pairwise fun a b => ie2diskaddr ix is a ≤ ie2diskaddr ix is b :=
    (iesort_sorted dirty).imp_of_mem fun {a b} ha hb h =>
      ie2diskaddr_le hsize (hes a ha) (hes b hb) h
  have hend : ∀ a, Slot is part.length a → a + is.blocksize ≤ part.length := by
    rintro a ⟨k, -, hk⟩
    exact hk
  obtain ⟨part', clean, err, hrun, hlen, hclean, hall, hbuckets, herr⟩ := writeLoop_spec
    (hperm.length_eq.le : _ ≤ dirty.length) hsize hes horder
    fun a ha => (inOrder_iff_good (hend a ha)).mp (hsorted a ha)
  refine ⟨iesort dirty, part', clean, err, hperm, iesort_sorted dirty, hrun, hlen, hclean, hall,
    fun a ha => ?_, herr⟩
  obtain ⟨hgood, hentries⟩ := hbuckets a ha
  refine ⟨(inOrder_iff_good (hlen ▸ hend a ha)).mpr hgood, hentries,
    fun score otype hscore ht => ?_⟩
  have hfits := is.buckmax_fits.1
  have hcount : count is part' a * IEntrySize ≤ is.buckmax * IEntrySize :=
    Nat.mul_le_mul_right _ hgood.1
  have := hend a ha
  exact bucklook_spec hscore ht (by omega) hgood.2

/-- A section with one bucket, of 64 bytes: room for one entry. -/
def oneBucket : ISect := ⟨6, 0, 0, 0, 1, by decide, by decide⟩

/-- An entry for it. -/
def oneEntry : IEntry := ⟨List.replicate 20 0, ⟨7, 100, 0, 1⟩, by decide⟩

/-- The entry is written into the empty bucket. -/
theorem icachewritesect_spec_one :
    ∃ part' clean err, icachewritesect ⟨1⟩ oneBucket [oneEntry] (List.replicate 64 0) =
      some (part', clean, err) ∧ entries oneBucket part' 0 = [packientry oneEntry] ∧
      (err = false → clean = [oneEntry]) := by
  have hsect : InSection ⟨1⟩ oneBucket 64 oneEntry := ⟨by decide, by decide⟩
  have hempty : ∀ a, Slot oneBucket 64 a → InOrder oneBucket (replicate 64 0) a := by
    rintro a ⟨k, rfl, hk⟩
    obtain rfl : k = 0 := by
      have : 0 + k * 64 + 64 ≤ 64 := hk
      omega
    exact ⟨by decide, by decide⟩
  have hsize : (replicate 64 (0 : UInt8)).length < 2 ^ 64 := by
    rw [length_replicate]
    omega
  obtain ⟨es, part', clean, err, hperm, -, hrun, -, -, hclean, hbuckets, -⟩ :=
    icachewritesect_spec hsize (forall_mem_singleton.mpr hsect) hempty
  obtain rfl := perm_singleton.mp hperm
  have hentries := (hbuckets 0 ⟨0, rfl, by decide⟩).2.1
  have hnone : entries oneBucket (replicate 64 0) 0 = [] := by decide
  rw [entriesFor_cons_self [] (by decide +kernel), hnone, puts_cons, put,
    if_pos (.inr (by decide))] at hentries
  exact ⟨part', clean, err, hrun, hentries, hclean⟩

end Plan9Port.Venti
