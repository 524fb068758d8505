import Plan9Port.Venti.Bucket

/-!
# Appending to an arena

An arena is a log of clumps. Clumps are appended at its beginning, upwards, and their infos to a
directory at its end, downwards by whole blocks (`writeaclump` and `getcib` of `arena.c`,
`cmd/venti/srv`).

Blocks are written through the disk cache. With blocks at multiples of the block size, which is a
power of two, the cache is the partition with everything written so far. `getdblock` may fail. A
block that is going to be written from its beginning is not read: it is zeroed, unless it happens to
be cached.
-/

namespace Plan9Port.Venti

open LittleEndian Memory List Option Nat

/-- The bytes of a word. -/
def U32Size : Nat := 4

/-- The bytes of an entry of the directory. -/
def ClumpInfoSize : Nat := 25

/-- The bytes of a clump's header. -/
def ClumpSize : Nat := ClumpInfoSize + 1 + 3 * U32Size

/-- The data is as it is. -/
def ClumpENone : UInt8 := 1

/-- The data is compressed. -/
def ClumpECompress : UInt8 := 2

/-! ## Clumps -/

/-- What the directory has of a clump. -/
structure ClumpInfo where
  type : UInt8
  size : UInt16
  uncsize : UInt16
  score : List UInt8
  length_score : score.length = VtScoreSize

/-- The header of a clump. -/
structure Clump where
  info : ClumpInfo
  encoding : UInt8
  creator : UInt32
  time : UInt32

/-- The sizes fit the encoding. -/
def checkclump (w : Clump) : Bool :=
  if w.encoding = ClumpENone then w.info.size = w.info.uncsize
  else if w.encoding = ClumpECompress then w.info.size < w.info.uncsize
  else false

/-- The bytes of an entry of the directory. -/
def packclumpinfo (ci : ClumpInfo) : List UInt8 :=
  [UInt8.ofNat (vttodisktype ci.type.toNat)] ++ U16PUT ci.size.toNat ++ U16PUT ci.uncsize.toNat ++
    ci.score

/-- The buffer with the header of the clump at its beginning. -/
def packclump (c : Clump) (buf : List UInt8) (magic : UInt32) : Option (List UInt8) :=
  if checkclump c then
    some (patch buf 0 (U32PUT magic.toNat ++ packclumpinfo c.info ++ [c.encoding] ++
      U32PUT c.creator.toNat ++ U32PUT c.time.toNat))
  else none

/-! ## Blocks -/

/-- What `getdblock` does with a block. -/
inductive Grab where
  | fail
  | cached
  | missed
  deriving DecidableEq, Repr

/-- `getdblock`, where `fresh` is for `OWRITE`: the block will be written from its beginning. -/
def getdblock (part : Part) (a blocksize : Nat) (fresh : Bool) : Grab → Option (List UInt8)
  | .fail => none
  | .cached => some (slice part a blocksize)
  | .missed => some (if fresh then List.replicate blocksize 0 else slice part a blocksize)

/-- The loop of `writeaclump`: the bytes from `a + off` on. The `k`-th block has not been got yet;
the result says whether all of them were. -/
def writeBlocks (blocksize : Nat) (g : Nat → Grab) :
    Nat → Nat → Part → Nat → Nat → List UInt8 → Part × Bool
  | 0, _, part, _, _, _ => (part, false)
  | fuel + 1, k, part, a, off, bytes =>
    match getdblock part a blocksize (off = 0) (g k) with
    | none => (part, false)
    | some data =>
      let m := min (blocksize - off) bytes.length
      let part := patch part a (patch data off (bytes.take m))
      if m = bytes.length then (part, true)
      else writeBlocks blocksize g fuel (k + 1) part (a + blocksize) 0 (bytes.drop m)

/-! ## Arenas -/

/-- What an arena counts. -/
structure ATailStats where
  clumps : Nat
  cclumps : Nat
  used : Nat
  uncsize : Nat
  isSealed : Bool
  deriving DecidableEq

/-- An arena, with its blocks where the blocks of the partition are. Its block size is
`1 << blocklog`. -/
structure Arena where
  blocklog : Nat
  base : Nat
  size : Nat
  clumpmagic : UInt32
  memstats : ATailStats
  room : ClumpInfoSize ≤ 2 ^ blocklog
  dvd_base : 2 ^ blocklog ∣ base
  dvd_size : 2 ^ blocklog ∣ size
  blocksize_le : 2 ^ blocklog ≤ size

namespace Arena

/-- The bytes of a block. -/
def blocksize (arena : Arena) : Nat := 2 ^ arena.blocklog

/-- The entries of the directory in a block. -/
def clumpmax (arena : Arena) : Nat := arena.blocksize / ClumpInfoSize

/-- `arenadirsize`: the product is one of 32 bits. -/
def arenadirsize (arena : Arena) (clumps : Nat) : Nat :=
  (clumps / arena.clumpmax + 1) * arena.blocksize % 2 ^ 32

/-- The address of the directory block of a clump, as `getcib` computes it. -/
def cibAddr (arena : Arena) (clump : Nat) : Nat :=
  arena.base + arena.size - (clump / arena.clumpmax + 1) * arena.blocksize % 2 ^ 32

/-- The offset of a clump in its directory block. -/
def cibOffset (arena : Arena) (clump : Nat) : Nat :=
  (clump - clump / arena.clumpmax * arena.clumpmax) * ClumpInfoSize

/-- `writeclumpinfo`, whose result is not looked at. -/
def writeclumpinfo (arena : Arena) (part : Part) (clump : Nat) (ci : ClumpInfo) (g : Grab) : Part :=
  if clump ≥ arena.memstats.clumps then part
  else
    let fresh := arena.cibOffset clump = 0 ∧ clump = arena.memstats.clumps - 1
    match getdblock part (arena.cibAddr clump) arena.blocksize fresh g with
    | none => part
    | some data =>
      patch part (arena.cibAddr clump) (patch data (arena.cibOffset clump) (packclumpinfo ci))

/-- `wbarena`, with what `packarena` makes of the trailer; `none` if `getdblock` fails. -/
def wbarena (arena : Arena) (part : Part) : Option (List UInt8) → Part
  | none => part
  | some trailer => patch part (arena.base + arena.size) (trailer.take arena.blocksize)

end Arena

/-- A call: the clump, its data with room for the header and the pad, and what the cache does. -/
structure Call where
  c : Clump
  clbuf : List UInt8
  data : Nat → Grab
  cib : Grab
  trailer : Option (List UInt8)
  room : c.info.size.toNat + ClumpSize + U32Size ≤ clbuf.length

/-- `writeaclump`: the address of the clump, or `none` for `TWID64`. There is no result if it stops
the program, when there are 2³² clumps. -/
def writeaclump (arena : Arena) (part : Part) (call : Call) : Option (Option Nat × Arena × Part) :=
  let size := call.c.info.size.toNat
  let n := size + ClumpSize + U32Size
  let aa := arena.memstats.used
  if arena.memstats.isSealed = true ∨
      aa + n + U32Size + arena.arenadirsize ((arena.memstats.clumps + 1) % 2 ^ 32) > arena.size then
    if arena.memstats.isSealed then some (none, arena, part)
    else
      let arena := { arena with memstats := { arena.memstats with isSealed := true } }
      some (none, arena, arena.wbarena part call.trailer)
  else
    match packclump call.c call.clbuf arena.clumpmagic with
    | none => some (none, arena, part)
    | some clbuf =>
      let a := arena.base + aa
      let off := a &&& (arena.blocksize - 1)
      match writeBlocks arena.blocksize call.data n 0 part (a - off) off (clbuf.take n) with
      | (part, false) => some (none, arena, part)
      | (part, true) =>
        let clump := arena.memstats.clumps
        let stats : ATailStats :=
          { arena.memstats with
            used := aa + (size + ClumpSize)
            uncsize := arena.memstats.uncsize + call.c.info.uncsize.toNat
            cclumps :=
              if call.c.info.size < call.c.info.uncsize then arena.memstats.cclumps + 1
              else arena.memstats.cclumps
            clumps := (clump + 1) % 2 ^ 32 }
        if stats.clumps = 0 then none
        else
          let arena := { arena with memstats := stats }
          let part := arena.writeclumpinfo part clump call.c.info call.cib
          some (some aa, arena, arena.wbarena part call.trailer)

/-! ## Writing blocks -/

variable {part : Part} {g : Grab}

section Blocks

variable {a bs : Nat} {data : List UInt8}

theorem getdblock_spec {fresh : Bool} (hlen : a + bs ≤ part.length)
    (hget : getdblock part a bs fresh g = some data) :
    data.length = bs ∧ (fresh = false → data = slice part a bs) := by
  cases g with
  | fail => cases hget
  | cached =>
    cases hget
    exact ⟨length_slice hlen, fun _ => rfl⟩
  | missed =>
    cases hget
    cases fresh with
    | false => exact ⟨length_slice hlen, fun _ => rfl⟩
    | true => exact ⟨length_replicate, nofun⟩

/-- A block is put back with a chunk written into it. -/
theorem putBlock_spec (off : Nat) (chunk : List UInt8) (hlen : a + bs ≤ part.length)
    (hdata : data.length = bs) (hchunk : off + chunk.length ≤ bs) :
    slice (patch part a (patch data off chunk)) (a + off) chunk.length = chunk ∧
      (∀ i, i < a ∨ a + bs ≤ i → (patch part a (patch data off chunk))[i]? = part[i]?) ∧
      (data = slice part a bs → ∀ i, i < a + off ∨ a + off + chunk.length ≤ i →
        (patch part a (patch data off chunk))[i]? = part[i]?) := by
  have hlen' : (patch data off chunk).length = bs := by rw [length_patch, hdata]
  refine ⟨?_, ?_, ?_⟩
  · rw [slice_patch_inside (by omega) (by omega)]
    exact slice_patch_self (by omega)
  · intro i hi
    exact getElem?_patch_of_disjoint (by omega)
  · rintro rfl i hi
    rw [patch_patch_slice hlen hchunk]
    exact getElem?_patch_of_disjoint hi

/-- The loop writes the bytes, or a part of them, and leaves what is before them and what is in
other blocks. -/
theorem writeBlocks_spec {g : Nat → Grab} {E : Nat} (hdvd : bs ∣ E) (fuel k : Nat) (part : Part)
    (a off : Nat) (bytes : List UInt8) (hE : E ≤ part.length) (hfuel : bytes.length ≤ fuel)
    (hne : bytes ≠ []) (hoff : off < bs) (hend : a + off + bytes.length ≤ E) (hdvd' : bs ∣ a) :
    (writeBlocks bs g fuel k part a off bytes).1.length = part.length ∧
    (∀ i, i < a + off ∨ E ≤ i → (writeBlocks bs g fuel k part a off bytes).1[i]? = part[i]?) ∧
    ((writeBlocks bs g fuel k part a off bytes).2 = true →
      slice (writeBlocks bs g fuel k part a off bytes).1 (a + off) bytes.length = bytes) := by
  induction fuel generalizing k part a off bytes with
  | zero => exact absurd (length_eq_zero_iff.mp (Nat.le_zero.mp hfuel)) hne
  | succ fuel ih =>
    have hpos := length_pos_iff.mpr hne
    -- the block ends before E, as both are multiples of the block size
    have hblock : a + bs ≤ E := by
      obtain ⟨c, rfl⟩ := hdvd
      obtain ⟨d, rfl⟩ := hdvd'
      have hlt : d < c := Nat.lt_of_mul_lt_mul_left (a := bs) (by omega)
      calc bs * d + bs = bs * (d + 1) := (mul_succ bs d).symm
        _ ≤ bs * c := Nat.mul_le_mul_left _ hlt
    rw [writeBlocks]
    rcases hget : getdblock part a bs (off = 0) (g k) with _ | data
    · exact ⟨rfl, fun _ _ => rfl, nofun⟩
    obtain ⟨hdata, hsame⟩ := getdblock_spec (by omega) hget
    obtain ⟨m, hm⟩ : ∃ m, m = min (bs - off) bytes.length := ⟨_, rfl⟩
    have hchunk : (bytes.take m).length = m := by
      rw [length_take]
      omega
    obtain ⟨hwritten, hother, hkept⟩ := putBlock_spec off (bytes.take m)
      (show a + bs ≤ part.length by omega) hdata (by omega)
    -- a block that is written from its beginning has nothing before
    have hbefore : ∀ i, i < a + off ∨ a + bs ≤ i →
        (patch part a (patch data off (bytes.take m)))[i]? = part[i]? := by
      intro i hi
      by_cases h0 : off = 0
      · exact hother i (by omega)
      · exact hkept (hsame (by simpa using h0)) i (by omega)
    obtain ⟨part1, hpart1⟩ : ∃ p, p = patch part a (patch data off (bytes.take m)) := ⟨_, rfl⟩
    have hlen1 : part1.length = part.length := by rw [hpart1, length_patch]
    rw [← hpart1] at hwritten hbefore
    simp only [← hm, ← hpart1]
    rw [hchunk] at hwritten
    split_ifs with hall
    · refine ⟨hlen1, fun i hi => hbefore i (by omega), fun _ => ?_⟩
      rw [hall, take_length] at hwritten
      exact hwritten
    have hrest : (bytes.drop m).length = bytes.length - m := length_drop
    have hne' : bytes.drop m ≠ [] := by
      rw [← length_pos_iff]
      omega
    obtain ⟨hlen2, hbefore2, hwritten2⟩ := ih (k + 1) part1 (a + bs) 0 (bytes.drop m) (by omega)
      (by omega) hne' (by omega) (by omega) (Nat.dvd_add hdvd' (Nat.dvd_refl bs))
    refine ⟨hlen2.trans hlen1, fun i hi => (hbefore2 i (by omega)).trans (hbefore i (by omega)),
      fun hok => ?_⟩
    have hfirst : slice (writeBlocks bs g fuel (k + 1) part1 (a + bs) 0 (bytes.drop m)).1
        (a + off) m = bytes.take m := by
      rw [slice_congr fun i hi => hbefore2 (a + off + i) (by omega), hwritten]
    have hlast := hwritten2 hok
    rw [hrest, show a + bs + 0 = a + off + m by omega] at hlast
    rw [show bytes.length = m + (bytes.length - m) by omega, slice_add, hfirst, hlast]
    exact take_append_drop m bytes

end Blocks

/-! ## The directory -/

variable {clump : Nat} {arena : Arena}

namespace Arena

theorem blocksize_pos (arena : Arena) : 0 < arena.blocksize := Nat.two_pow_pos _

theorem clumpmax_pos (arena : Arena) : 0 < arena.clumpmax := Nat.div_pos arena.room (by decide)

theorem clumpmax_mul_le (arena : Arena) : arena.clumpmax * ClumpInfoSize ≤ arena.blocksize :=
  div_mul_le_self _ _

/-- The size of the directory, without overflow. -/
def dirsize (arena : Arena) (clumps : Nat) : Nat :=
  (clumps / arena.clumpmax + 1) * arena.blocksize

theorem dirsize_mono (arena : Arena) {k l : Nat} (h : k ≤ l) : arena.dirsize k ≤ arena.dirsize l :=
  Nat.mul_le_mul_right _ (succ_le_succ (Nat.div_le_div_right h))

theorem cibOffset_eq (arena : Arena) (clump : Nat) :
    arena.cibOffset clump = clump % arena.clumpmax * ClumpInfoSize := by
  rw [cibOffset, mod_eq_sub_div_mul]

theorem cibOffset_add_le (arena : Arena) (clump : Nat) :
    arena.cibOffset clump + ClumpInfoSize ≤ arena.blocksize := by
  rw [cibOffset_eq]
  have hlt := mod_lt clump arena.clumpmax_pos
  calc clump % arena.clumpmax * ClumpInfoSize + ClumpInfoSize
      = (clump % arena.clumpmax + 1) * ClumpInfoSize := (succ_mul _ _).symm
    _ ≤ arena.clumpmax * ClumpInfoSize := Nat.mul_le_mul_right _ hlt
    _ ≤ arena.blocksize := arena.clumpmax_mul_le

/-- Where the info of a clump is. -/
def entryAddr (arena : Arena) (clump : Nat) : Nat :=
  arena.base + arena.size - arena.dirsize clump + arena.cibOffset clump

theorem length_packclumpinfo (ci : ClumpInfo) : (packclumpinfo ci).length = ClumpInfoSize := by
  simp [packclumpinfo, U16PUT, ci.length_score, VtScoreSize, ClumpInfoSize]

/-- An info is written, the infos before it stay, and so does all that is not in the directory. -/
theorem writeclumpinfo_spec (arena : Arena) (part : Part) (ci : ClumpInfo) (hg : g ≠ .fail)
    (hclump : clump + 1 = arena.memstats.clumps) (hsmall : arena.dirsize clump < 2 ^ 32)
    (hfits : arena.dirsize clump ≤ arena.size) (hlen : arena.base + arena.size ≤ part.length) :
    (arena.writeclumpinfo part clump ci g).length = part.length ∧
    slice (arena.writeclumpinfo part clump ci g) (arena.entryAddr clump) ClumpInfoSize =
      packclumpinfo ci ∧
    (∀ j < clump, slice (arena.writeclumpinfo part clump ci g) (arena.entryAddr j) ClumpInfoSize =
      slice part (arena.entryAddr j) ClumpInfoSize) ∧
    ∀ i, i < arena.base + arena.size - arena.dirsize clump ∨ arena.base + arena.size ≤ i →
      (arena.writeclumpinfo part clump ci g)[i]? = part[i]? := by
  have hD : arena.cibAddr clump = arena.base + arena.size - arena.dirsize clump := by
    rw [cibAddr, ← dirsize, mod_eq_of_lt hsmall]
  have hbs : arena.blocksize ≤ arena.dirsize clump := Nat.le_mul_of_pos_left _ (succ_pos _)
  have hoff := arena.cibOffset_add_le clump
  have hpack := length_packclumpinfo ci
  obtain ⟨D, hDdef⟩ : ∃ D, D = arena.base + arena.size - arena.dirsize clump := ⟨_, rfl⟩
  obtain ⟨fresh, hfresh⟩ : ∃ fresh : Bool,
      fresh = decide (arena.cibOffset clump = 0 ∧ clump = arena.memstats.clumps - 1) := ⟨_, rfl⟩
  obtain ⟨data, hget⟩ : ∃ data, getdblock part D arena.blocksize fresh g = some data := by
    cases g with
    | fail => exact absurd rfl hg
    | cached => exact ⟨_, rfl⟩
    | missed => exact ⟨_, rfl⟩
  have hwrite : arena.writeclumpinfo part clump ci g =
      patch part D (patch data (arena.cibOffset clump) (packclumpinfo ci)) := by
    rw [writeclumpinfo, if_neg (by omega)]
    simp only [hD, ← hDdef, ← hfresh, hget]
  obtain ⟨hdata, hsame⟩ := getdblock_spec (by omega) hget
  obtain ⟨hwritten, hother, hkept⟩ := putBlock_spec (arena.cibOffset clump) (packclumpinfo ci)
    (show D + arena.blocksize ≤ part.length by omega) hdata (by omega)
  rw [hwrite]
  refine ⟨length_patch _ _ _, ?_, ?_, ?_⟩
  · rw [entryAddr, ← hDdef, ← hpack]
    exact hwritten
  · intro j hj
    have hdiv : j / arena.clumpmax ≤ clump / arena.clumpmax := Nat.div_le_div_right (by omega)
    rcases lt_or_ge (j / arena.clumpmax) (clump / arena.clumpmax) with hlt | hge
    · -- in a block after this one
      have hnext : arena.dirsize j + arena.blocksize ≤ arena.dirsize clump := by
        rw [dirsize, dirsize, ← succ_mul]
        exact Nat.mul_le_mul_right _ (by omega)
      refine slice_congr fun i hi => hother _ ?_
      rw [entryAddr]
      omega
    · -- in the same block, which is not a new one then
      have heq : j / arena.clumpmax = clump / arena.clumpmax := by omega
      have hmod : j % arena.clumpmax < clump % arena.clumpmax := by
        have h1 := div_add_mod j arena.clumpmax
        have h2 := div_add_mod clump arena.clumpmax
        rw [heq] at h1
        omega
      have hslot : arena.cibOffset j + ClumpInfoSize ≤ arena.cibOffset clump := by
        rw [cibOffset_eq, cibOffset_eq, ← succ_mul]
        exact Nat.mul_le_mul_right _ hmod
      refine slice_congr fun i hi => hkept (hsame ?_) _ ?_
      · rw [hfresh, decide_eq_false_iff_not]
        omega
      · rw [entryAddr, dirsize, heq, ← dirsize, ← hDdef]
        omega
  · intro i hi
    exact hother i (by omega)

end Arena

/-! ## Runs -/

/-- What one call needs: the block of the directory can be got, and the size of the directory fits
32 bits. -/
def Fine (arena : Arena) (call : Call) : Prop :=
  call.cib ≠ .fail ∧ arena.dirsize (arena.memstats.clumps + 1) < 2 ^ 32

/-- A clump that was accepted: its address, its info, and its bytes. -/
structure Stored where
  addr : Nat
  info : ClumpInfo
  bytes : List UInt8

/-- What a call stores at the address that it returns. -/
def Call.stored (call : Call) (magic : UInt32) (addr : Nat) : Stored :=
  ⟨addr, call.c.info, ((packclump call.c call.clbuf magic).getD []).take
    (call.c.info.size.toNat + ClumpSize)⟩

/-- Calls one after the other, and the clumps that were accepted. -/
inductive Run (start : Arena × Part) : List Stored → Arena × Part → Prop
  | init : Run start [] start
  | step {stored : List Stored} {arena arena' : Arena} {part part' : Part} {call : Call}
      {ret : Option Nat} : Run start stored (arena, part) → Fine arena call →
      writeaclump arena part call = some (ret, arena', part') →
      Run start (stored ++ (ret.map (call.stored arena.clumpmagic)).toList) (arena', part')

/-- A new arena in a partition that it fits into. -/
structure New (start : Arena × Part) : Prop where
  used : start.1.memstats.used = 0
  clumps : start.1.memstats.clumps = 0
  unsealed : start.1.memstats.isSealed = false
  fits : start.1.base + start.1.size + start.1.blocksize ≤ start.2.length

/-- The clumps are there, one after the other, and so is the directory. -/
structure Safe (arena : Arena) (part : Part) (stored : List Stored) : Prop where
  fits : arena.base + arena.size + arena.blocksize ≤ part.length
  clumps : arena.memstats.clumps = stored.length
  length : ∀ s ∈ stored, s.bytes.length = s.info.size.toNat + ClumpSize
  used : arena.memstats.used = (stored.map fun s => s.info.size.toNat + ClumpSize).sum
  addr : ∀ i s, stored[i]? = some s →
    s.addr = ((stored.take i).map fun s => s.info.size.toNat + ClumpSize).sum
  bytes : ∀ s ∈ stored, slice part (arena.base + s.addr) s.bytes.length = s.bytes
  directory : ∀ i s, stored[i]? = some s →
    slice part (arena.entryAddr i) ClumpInfoSize = packclumpinfo s.info
  apart : arena.memstats.used + (if stored = [] then 0 else U32Size) +
    arena.dirsize arena.memstats.clumps ≤ arena.size

variable {stats : ATailStats} {clbuf : List UInt8} {call : Call} {start : Arena × Part}

section Step

variable {part' : Part} {stored : List Stored} {finish : Arena × Part}

theorem Arena.entryAddr_ge (arena : Arena) {clumps : Nat} (h : clump ≤ clumps) :
    arena.base + arena.size - arena.dirsize clumps ≤ arena.entryAddr clump := by
  have := arena.dirsize_mono h
  rw [Arena.entryAddr]
  omega

theorem Arena.entryAddr_add_le (arena : Arena) (h : arena.dirsize clump ≤ arena.size) :
    arena.entryAddr clump + ClumpInfoSize ≤ arena.base + arena.size := by
  have hoff := arena.cibOffset_add_le clump
  have hbs : arena.blocksize ≤ arena.dirsize clump := Nat.le_mul_of_pos_left _ (succ_pos _)
  rw [Arena.entryAddr]
  omega

theorem Safe.dirsize_le (h : Safe arena part stored) :
    arena.dirsize arena.memstats.clumps ≤ arena.size :=
  (Nat.le_add_left _ _).trans h.apart

/-- Clumps end before the end of the used part. -/
theorem Safe.addr_add_le (h : Safe arena part stored) {s : Stored} (hs : s ∈ stored) :
    s.addr + s.bytes.length ≤ arena.memstats.used := by
  obtain ⟨i, hi⟩ := mem_iff_getElem?.mp hs
  obtain ⟨hlt, hget⟩ := List.getElem?_eq_some_iff.mp hi
  rw [h.addr i s hi, h.length s hs, h.used]
  have hsplit : stored = stored.take i ++ s :: stored.drop (i + 1) := by
    rw [← hget, ← drop_eq_getElem_cons hlt, take_append_drop]
  conv_rhs => rw [hsplit]
  simp only [map_append, map_cons, sum_append_nat, sum_cons]
  omega

/-- Nothing changes in the clumps nor in the directory. -/
theorem Safe.congr (h : Safe arena part stored) (hused : stats.used = arena.memstats.used)
    (hclumps : stats.clumps = arena.memstats.clumps) (hlen : part'.length = part.length)
    (hdata : ∀ i < arena.base + arena.memstats.used, part'[i]? = part[i]?)
    (hdir : ∀ i, arena.base + arena.size - arena.dirsize arena.memstats.clumps ≤ i →
      i < arena.base + arena.size → part'[i]? = part[i]?) :
    Safe { arena with memstats := stats } part' stored where
  fits := by
    rw [hlen]
    exact h.fits
  clumps := hclumps.trans h.clumps
  length := h.length
  used := hused.trans h.used
  addr := h.addr
  bytes := by
    intro s hs
    have hle := h.addr_add_le hs
    calc slice part' (arena.base + s.addr) s.bytes.length
        = slice part (arena.base + s.addr) s.bytes.length :=
          slice_congr fun j hj => hdata _ (by omega)
      _ = s.bytes := h.bytes s hs
  directory := by
    intro i s hi
    have hlt : i < stored.length := (List.getElem?_eq_some_iff.mp hi).1
    have hle : i ≤ arena.memstats.clumps := by
      rw [h.clumps]
      omega
    have hfits : arena.dirsize i ≤ arena.size := (arena.dirsize_mono hle).trans h.dirsize_le
    have hge := arena.entryAddr_ge hle
    have hend := arena.entryAddr_add_le hfits
    calc slice part' (arena.entryAddr i) ClumpInfoSize
        = slice part (arena.entryAddr i) ClumpInfoSize :=
          slice_congr fun j hj => hdir _ (by omega) (by omega)
      _ = packclumpinfo s.info := h.directory i s hi
  apart := by
    change stats.used + _ + arena.dirsize stats.clumps ≤ arena.size
    rw [hused, hclumps]
    exact h.apart

/-- The trailer is not in the arena. -/
theorem Arena.getElem?_wbarena (arena : Arena) (part : Part) (t : Option (List UInt8)) {i : Nat}
    (hi : i < arena.base + arena.size) : (arena.wbarena part t)[i]? = part[i]? := by
  cases t with
  | none => rfl
  | some t => exact getElem?_patch_of_disjoint (.inl hi)

theorem Arena.length_wbarena (arena : Arena) (part : Part) (t : Option (List UInt8)) :
    (arena.wbarena part t).length = part.length := by
  cases t with
  | none => rfl
  | some t => exact length_patch _ _ _

/-- Without overflow, the sizes are as they should be. -/
theorem Arena.arenadirsize_eq (hsmall : arena.dirsize (arena.memstats.clumps + 1) < 2 ^ 32) :
    arena.memstats.clumps + 1 < 2 ^ 32 ∧
      arena.arenadirsize ((arena.memstats.clumps + 1) % 2 ^ 32) =
        arena.dirsize (arena.memstats.clumps + 1) := by
  have hlt : arena.memstats.clumps + 1 < 2 ^ 32 := by
    refine Nat.lt_of_lt_of_le ?_ hsmall.le
    have hmax : arena.clumpmax ≤ arena.blocksize := Nat.div_le_self _ _
    calc arena.memstats.clumps + 1
        < ((arena.memstats.clumps + 1) / arena.clumpmax + 1) * arena.clumpmax := by
          rw [mul_comm]
          exact lt_mul_div_succ _ arena.clumpmax_pos
      _ ≤ arena.dirsize (arena.memstats.clumps + 1) := Nat.mul_le_mul_left _ hmax
  refine ⟨hlt, ?_⟩
  rw [mod_eq_of_lt hlt, Arena.arenadirsize, ← Arena.dirsize, mod_eq_of_lt hsmall]

/-- The clump goes behind the others and leaves the directory, which may have grown by a block. -/
theorem Safe.writeBlocks (h : Safe arena part stored) {n : Nat} (hn : 0 < n)
    (hclbuf : n ≤ clbuf.length)
    (hroom : arena.memstats.used + n + arena.dirsize (arena.memstats.clumps + 1) ≤ arena.size)
    {off : Nat} (hoff : off = (arena.base + arena.memstats.used) &&& (arena.blocksize - 1))
    {ok : Bool} (hw : writeBlocks arena.blocksize call.data n 0 part
      (arena.base + arena.memstats.used - off) off (clbuf.take n) = (part', ok)) :
    part'.length = part.length ∧
    (∀ i, i < arena.base + arena.memstats.used ∨
      arena.base + arena.size - arena.dirsize (arena.memstats.clumps + 1) ≤ i →
      part'[i]? = part[i]?) ∧
    (ok = true → slice part' (arena.base + arena.memstats.used) n = clbuf.take n) := by
  have hmod : off = (arena.base + arena.memstats.used) % arena.blocksize := by
    rw [hoff, Arena.blocksize, and_two_pow_sub_one_eq_mod]
  have hlen : (clbuf.take n).length = n := length_take_of_le hclbuf
  have hle : off ≤ arena.base + arena.memstats.used := hmod ▸ mod_le _ _
  have hdvd : arena.blocksize ∣
      arena.base + arena.size - arena.dirsize (arena.memstats.clumps + 1) :=
    Nat.dvd_sub (Nat.dvd_add arena.dvd_base arena.dvd_size) (Nat.dvd_mul_left _ _)
  obtain ⟨hlen', hframe, hbytes⟩ := writeBlocks_spec (g := call.data) hdvd n 0 part
    (arena.base + arena.memstats.used - off) off (clbuf.take n)
    (by have := h.fits; omega) (by omega) (by rw [← length_pos_iff]; omega)
    (hmod ▸ mod_lt _ arena.blocksize_pos) (by omega)
    (hmod ▸ dvd_sub_mod _)
  rw [hw, Nat.sub_add_cancel hle] at hframe
  rw [hw, Nat.sub_add_cancel hle, hlen] at hbytes
  rw [hw] at hlen'
  exact ⟨hlen', hframe, hbytes⟩

theorem getElem?_concat_cases {α : Type} {xs : List α} {x y : α} {i : Nat}
    (h : (xs ++ [x])[i]? = some y) : i < xs.length ∧ xs[i]? = some y ∨ i = xs.length ∧ x = y := by
  rcases lt_or_ge i xs.length with hlt | hge
  · exact .inl ⟨hlt, getElem?_append_left hlt ▸ h⟩
  · have hi := (List.getElem?_eq_some_iff.mp h).1
    rw [length_append, length_singleton] at hi
    obtain rfl : i = xs.length := by omega
    rw [getElem?_concat_length] at h
    exact .inr ⟨rfl, some.inj h⟩

/-- One more clump, and its info in the directory. -/
theorem Safe.append (h : Safe arena part stored) {clump : Stored}
    (hlen : clump.bytes.length = clump.info.size.toNat + ClumpSize)
    (haddr : clump.addr = arena.memstats.used)
    (hused : stats.used = arena.memstats.used + (clump.info.size.toNat + ClumpSize))
    (hclumps : stats.clumps = arena.memstats.clumps + 1) (hpart : part'.length = part.length)
    (hdata : ∀ i < arena.base + arena.memstats.used, part'[i]? = part[i]?)
    (hbytes : slice part' (arena.base + clump.addr) clump.bytes.length = clump.bytes)
    (hdir : ∀ j < arena.memstats.clumps, slice part' (arena.entryAddr j) ClumpInfoSize =
      slice part (arena.entryAddr j) ClumpInfoSize)
    (hinfo : slice part' (arena.entryAddr arena.memstats.clumps) ClumpInfoSize =
      packclumpinfo clump.info)
    (hroom : stats.used + U32Size + arena.dirsize stats.clumps ≤ arena.size) :
    Safe { arena with memstats := stats } part' (stored ++ [clump]) where
  fits := by
    rw [hpart]
    exact h.fits
  clumps := by
    rw [length_append, ← h.clumps]
    exact hclumps
  length := by
    intro s hs
    rcases mem_append.mp hs with hs | hs
    · exact h.length s hs
    · rw [mem_singleton.mp hs]
      exact hlen
  used := by
    rw [map_append, sum_append_nat, ← h.used]
    exact hused
  addr := by
    intro i s hi
    rcases getElem?_concat_cases hi with ⟨hlt, hi⟩ | ⟨rfl, rfl⟩
    · rw [take_append_of_le_length (by omega)]
      exact h.addr i s hi
    · rw [take_left, ← h.used]
      exact haddr
  bytes := by
    intro s hs
    rcases mem_append.mp hs with hs | hs
    · have hle := h.addr_add_le hs
      calc slice part' (arena.base + s.addr) s.bytes.length
          = slice part (arena.base + s.addr) s.bytes.length :=
            slice_congr fun j hj => hdata _ (by omega)
        _ = s.bytes := h.bytes s hs
    · rw [mem_singleton.mp hs]
      exact hbytes
  directory := by
    intro i s hi
    rcases getElem?_concat_cases hi with ⟨hlt, hi⟩ | ⟨rfl, rfl⟩
    · exact (hdir i (h.clumps ▸ hlt)).trans (h.directory i s hi)
    · rw [← h.clumps]
      exact hinfo
  apart := by
    rw [if_neg (append_ne_nil_of_right_ne_nil _ (cons_ne_nil _ _))]
    exact hroom

theorem length_of_packclump {c : Clump} {buf : List UInt8} {magic : UInt32}
    (hpack : packclump c buf magic = some clbuf) : clbuf.length = buf.length := by
  rw [packclump] at hpack
  split_ifs at hpack
  cases hpack
  exact length_patch _ _ _

/-- All blocks were written. -/
theorem Safe.accept (h : Safe arena part stored) {part1 : Part} (hg : call.cib ≠ .fail)
    (hsmall : arena.dirsize (arena.memstats.clumps + 1) < 2 ^ 32)
    (hpack : packclump call.c call.clbuf arena.clumpmagic = some clbuf)
    (hroom : arena.memstats.used + (call.c.info.size.toNat + ClumpSize + U32Size) + U32Size +
      arena.dirsize (arena.memstats.clumps + 1) ≤ arena.size) (hlen1 : part1.length = part.length)
    (hframe1 : ∀ i, i < arena.base + arena.memstats.used ∨
      arena.base + arena.size - arena.dirsize (arena.memstats.clumps + 1) ≤ i →
      part1[i]? = part[i]?)
    (hbytes1 : slice part1 (arena.base + arena.memstats.used)
      (call.c.info.size.toNat + ClumpSize + U32Size) =
      clbuf.take (call.c.info.size.toNat + ClumpSize + U32Size))
    (hused : stats.used = arena.memstats.used + (call.c.info.size.toNat + ClumpSize))
    (hclumps : stats.clumps = arena.memstats.clumps + 1) :
    Safe { arena with memstats := stats }
      (Arena.wbarena { arena with memstats := stats }
        (Arena.writeclumpinfo { arena with memstats := stats } part1 arena.memstats.clumps
          call.c.info call.cib) call.trailer)
      (stored ++ [call.stored arena.clumpmagic arena.memstats.used]) := by
  have hfits := h.fits
  have hmono : arena.dirsize arena.memstats.clumps ≤ arena.dirsize (arena.memstats.clumps + 1) :=
    arena.dirsize_mono (le_succ _)
  obtain ⟨hlen2, hinfo2, hdir2, hframe2⟩ :=
    Arena.writeclumpinfo_spec { arena with memstats := stats } part1 call.c.info hg hclumps.symm
      (show arena.dirsize arena.memstats.clumps < 2 ^ 32 by omega) h.dirsize_le
      (show arena.base + arena.size ≤ part1.length by omega)
  obtain ⟨part2, hpart2⟩ : ∃ p, p = Arena.writeclumpinfo { arena with memstats := stats } part1
    arena.memstats.clumps call.c.info call.cib := ⟨_, rfl⟩
  rw [← hpart2] at hlen2 hinfo2 hdir2 hframe2 ⊢
  replace hframe2 : ∀ i < arena.base + arena.size - arena.dirsize arena.memstats.clumps,
      part2[i]? = part1[i]? := fun i hi => hframe2 i (.inl hi)
  -- the trailer is behind all of it
  have hwb : ∀ i < arena.base + arena.size, (Arena.wbarena { arena with memstats := stats } part2
      call.trailer)[i]? = part2[i]? := fun i hi => Arena.getElem?_wbarena _ _ _ hi
  have hentry : ∀ j ≤ arena.memstats.clumps, slice (Arena.wbarena { arena with memstats := stats }
      part2 call.trailer) (arena.entryAddr j) ClumpInfoSize =
        slice part2 (arena.entryAddr j) ClumpInfoSize := by
    intro j hj
    have hend := arena.entryAddr_add_le ((arena.dirsize_mono hj).trans h.dirsize_le)
    exact slice_congr fun i hi => hwb _ (by omega)
  have hbytes : (call.stored arena.clumpmagic arena.memstats.used).bytes =
      clbuf.take (call.c.info.size.toNat + ClumpSize) := by
    rw [Call.stored, hpack, getD_some]
  have hlen : (call.stored arena.clumpmagic arena.memstats.used).bytes.length =
      call.c.info.size.toNat + ClumpSize := by
    rw [hbytes, length_take_of_le]
    have := call.room
    rw [length_of_packclump hpack]
    omega
  refine h.append hlen rfl hused hclumps ?_ ?_ ?_ ?_ ?_ ?_
  · rw [Arena.length_wbarena, hlen2, hlen1]
  · intro i hi
    rw [hwb i (by omega), hframe2 i (by omega), hframe1 i (.inl hi)]
  · have hhead : slice part1 (arena.base + arena.memstats.used)
        (call.c.info.size.toNat + ClumpSize) = clbuf.take (call.c.info.size.toNat + ClumpSize) := by
      have := congrArg (take (call.c.info.size.toNat + ClumpSize)) hbytes1
      rwa [slice, take_take, take_take, Nat.min_eq_left (Nat.le_add_right _ _)] at this
    rw [hlen, hbytes, ← hhead]
    refine slice_congr fun i hi => ?_
    change (Arena.wbarena _ part2 call.trailer)[arena.base + arena.memstats.used + i]? = _
    rw [hwb _ (by omega), hframe2 _ (by omega)]
    rfl
  · intro j hj
    have hge := arena.entryAddr_ge hj.le
    rw [hentry j hj.le]
    exact (hdir2 j hj).trans (slice_congr fun i _ => hframe1 (arena.entryAddr j + i) (by omega))
  · rw [hentry _ le_rfl]
    exact hinfo2
  · rw [hclumps, hused]
    omega

/-- A sealed arena is left alone. -/
theorem writeaclump_of_isSealed (hsealed : arena.memstats.isSealed = true) (call : Call) :
    writeaclump arena part call = some (none, arena, part) := by
  simp only [writeaclump]
  rw [if_pos (.inl hsealed), if_pos hsealed]

/-- A call that finds room for its clump. -/
theorem Safe.writeaclump_of_room (h : Safe arena part stored) (hfine : Fine arena call) {n : Nat}
    (hn : n = call.c.info.size.toNat + ClumpSize + U32Size)
    (hroom : ¬(arena.memstats.isSealed = true ∨
      arena.memstats.used + n + U32Size + arena.dirsize (arena.memstats.clumps + 1) > arena.size)) :
    ∃ ret stats part', writeaclump arena part call =
        some (ret, { arena with memstats := stats }, part') ∧
      Safe { arena with memstats := stats } part'
        (stored ++ (ret.map (call.stored arena.clumpmagic)).toList) := by
  obtain ⟨hg, hsmall⟩ := hfine
  obtain ⟨hlt, hdirsize⟩ := Arena.arenadirsize_eq hsmall
  have hwrap : (arena.memstats.clumps + 1) % 2 ^ 32 = arena.memstats.clumps + 1 := mod_eq_of_lt hlt
  rw [hwrap] at hdirsize
  have hle := Nat.not_lt.mp (not_or.mp hroom).2
  rcases hpack : packclump call.c call.clbuf arena.clumpmagic with _ | clbuf
  · refine ⟨none, arena.memstats, part, ?_, by simpa using h⟩
    simp only [writeaclump, ← hn, hwrap, hdirsize, hpack]
    rw [if_neg hroom]
  have hclbuf : n ≤ clbuf.length := by
    rw [length_of_packclump hpack, hn]
    exact call.room
  have hpos : 0 < n := by
    rw [hn]
    exact succ_pos _
  obtain ⟨off, hoff⟩ :
      ∃ off, off = (arena.base + arena.memstats.used) &&& (arena.blocksize - 1) := ⟨_, rfl⟩
  rcases hw : Venti.writeBlocks arena.blocksize call.data n 0 part
    (arena.base + arena.memstats.used - off) off (clbuf.take n) with ⟨part1, ok⟩
  obtain ⟨hlen1, hframe1, hbytes1⟩ := h.writeBlocks hpos hclbuf (by omega) hoff hw
  cases ok with
  | false =>
    -- some blocks may be written, but not in front of the clump nor in the directory
    have hmono : arena.dirsize arena.memstats.clumps ≤
        arena.dirsize (arena.memstats.clumps + 1) := arena.dirsize_mono (le_succ _)
    refine ⟨none, arena.memstats, part1, ?_, ?_⟩
    · simp only [writeaclump, ← hn, hwrap, hdirsize, hpack, ← hoff, hw]
      rw [if_neg hroom]
    · rw [map_none, toList_none, append_nil]
      exact h.congr rfl rfl hlen1 (fun i hi => hframe1 i (.inl hi))
        fun i hi _ => hframe1 i (.inr (by omega))
  | true =>
    let stats : ATailStats :=
      { arena.memstats with
        used := arena.memstats.used + (call.c.info.size.toNat + ClumpSize)
        uncsize := arena.memstats.uncsize + call.c.info.uncsize.toNat
        cclumps :=
          if call.c.info.size < call.c.info.uncsize then arena.memstats.cclumps + 1
          else arena.memstats.cclumps
        clumps := arena.memstats.clumps + 1 }
    refine ⟨some arena.memstats.used, stats, _, ?_,
      h.accept hg hsmall hpack (hn ▸ hle) hlen1 hframe1 (hn ▸ hbytes1 rfl) rfl rfl⟩
    simp only [writeaclump, ← hn, hwrap, hdirsize, hpack, ← hoff, hw]
    rw [if_neg hroom, if_neg (succ_ne_zero _)]

/-- A call does not stop the program, and keeps what was stored. -/
theorem Safe.writeaclump (h : Safe arena part stored) (hfine : Fine arena call) :
    ∃ ret stats part', writeaclump arena part call =
        some (ret, { arena with memstats := stats }, part') ∧
      Safe { arena with memstats := stats } part'
        (stored ++ (ret.map (call.stored arena.clumpmagic)).toList) := by
  obtain ⟨n, hn⟩ : ∃ n, n = call.c.info.size.toNat + ClumpSize + U32Size := ⟨_, rfl⟩
  by_cases hfull : arena.memstats.isSealed = true ∨ arena.memstats.used + n + U32Size +
      arena.dirsize (arena.memstats.clumps + 1) > arena.size
  · by_cases hsealed : arena.memstats.isSealed = true
    · exact ⟨none, arena.memstats, part, writeaclump_of_isSealed hsealed call, by simpa using h⟩
    -- the arena is sealed, which writes the trailer only
    have hsafe : Safe { arena with memstats := { arena.memstats with isSealed := true } }
        (Arena.wbarena { arena with memstats := { arena.memstats with isSealed := true } } part
          call.trailer) stored := by
      refine h.congr rfl rfl (Arena.length_wbarena _ _ _) ?_ ?_
      · intro i hi
        have := h.apart
        exact Arena.getElem?_wbarena _ _ _ (show i < arena.base + arena.size by omega)
      · intro i _ hi
        exact Arena.getElem?_wbarena _ _ _ hi
    refine ⟨none, { arena.memstats with isSealed := true }, _, ?_, by simpa using hsafe⟩
    simp only [Venti.writeaclump, ← hn, (Arena.arenadirsize_eq hfine.2).2]
    rw [if_pos hfull, if_neg hsealed]
  · exact h.writeaclump_of_room hfine hn hfull

theorem Run.eq_of_isSealed (hsealed : start.1.memstats.isSealed = true)
    (hrun : Run start stored finish) : stored = [] ∧ finish = start := by
  induction hrun with
  | init => exact ⟨rfl, rfl⟩
  | step _ _ hcall ih =>
    obtain ⟨rfl, rfl⟩ := ih
    rw [writeaclump_of_isSealed hsealed] at hcall
    cases hcall
    exact ⟨rfl, rfl⟩

theorem New.safe (h : New start) : Safe start.1 start.2 [] where
  fits := h.fits
  clumps := h.clumps
  length := nofun
  used := h.used
  addr := nofun
  bytes := nofun
  directory := nofun
  apart := by
    rw [if_pos rfl, h.used, h.clumps, Arena.dirsize, Nat.zero_div, Nat.zero_add, Nat.zero_add,
      Nat.one_mul]
    exact start.1.blocksize_le

/-- The arena stays where it is. -/
theorem Run.safe (hnew : New start) (hrun : Run start stored finish) :
    Safe finish.1 finish.2 stored ∧ ∃ stats, finish.1 = { start.1 with memstats := stats } := by
  induction hrun with
  | init => exact ⟨hnew.safe, _, rfl⟩
  | step _ hfine hcall ih =>
    obtain ⟨hsafe, stats0, hstats0⟩ := ih
    obtain ⟨ret, stats, part', hcall', hsafe'⟩ := hsafe.writeaclump hfine
    rw [hcall] at hcall'
    cases hcall'
    cases hstats0
    exact ⟨hsafe', stats, rfl⟩

/-- In every run from a new arena, the clumps are in consecutive ranges with their infos in the
directory, and a call that fails changes nothing of this. Nothing is stored in a sealed arena. -/
theorem arena_safe {start : Arena × Part} (hnew : New start)
    (hrun : Run start stored (arena, part)) :
    (arena.blocklog = start.1.blocklog ∧ arena.base = start.1.base ∧ arena.size = start.1.size) ∧
    Safe arena part stored ∧
    (∀ call, Fine arena call → ∃ ret stats part',
      writeaclump arena part call = some (ret, { arena with memstats := stats }, part') ∧
      (ret = none → stats.used = arena.memstats.used ∧ stats.clumps = arena.memstats.clumps ∧
        Safe { arena with memstats := stats } part' stored)) ∧
    (arena.memstats.isSealed = true → ∀ more finish, Run (arena, part) more finish →
      more = [] ∧ finish = (arena, part)) := by
  obtain ⟨hsafe, stats, hstats⟩ := hrun.safe hnew
  refine ⟨?_, hsafe, ?_, fun hsealed more finish hmore => hmore.eq_of_isSealed hsealed⟩
  · cases hstats
    exact ⟨rfl, rfl, rfl⟩
  intro call hfine
  obtain ⟨ret, stats', part', hcall, hsafe'⟩ := hsafe.writeaclump hfine
  refine ⟨ret, stats', part', hcall, ?_⟩
  rintro rfl
  rw [map_none, toList_none, append_nil] at hsafe'
  exact ⟨hsafe'.used.trans hsafe.used.symm, hsafe'.clumps.trans hsafe.clumps.symm, hsafe'⟩

end Step

/-! ## A small arena -/

/-- Four blocks of 64 bytes, after one and before one. -/
def smallArena : Arena where
  blocklog := 6
  base := 64
  size := 256
  clumpmagic := 0xd15cb10c
  memstats := { clumps := 0, cclumps := 0, used := 0, uncsize := 0, isSealed := false }
  room := by decide
  dvd_base := by decide
  dvd_size := by decide
  blocksize_le := by decide

/-- A part for an example. -/
def smallPart : Part := List.replicate 384 0

/-- Three bytes, where `cib` says how the block of the directory is got. -/
def smallCall (cib : Grab) : Call where
  c :=
    { info :=
        { type := 13, size := 3, uncsize := 3, score := List.replicate VtScoreSize 7,
          length_score := List.length_replicate }
      encoding := ClumpENone
      creator := 0
      time := 0 }
  clbuf := List.replicate ClumpSize 0 ++ [1, 2, 3] ++ List.replicate U32Size 0
  data := fun _ => .missed
  cib
  trailer := none
  room := by decide

theorem new_smallArena : New (smallArena, smallPart) where
  used := rfl
  clumps := rfl
  unsealed := rfl
  fits := by decide +kernel

theorem arena_safe_one : ∃ arena part, Safe arena part
    [(smallCall .missed).stored smallArena.clumpmagic 0] := by
  have hret : (writeaclump smallArena smallPart (smallCall .missed)).map (·.1) = some (some 0) := by
    decide +kernel
  obtain ⟨⟨ret, arena, part⟩, hcall, rfl⟩ := map_eq_some_iff.mp hret
  have hfine : Fine smallArena (smallCall .missed) := ⟨nofun, by decide⟩
  exact ⟨arena, part, (arena_safe new_smallArena (.step .init hfine hcall)).2.1⟩

/-- If the block of the directory cannot be got, the clump is accepted without its info. -/
theorem writeaclump_without_info : New (smallArena, smallPart) ∧ ∃ arena part,
    writeaclump smallArena smallPart (smallCall .fail) = some (some 0, arena, part) ∧
    arena.memstats.clumps = 1 ∧
    slice part (arena.entryAddr 0) ClumpInfoSize ≠ packclumpinfo (smallCall .fail).c.info := by
  have hret : (writeaclump smallArena smallPart (smallCall .fail)).map (fun r => (r.1,
      r.2.1.memstats.clumps, decide (slice r.2.2 (r.2.1.entryAddr 0) ClumpInfoSize =
        packclumpinfo (smallCall .fail).c.info))) = some (some 0, 1, false) := by
    decide +kernel
  obtain ⟨⟨ret, arena, part⟩, hcall, hr⟩ := map_eq_some_iff.mp hret
  simp only [Prod.mk.injEq] at hr
  obtain ⟨rfl, hclumps, hinfo⟩ := hr
  exact ⟨new_smallArena, arena, part, hcall, hclumps, of_decide_eq_false hinfo⟩

end Plan9Port.Venti
