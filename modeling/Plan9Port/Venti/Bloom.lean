import Mathlib.Data.Nat.Bitwise
import Plan9Port.Lib.BloomFilter
import Plan9Port.Lib.Except
import Plan9Port.Lib.LittleEndian
import Plan9Port.Lib.Memory

/-!
# The Bloom filter of venti

`bloom.c` and `packbloomhead`, `unpackbloomhead` of `conv.c` (`cmd/venti/srv`). The filter is a
table of 32-bit words, on a little-endian machine; its first 16 bytes are the header that
`writebloom` packs into the table before it writes it out.

`gethashes` keeps the 32-bit hash values off the numbers of the header's bits, but only `bitmask`
makes bit numbers of them, and masking can lead back into the header. What `markbloomfilter` sets
there is gone with the next `writebloom`.
-/

namespace Plan9Port.Venti

open LittleEndian Memory Lib List

/-- The bytes of a score. -/
def VtScoreSize : Nat := 20

/-- The first word of a filter. -/
def BloomMagic : Nat := 0xb1004ead

/-- The second one. -/
def BloomVersion : Nat := 1

/-- The most hashes of a score. -/
def BloomMaxHash : Nat := 32

/-- The bytes of the header. -/
def BloomHeadSize : Nat := 16

/-- `2^32` bits. -/
def MaxBloomSize : Nat := 2 ^ 29

/-- `nhash` is an `int`; `data` is nil until the table is loaded. -/
structure Bloom where
  nhash : Int
  size : Nat
  bitmask : Nat
  data : Option (List UInt8)
deriving DecidableEq

/-- The bytes of a partition. -/
abbrev Part := List UInt8

/-! ## The header -/

/-- `U32PUT`: the most significant byte first. -/
def U32PUT (v : Int) : List UInt8 := (le 4 (v % 2 ^ 32).toNat).reverse

/-- `U32GET(p + off)`. -/
def U32GET (p : List UInt8) (off : Nat) : Option Nat :=
  if off + 4 ≤ p.length then some (ofLe (slice p off 4).reverse) else none

/-- What `packbloomhead` writes. -/
def bloomHead (b : Bloom) : List UInt8 :=
  U32PUT BloomMagic ++ U32PUT BloomVersion ++ U32PUT b.nhash ++ U32PUT b.size

/-- The header is stored. -/
def packbloomhead (b : Bloom) (buf : List UInt8) : Option (List UInt8) :=
  if BloomHeadSize ≤ buf.length then some (patch buf 0 (bloomHead b)) else none

/-- The sizes that `unpackbloomhead` accepts. -/
def validSize (size : Nat) : Prop :=
  ¬ (size < BloomHeadSize ∨ size > MaxBloomSize ∨ size &&& (size - 1) ≠ 0)

instance (size : Nat) : Decidable (validSize size) := inferInstanceAs (Decidable (¬ _))

/-- The header is read and checked. -/
def unpackbloomhead (b : Bloom) (buf : List UInt8) : Option Bloom := do
  let m ← U32GET buf 0
  guard (m = BloomMagic)
  let m ← U32GET buf 4
  guard (m = BloomVersion)
  let nhash ← U32GET buf 8
  let size ← U32GET buf 12
  guard (validSize size)
  return { b with nhash := Int.bmod nhash (2 ^ 32), size := size }

/-- `bloominit` with a header to unpack. -/
def bloominit (vsize : Nat) (data : List UInt8) : Option Bloom := do
  let b ← unpackbloomhead ⟨32, vsize, 0, none⟩ data
  return { b with bitmask := (b.size <<< 3) - 1, data := some data }

/-- `readpart(p, addr, buf, n)`. -/
def readpart (p : Part) (addr n : Nat) : Option (List UInt8) :=
  if addr + n ≤ p.length then some (slice p addr n) else none

/-- `writepart(p, addr, buf, n)`. -/
def writepart (p : Part) (addr : Nat) (buf : List UInt8) : Option Part :=
  if addr + buf.length ≤ p.length then some (patch p addr buf) else none

/-- The header of a filter on disk. -/
def readbloom (p : Part) : Option Bloom := do
  let buf ← readpart p 0 512
  let b ← bloominit 0 buf
  return { b with data := none }

/-- Its table. -/
def loadbloom (b : Bloom) (p : Part) : Option Bloom := do
  let data ← readpart p 0 b.size
  return { b with data := some data }

/-- `wbbloomhead` and the write: the header is packed into the table itself. -/
def writebloom (b : Bloom) (p : Part) : Option (Bloom × Part) := do
  let data ← b.data
  let data ← packbloomhead b data
  let p ← writepart p 0 (data.take b.size)
  return ({ b with data := some data }, p)

/-! ## Marks and lookups -/

/-- `((u32int*)p)[i]`, the address in bytes. -/
def word (p : List UInt8) (off : Nat) : UInt32 := .ofNat (ofLe (slice p off 4))

/-- `h[i]` for `n` rounds. -/
def hashLoop (a b : UInt32) : Nat → List UInt32
  | 0 => []
  | n + 1 =>
    (if a.toNat < BloomHeadSize * 8 then .ofNat (BloomHeadSize * 8) else a) ::
      hashLoop (a + b) b n

/-- The score's words from the second on, every other one, are added up to `a` and `b`. -/
def gethashes (score : List UInt8) : List UInt32 :=
  let rounds := (VtScoreSize - 4) / 8
  let ab := (List.range rounds).foldl
    (fun ab k => (ab.1 ^^^ word score (4 + 8 * k), ab.2 ^^^ word score (4 + 8 * k + 4))) (0, 0)
  let i := 4 + 8 * rounds
  let a := if i + 4 ≤ VtScoreSize then ab.1 ^^^ word score i else ab.1
  hashLoop a ab.2 BloomMaxHash

/-- `tab[i]`, if that is inside the table. -/
def loadWord (tab : List UInt8) (i : Nat) : Option UInt32 :=
  if 4 * i + 4 ≤ tab.length then some (word tab (4 * i)) else none

/-- The hash values that are used; there are no more than `BloomMaxHash`. -/
def hashes (b : Bloom) (score : List UInt8) : Option (List UInt32) :=
  if b.nhash ≤ BloomMaxHash then some ((gethashes score).take b.nhash.toNat) else none

/-- `z = 1<<(x&31)`. -/
def bitOf (x : UInt32) : UInt32 := 1 <<< (x &&& 31)

/-- One round of `_markbloomfilter`. -/
def markHash (bitmask : Nat) (tab : List UInt8) (x : UInt32) : Option (List UInt8) := do
  let i := (x.toNat &&& bitmask) >>> 5
  let y ← loadWord tab i
  if y &&& bitOf x = 0 then
    return patch tab (4 * i) (le 4 (y ||| bitOf x).toNat)
  else
    return tab

/-- Nothing happens as long as there is no table. -/
def markbloomfilter (b : Bloom) (score : List UInt8) : Option Bloom :=
  match b.data with
  | none => some b
  | some data => do
    let h ← hashes b score
    let data ← h.foldlM (markHash b.bitmask) data
    return { b with data := some data }

/-- The loop of `_inbloomfilter`. -/
def lookupHashes (bitmask : Nat) (tab : List UInt8) : List UInt32 → Option Bool
  | [] => some true
  | x :: h => do
    let y ← loadWord tab ((x.toNat &&& bitmask) >>> 5)
    if y &&& bitOf x = 0 then return false
    lookupHashes bitmask tab h

/-- Without a table, and with `ignorebloom`, every score may be there. -/
def inbloomfilter (ignorebloom : Bool) (b : Bloom) (score : List UInt8) : Option Bool :=
  match b.data with
  | none => some true
  | some data =>
    if ignorebloom then some true
    else do
      let h ← hashes b score
      lookupHashes b.bitmask data h

/-! ## Bits of the table -/

/-- The bits that are set in a table. -/
def setBits (tab : List UInt8) : Set Nat :=
  {k | (word tab (4 * (k / 32))).toNat.testBit (k % 32) = true}

variable {tab : List UInt8} {off : Nat}

theorem slice_patch_word {xs : List UInt8} {i j : Nat} (hx : xs.length = 4)
    (hi : 4 * i + 4 ≤ tab.length) :
    slice (patch tab (4 * i) xs) (4 * j) 4 = if j = i then xs else slice tab (4 * j) 4 := by
  split_ifs with h
  · have hself : slice (patch tab (4 * i) xs) (4 * i) xs.length = xs := slice_patch_self (by omega)
    rw [h]
    rwa [hx] at hself
  · exact slice_patch_of_disjoint (by omega)

theorem word_le (w : UInt32) (h : slice tab off 4 = le 4 w.toNat) : word tab off = w := by
  have hw : w.toNat < 256 ^ 4 := w.toNat_lt
  rw [word, h, ofLe_le_of_lt hw, UInt32.ofNat_toNat]

theorem mem_setBits (tab : List UInt8) (k : Nat) :
    k ∈ setBits tab ↔ (word tab (4 * (k / 32))).toNat.testBit (k % 32) = true :=
  Iff.rfl

/-- The bits after a word is stored. -/
theorem mem_setBits_patch {i : Nat} (w : UInt32) (hi : 4 * i + 4 ≤ tab.length) (k : Nat) :
    k ∈ setBits (patch tab (4 * i) (le 4 w.toNat)) ↔
      if k / 32 = i then w.toNat.testBit (k % 32) = true else k ∈ setBits tab := by
  have hslice := slice_patch_word (j := k / 32) (length_le 4 w.toNat) hi
  split_ifs with h
  · rw [if_pos h] at hslice
    rw [mem_setBits, word_le w hslice]
  · rw [if_neg h] at hslice
    rw [mem_setBits, word, hslice]
    rfl

theorem toNat_bitOf (x : UInt32) : (bitOf x).toNat = 2 ^ (x.toNat % 32) := by
  have hand : (x &&& 31).toNat = x.toNat % 32 := by
    rw [UInt32.toNat_and]
    exact Nat.and_two_pow_sub_one_eq_mod x.toNat 5
  have hlt : x.toNat % 32 < 32 := Nat.mod_lt _ (by decide)
  rw [bitOf, UInt32.toNat_shiftLeft, hand, Nat.mod_eq_of_lt hlt, UInt32.toNat_one,
    Nat.shiftLeft_eq, one_mul]
  exact Nat.mod_eq_of_lt (Nat.pow_lt_pow_right (by decide) hlt)

theorem and_bitOf_eq_zero (y x : UInt32) :
    y &&& bitOf x = 0 ↔ y.toNat.testBit (x.toNat % 32) = false := by
  rw [← UInt32.toNat_inj, UInt32.toNat_and, toNat_bitOf, UInt32.toNat_zero, Nat.and_two_pow]
  cases y.toNat.testBit (x.toNat % 32) <;> simp

theorem testBit_or_bitOf (y x : UInt32) (k : Nat) :
    (y ||| bitOf x).toNat.testBit k = (y.toNat.testBit k || decide (x.toNat % 32 = k)) := by
  rw [UInt32.toNat_or, toNat_bitOf, Nat.testBit_or, Nat.testBit_two_pow]

/-! ## Bit numbers -/

theorem validSize.eq_two_pow {size : Nat} (h : validSize size) :
    ∃ n, 4 ≤ n ∧ n ≤ 29 ∧ size = 2 ^ n := by
  simp only [validSize, not_or, not_lt, not_not, BloomHeadSize, MaxBloomSize] at h
  obtain ⟨hmin, hmax, hand⟩ := h
  have hne : size ≠ 0 := by omega
  -- otherwise the highest bit of `size` is one of `size - 1` as well
  have hpow : size.isPowerOfTwo := by
    by_contra hnot
    have hbit := Nat.and_sub_one_testBit_log2 hne hnot
    rw [hand] at hbit
    simp at hbit
  obtain ⟨n, rfl⟩ := hpow
  refine ⟨n, ?_, ?_, rfl⟩
  · exact (Nat.pow_le_pow_iff_right (a := 2) (by decide)).mp hmin
  · exact (Nat.pow_le_pow_iff_right (a := 2) (by decide)).mp hmax

/-- A table of a valid size, loaded. -/
structure Bloom.Loaded (b : Bloom) (tab : List UInt8) : Prop where
  size : validSize b.size
  bitmask : b.bitmask = (b.size <<< 3) - 1
  data : b.data = some tab
  length : tab.length = b.size
  nhash : b.nhash ≤ BloomMaxHash
  int : -2 ^ 31 ≤ b.nhash

variable {b : Bloom} {buf : List UInt8}

section Loaded

variable (hb : b.Loaded tab)
include hb

theorem and_bitmask (x : Nat) : x &&& b.bitmask = x % (8 * b.size) := by
  obtain ⟨n, -, -, hn⟩ := hb.size.eq_two_pow
  have hmul : 8 * 2 ^ n = 2 ^ (3 + n) := by rw [Nat.pow_add]
  rw [hb.bitmask, Nat.shiftLeft_eq, Nat.mul_comm b.size, hn, hmul, Nat.and_two_pow_sub_one_eq_mod]

theorem dvd_size : 16 ∣ b.size := by
  obtain ⟨n, hmin, -, hn⟩ := hb.size.eq_two_pow
  rw [hn]
  exact Nat.pow_dvd_pow 2 hmin

/-- The word of a hash value is in the table, and masking keeps the bit's number in the word. -/
theorem bit_bounds (x : Nat) :
    4 * ((x &&& b.bitmask) >>> 5) + 4 ≤ tab.length ∧ x % 32 = (x &&& b.bitmask) % 32 := by
  obtain ⟨c, hc⟩ := dvd_size hb
  have hpos : 0 < b.size := by
    have := hb.size
    simp only [validSize, BloomHeadSize] at this
    omega
  rw [and_bitmask hb, Nat.shiftRight_eq_div_pow, hb.length]
  have hlt : x % (8 * b.size) < 8 * b.size := Nat.mod_lt _ (by omega)
  have hmod : x % (8 * b.size) % 32 = x % 32 := Nat.mod_mod_of_dvd x ⟨4 * c, by rw [hc]; omega⟩
  constructor <;> omega

/-! ## What the loops do -/

/-- One round sets one bit. -/
theorem markHash_spec (x : UInt32) :
    ∃ tab', markHash b.bitmask tab x = some tab' ∧ tab'.length = tab.length ∧
      setBits tab' = insert (x.toNat &&& b.bitmask) (setBits tab) := by
  obtain ⟨hfit, hmod⟩ := bit_bounds hb x.toNat
  generalize hk : x.toNat &&& b.bitmask = k at hfit hmod ⊢
  have hword : k >>> 5 = k / 32 := Nat.shiftRight_eq_div_pow k 5
  rw [hword] at hfit
  simp only [markHash, hk, hword, loadWord, if_pos hfit, some_bind, and_bitOf_eq_zero, hmod]
  split_ifs with hset
  · refine ⟨_, rfl, length_patch _ _ _, ?_⟩
    ext j
    rw [mem_setBits_patch _ hfit, Set.mem_insert_iff, mem_setBits]
    split_ifs with hj
    · rw [testBit_or_bitOf, hmod, hj, Bool.or_eq_true, decide_eq_true_eq, or_comm]
      have heq : j = k ↔ k % 32 = j % 32 := by omega
      rw [heq]
    · have hne : j ≠ k := fun h => hj (by rw [h])
      simp only [hne, false_or]
  · refine ⟨tab, rfl, rfl, ?_⟩
    rw [Set.insert_eq_of_mem]
    exact Bool.eq_true_of_not_eq_false hset

theorem Bloom.Loaded.headSize_le : BloomHeadSize ≤ tab.length := by
  rw [hb.length]
  exact Nat.not_lt.mp fun hlt => hb.size (.inl hlt)

theorem Bloom.Loaded.withData {tab' : List UInt8} (h : tab'.length = tab.length) :
    ({ b with data := some tab' } : Bloom).Loaded tab' :=
  ⟨hb.size, hb.bitmask, rfl, h.trans hb.length, hb.nhash, hb.int⟩

theorem foldlM_markHash (h : List UInt32) :
    ∃ tab', h.foldlM (markHash b.bitmask) tab = some tab' ∧ tab'.length = tab.length ∧
      setBits tab' = setBits tab ∪ {k | ∃ x ∈ h, x.toNat &&& b.bitmask = k} := by
  induction h generalizing tab b with
  | nil => exact ⟨tab, rfl, rfl, by simp⟩
  | cons x h ih =>
    obtain ⟨tab1, hmark, hlen1, hset1⟩ := markHash_spec hb x
    obtain ⟨tab2, hloop, hlen2, hset2⟩ := ih (hb.withData hlen1)
    refine ⟨tab2, ?_, hlen2.trans hlen1, ?_⟩
    · rw [foldlM_cons, hmark]
      exact hloop
    · rw [hset2, hset1]
      ext k
      simp only [Set.mem_union, Set.mem_insert_iff, Set.mem_ofPred_eq, mem_cons, exists_eq_or_imp]
      rw [or_assoc, or_left_comm, eq_comm]

theorem lookupHashes_spec (h : List UInt32) :
    ∃ r, lookupHashes b.bitmask tab h = some r ∧
      (r = true ↔ ∀ x ∈ h, x.toNat &&& b.bitmask ∈ setBits tab) := by
  induction h with
  | nil => exact ⟨true, rfl, by simp⟩
  | cons x h ih =>
    obtain ⟨r, hr, hiff⟩ := ih
    obtain ⟨hfit, hmod⟩ := bit_bounds hb x.toNat
    simp only [lookupHashes, loadWord, if_pos hfit, some_bind, and_bitOf_eq_zero]
    have hmem : x.toNat &&& b.bitmask ∈ setBits tab ↔
        (word tab (4 * ((x.toNat &&& b.bitmask) >>> 5))).toNat.testBit (x.toNat % 32) = true := by
      rw [hmod, Nat.shiftRight_eq_div_pow]
      rfl
    split_ifs with hset
    · refine ⟨false, rfl, ?_⟩
      simp [hmem, hset]
    · refine ⟨r, hr, ?_⟩
      simp [hmem, Bool.eq_true_of_not_eq_false hset, hiff]

end Loaded

/-! ## Written and read back -/

@[simp] theorem length_U32PUT (v : Int) : (U32PUT v).length = 4 := by simp [U32PUT]

@[simp] theorem length_bloomHead (b : Bloom) : (bloomHead b).length = BloomHeadSize := by
  simp [bloomHead, BloomHeadSize]

theorem U32GET_of_slice {v : Int} (h : slice buf off 4 = U32PUT v) :
    U32GET buf off = some (v % 2 ^ 32).toNat := by
  have hfit : off + 4 ≤ buf.length := by
    have hlen := congrArg length h
    simp only [slice, length_take, length_drop, length_U32PUT] at hlen
    omega
  rw [U32GET, if_pos hfit, h, U32PUT, reverse_reverse, ofLe_le_of_lt]
  omega

/-- A buffer that starts with the header of `b` is one of a filter like `b`. -/
theorem bloominit_of_head (hb : b.Loaded tab) (vsize : Nat)
    (h : slice buf 0 BloomHeadSize = bloomHead b) :
    bloominit vsize buf = some { b with data := some buf } := by
  have hfield : ∀ off, off + 4 ≤ BloomHeadSize → slice buf off 4 = slice (bloomHead b) off 4 := by
    intro off hoff
    rw [← h, slice_slice _ hoff, zero_add]
  have hmagic := U32GET_of_slice ((hfield 0 (by decide)).trans (rfl : _ = U32PUT BloomMagic))
  have hversion := U32GET_of_slice ((hfield 4 (by decide)).trans (rfl : _ = U32PUT BloomVersion))
  have hnhash := U32GET_of_slice ((hfield 8 (by decide)).trans (rfl : _ = U32PUT b.nhash))
  have hsize := U32GET_of_slice ((hfield 12 (by decide)).trans (rfl : _ = U32PUT b.size))
  have hmax : b.size ≤ 2 ^ 29 := by
    have := hb.size
    simp only [validSize, MaxBloomSize] at this
    omega
  have hsize' : ((b.size : Int) % 2 ^ 32).toNat = b.size := by omega
  have hnhash' : Int.bmod ((b.nhash % 2 ^ 32).toNat : Nat) (2 ^ 32) = b.nhash := by
    have := hb.int
    have := hb.nhash
    simp only [BloomMaxHash] at this
    rw [Int.toNat_of_nonneg (by omega), Int.bmod_def]
    omega
  rw [hsize'] at hsize
  simp only [bloominit, unpackbloomhead, hmagic, hversion, hnhash, hsize, hnhash', some_bind]
  simp [BloomMagic, BloomVersion, guard, hb.size, hb.bitmask]

/-- `writebloom` replaces the header's bits and keeps the others. -/
theorem mem_setBits_head (h : BloomHeadSize ≤ tab.length) (k : Nat) :
    k ∈ setBits (patch tab 0 (bloomHead b)) ↔
      if k < BloomHeadSize * 8 then k ∈ setBits (bloomHead b) else k ∈ setBits tab := by
  have hlen := length_bloomHead b
  by_cases hk : k < BloomHeadSize * 8
  · rw [if_pos hk]
    simp only [BloomHeadSize] at h hlen hk
    have hslice : slice (patch tab 0 (bloomHead b)) (4 * (k / 32)) 4 =
        slice (bloomHead b) (4 * (k / 32)) 4 := by
      have hin : slice (patch tab 0 (bloomHead b)) (0 + 4 * (k / 32)) 4 =
          slice (bloomHead b) (4 * (k / 32)) 4 := slice_patch_inside (by omega) (by omega)
      rwa [zero_add] at hin
    rw [mem_setBits, mem_setBits, word, word, hslice]
  · rw [if_neg hk]
    simp only [BloomHeadSize] at h hlen hk
    rw [mem_setBits, mem_setBits, word, word, slice_patch_of_disjoint (by omega)]

/-! ## Runs -/

/-- What happens to a filter: a mark, a write, or a write and a start from what was written. -/
inductive Op where
  | mark (score : List UInt8)
  | write
  | restart

/-- What an operation does. -/
def Op.exec (op : Op) (b : Bloom) (p : Part) : Option (Bloom × Part) :=
  match op with
  | .mark score => do
    let b ← markbloomfilter b score
    return (b, p)
  | .write => writebloom b p
  | .restart => do
    let (_, p) ← writebloom b p
    let b ← readbloom p
    let b ← loadbloom b p
    return (b, p)

/-- What some operations do. -/
def run : List Op → Bloom → Part → Option (Bloom × Part)
  | [], b, p => some (b, p)
  | op :: ops, b, p => do
    let (b, p) ← op.exec b p
    run ops b p

/-- The bit numbers of a score. -/
def bits (b : Bloom) (score : List UInt8) : Set Nat :=
  {k | ∃ x ∈ (gethashes score).take b.nhash.toNat, x.toNat &&& b.bitmask = k}

/-- The bits of the table that the header takes. -/
def headerRange : Set Nat := {k | k < BloomHeadSize * 8}

/-- The bits that are set in the header. -/
def headerBits (b : Bloom) : Set Nat := setBits (bloomHead b)

/-- For the set of bits, every write is one more rewrite of the header. -/
def Op.abs : Op → BloomFilter.Op (List UInt8)
  | .mark score => .mark score
  | .write => .rewrite
  | .restart => .rewrite

/-- The abstract filter of `b`. -/
def absStep (b : Bloom) : Set Nat → BloomFilter.Op (List UInt8) → Set Nat :=
  BloomFilter.step (bits b) headerRange (headerBits b)

theorem setBits_head (hb : b.Loaded tab) :
    setBits (patch tab 0 (bloomHead b)) = absStep b (setBits tab) .rewrite := by
  have hmin := hb.headSize_le
  ext k
  rw [mem_setBits_head hmin]
  simp only [absStep, BloomFilter.step, headerRange, headerBits, Set.mem_union, Set.mem_sdiff,
    Set.mem_inter_iff, Set.mem_ofPred_eq]
  split_ifs with hk <;> simp [hk]

/-- There is room for the filter, and for the block in which `readbloom` looks for the header. -/
def Part.Fits (p : Part) (b : Bloom) : Prop := 512 ≤ p.length ∧ b.size ≤ p.length

variable {p : Part}

section

variable (hb : b.Loaded tab)
include hb

theorem writebloom_spec (hp : p.Fits b) :
    writebloom b p = some ({ b with data := some (patch tab 0 (bloomHead b)) },
      patch p 0 (patch tab 0 (bloomHead b))) := by
  have hmin := hb.headSize_le
  have htake : (patch tab 0 (bloomHead b)).take b.size = patch tab 0 (bloomHead b) := by
    rw [take_of_length_le]
    rw [length_patch, hb.length]
  have hfit : 0 + (patch tab 0 (bloomHead b)).length ≤ p.length := by
    rw [length_patch, hb.length, zero_add]
    exact hp.2
  simp only [writebloom, hb.data, packbloomhead, if_pos hmin, htake, writepart, if_pos hfit,
    some_bind]
  rfl

/-- What is read back after a write is what was written. -/
theorem restart_spec (hp : p.Fits b) :
    Op.restart.exec b p = some ({ b with data := some (patch tab 0 (bloomHead b)) },
      patch p 0 (patch tab 0 (bloomHead b))) := by
  generalize htab' : patch tab 0 (bloomHead b) = tab'
  have hlen : tab'.length = b.size := by rw [← htab', length_patch, hb.length]
  have hmin := hb.headSize_le
  have hself : slice (patch p 0 tab') 0 tab'.length = tab' := slice_patch_self (by
    rw [hlen, zero_add]
    exact hp.2)
  have hhead : slice (slice (patch p 0 tab') 0 512) 0 BloomHeadSize = bloomHead b := by
    rw [slice_slice _ (by decide)]
    have hin := slice_slice (patch p 0 tab') (p := 0) (k := 0) (n := BloomHeadSize)
      (l := tab'.length) (by rw [← htab', length_patch]; omega)
    rw [← hin, hself, ← htab', ← length_bloomHead b]
    exact slice_patch_self (by rw [length_bloomHead, zero_add]; exact hmin)
  have hread : readbloom (patch p 0 tab') = some { b with data := none } := by
    have hfit : 0 + 512 ≤ (patch p 0 tab').length := by
      rw [length_patch, zero_add]
      exact hp.1
    rw [readbloom, readpart, if_pos hfit, Option.bind_eq_bind, Option.bind_some,
      bloominit_of_head hb 0 hhead]
    rfl
  have hload : loadbloom { b with data := none } (patch p 0 tab') =
      some { b with data := some tab' } := by
    have hfit : 0 + b.size ≤ (patch p 0 tab').length := by
      rw [length_patch, zero_add]
      exact hp.2
    simp only [loadbloom, readpart, if_pos hfit, some_bind]
    rw [← hlen, hself]
    rfl
  simp only [Op.exec, writebloom_spec hb hp, htab', some_bind, hread, hload]
  rfl

theorem markbloomfilter_spec (score : List UInt8) :
    ∃ tab', markbloomfilter b score = some { b with data := some tab' } ∧
      tab'.length = tab.length ∧ setBits tab' = setBits tab ∪ bits b score := by
  obtain ⟨tab', hloop, hlen, hset⟩ := foldlM_markHash hb ((gethashes score).take b.nhash.toNat)
  refine ⟨tab', ?_, hlen, hset⟩
  simp only [markbloomfilter, hb.data, hashes, if_pos hb.nhash, some_bind, hloop]
  rfl

theorem inbloomfilter_spec (score : List UInt8) :
    inbloomfilter false b score = some true ↔ bits b score ⊆ setBits tab := by
  obtain ⟨r, hloop, hiff⟩ := lookupHashes_spec hb ((gethashes score).take b.nhash.toNat)
  have hin : inbloomfilter false b score = some r := by
    simp only [inbloomfilter, hb.data, hashes, if_pos hb.nhash, some_bind, hloop]
    rfl
  rw [hin, Option.some_inj, hiff]
  constructor
  · rintro h k ⟨x, hx, rfl⟩
    exact h x hx
  · intro h x hx
    exact h ⟨x, hx, rfl⟩

/-- Every operation of the code is one of the abstract filter. -/
theorem exec_refines (hp : p.Fits b) (op : Op) :
    ∃ tab' p', op.exec b p = some ({ b with data := some tab' }, p') ∧
      tab'.length = tab.length ∧ p'.length = p.length ∧
      setBits tab' = absStep b (setBits tab) op.abs := by
  cases op with
  | mark score =>
    obtain ⟨tab', hmark, hlen, hset⟩ := markbloomfilter_spec hb score
    refine ⟨tab', p, ?_, hlen, rfl, hset⟩
    simp only [Op.exec, hmark, some_bind]
    rfl
  | write =>
    exact ⟨_, _, writebloom_spec hb hp, length_patch _ _ _, length_patch _ _ _, setBits_head hb⟩
  | restart =>
    exact ⟨_, _, restart_spec hb hp, length_patch _ _ _, length_patch _ _ _, setBits_head hb⟩

end

/-- The bits that a run of the abstract filter leaves set. -/
def absRun (b : Bloom) (s : Set Nat) (ops : List Op) : Set Nat :=
  BloomFilter.run (bits b) headerRange (headerBits b) s (ops.map Op.abs)

/-- A run of the code is a run of the abstract filter. -/
theorem run_refines (hb : b.Loaded tab) (hp : p.Fits b) (ops : List Op) :
    ∃ tab' p', run ops b p = some ({ b with data := some tab' }, p') ∧
      tab'.length = tab.length ∧ setBits tab' = absRun b (setBits tab) ops := by
  induction ops generalizing b tab p with
  | nil => exact ⟨tab, p, by rw [run, ← hb.data], rfl, rfl⟩
  | cons op ops ih =>
    obtain ⟨tab1, p1, hop, hlen1, hp1, hset1⟩ := exec_refines hb hp op
    have hfits : p1.Fits b := by
      rw [Part.Fits, hp1]
      exact hp
    obtain ⟨tab2, p2, hrun, hlen2, hset2⟩ := ih (hb.withData hlen1) hfits
    refine ⟨tab2, p2, ?_, hlen2.trans hlen1, ?_⟩
    · simp only [run, hop, some_bind]
      exact hrun
    · rw [hset2, hset1]
      rfl

/-! ## False negatives -/

/-- The scores marked in a run. -/
def marked (ops : List Op) : Set (List UInt8) := {score | .mark score ∈ ops}

/-- The scores marked after the last write of a run. -/
def markedSinceWrite (ops : List Op) : Set (List UInt8) :=
  BloomFilter.sinceRewrite (ops.map Op.abs)

theorem mem_marked_abs {ops : List Op} {score : List UInt8} (h : score ∈ marked ops) :
    score ∈ BloomFilter.marked (ops.map Op.abs) :=
  mem_map_of_mem (f := Op.abs) h

/-- A marked score has no bit under the header, or the header has that bit itself, or it has been
marked again since the last write. -/
def HeaderSafe (b : Bloom) (ops : List Op) : Prop :=
  ∀ score ∈ marked ops, ∀ k ∈ bits b score, k ∈ headerRange →
    k ∈ headerBits b ∨ ∃ t ∈ markedSinceWrite ops, k ∈ bits b t

/-- Whatever is marked, written and loaded again: no marked score is missed exactly if no bit that
counts has been lost to the header. -/
theorem inbloomfilter_marked_iff {b : Bloom} {tab : List UInt8} {p : Part} (hb : b.Loaded tab)
    (hp : p.Fits b) (ops : List Op) :
    ∃ b' p', run ops b p = some (b', p') ∧
      ((∀ score ∈ marked ops, inbloomfilter false b' score = some true) ↔ HeaderSafe b ops) := by
  obtain ⟨tab', p', hrun, hlen, hset⟩ := run_refines hb hp ops
  refine ⟨_, p', hrun, ?_⟩
  have hiff : ∀ score ∈ marked ops, inbloomfilter false { b with data := some tab' } score =
      some true ↔ ∀ k ∈ bits b score, k ∈ headerRange →
        k ∈ headerBits b ∨ ∃ t ∈ markedSinceWrite ops, k ∈ bits b t := by
    intro score hscore
    rw [inbloomfilter_spec (hb.withData hlen), hset]
    exact BloomFilter.subset_run_iff (setBits tab) (mem_marked_abs hscore)
  constructor
  · intro h score hscore
    exact (hiff score hscore).mp (h score hscore)
  · intro h score hscore
    exact (hiff score hscore).mpr (h score hscore)

/-- The smallest table, with one hash value to a score. -/
def smallBloom : Bloom := ⟨1, 16, 127, some (List.replicate 16 0)⟩

/-- A score whose first hash value is 129, which is bit 1 under the mask. -/
def headerScore : List UInt8 := [0, 0, 0, 0, 129] ++ List.replicate 15 0

theorem smallBloom_loaded : smallBloom.Loaded (replicate 16 0) :=
  ⟨by decide, by decide, rfl, rfl, by decide, by decide⟩

theorem smallBloom_fits : Part.Fits (replicate 512 0) smallBloom := by
  rw [Part.Fits, length_replicate]
  decide

theorem inbloomfilter_marked_iff_small :
    ∃ b' p', run [.mark headerScore, .restart, .mark headerScore] smallBloom
      (List.replicate 512 0) = some (b', p') ∧
      ((∀ score ∈ marked [.mark headerScore, .restart, .mark headerScore],
        inbloomfilter false b' score = some true) ↔
        HeaderSafe smallBloom [.mark headerScore, .restart, .mark headerScore]) :=
  inbloomfilter_marked_iff smallBloom_loaded smallBloom_fits _

/-- A marked score is lost by one write and the restart after it. -/
theorem marked_score_lost :
    (run [.mark headerScore, .restart] smallBloom (List.replicate 512 0)).map
      (fun s => inbloomfilter false s.1 headerScore) = some (some false) := by
  decide +kernel

end Plan9Port.Venti
