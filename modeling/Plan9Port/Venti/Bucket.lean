import Mathlib.Data.List.Lex
import Plan9Port.Lib.SortedMap
import Plan9Port.Venti.Bloom

/-!
# Index buckets

A bucket of the index is a block: a header with the number of entries and a magic number, and the
entries, packed one after the other and sorted by score and disk type (`index.c`, `conv.c` and
the update of one bucket in `icachewrite.c`, `cmd/venti/srv`).

`bucklook` searches by bisection. It returns the byte offset of an entry, which is even, with the
low bit set if the entry is there, and otherwise the offset where it belongs.
-/

namespace Plan9Port.Venti

open LittleEndian Memory SortedMap List Option Nat

/-- The bytes of a bucket's header. -/
def IBucketSize : Nat := 6

/-- The bytes of an entry. -/
def IEntrySize : Nat := 38

/-- Where the type is in an entry. -/
def IEntryTypeOff : Nat := 36

/-- The disk type of no type. -/
def VtCorruptType : Nat := 0xFF

/-- The largest block that `fmtisect` makes. -/
def MaxDiskBlock : Nat := 64 * 1024

/-! ## Entries -/

/-- The disk types. -/
def todisk : List Nat := [13, 3, 4, 5, 6, 7, 8, 9, 2, 3, 4, 5, 6, 7, 8, 9, 1]

/-- The disk type of a type. -/
def vttodisktype (n : Nat) : Nat := todisk.getD n VtCorruptType

/-- Where a clump is. -/
structure IAddr where
  addr : UInt64
  size : UInt16
  type : UInt8
  blocks : UInt8
deriving DecidableEq

/-- An entry of the index. -/
structure IEntry where
  score : List UInt8
  ia : IAddr
  length_score : score.length = VtScoreSize
deriving DecidableEq

/-- Two bytes, big-endian. -/
def U16PUT (v : Nat) : List UInt8 := (le 2 v).reverse

/-- `U16GET(p + off)`. -/
def U16GET (p : List UInt8) (off : Nat) : Option Nat :=
  if off + 2 ≤ p.length then some (ofLe (slice p off 2).reverse) else none

/-- Eight bytes. -/
def U64PUT (v : Nat) : List UInt8 := U32PUT (v >>> 32 : Nat) ++ U32PUT v

/-- The bytes of an entry. -/
def packientry (ie : IEntry) : List UInt8 :=
  ie.score ++ U32PUT 0 ++ U16PUT 0 ++ U64PUT ie.ia.addr.toNat ++ U16PUT ie.ia.size.toNat ++
    [UInt8.ofNat (vttodisktype ie.ia.type.toNat)] ++ [ie.ia.blocks]

/-! ## Buckets -/

/-- What an index section is made of. Its block size is `1 << blocklog`. -/
structure ISect where
  blocklog : Nat
  bucketmagic : UInt32
  blockbase : Nat
  start : Nat
  stop : Nat
  room : IBucketSize ≤ 2 ^ blocklog
  blocksize_le : 2 ^ blocklog ≤ MaxDiskBlock

/-- The bytes of a bucket. -/
def ISect.blocksize (is : ISect) : Nat := 2 ^ is.blocklog

/-- The entries of a bucket. -/
def ISect.buckmax (is : ISect) : Nat := (is.blocksize - IBucketSize) / IEntrySize

/-- The number of entries; the data follow the header. -/
def unpackibucket (buf : List UInt8) (off : Nat) (magic : UInt32) : Option Nat := do
  let n ← U16GET buf off
  let m ← U32GET buf (off + 2)
  return if magic.toNat ≠ 0 ∧ magic.toNat ≠ m then 0 else n

/-- Bytes are stored within a buffer. -/
def store (buf : List UInt8) (p : Nat) (bytes : List UInt8) : Option (List UInt8) :=
  if p + bytes.length ≤ buf.length then some (patch buf p bytes) else none

/-- The header of a bucket is stored. -/
def packibucket (n : Nat) (buf : List UInt8) (off : Nat) (magic : UInt32) : Option (List UInt8) :=
  store buf off (U16PUT n ++ U32PUT magic.toNat)

/-- Bytes are moved within a buffer. -/
def memmove (buf : List UInt8) (dst src n : Nat) : Option (List UInt8) :=
  if src + n ≤ buf.length then store buf dst (slice buf src n) else none

/-- The loop over the bytes of the scores: the sign of the first difference. -/
def scoreLoop (score buf : List UInt8) (p : Nat) : Nat → Nat → Option Int
  | 0, _ => some 0
  | k + 1, i => do
    let c ← score[i]?
    let cc ← buf[p + i]?
    if c ≠ cc then some (if c > cc then 1 else -1) else scoreLoop score buf p k (i + 1)

/-- The loop of `bucklook`, from `l` to `r`. -/
def bucklookLoop (score : List UInt8) (type : Int) (buf : List UInt8) (data : Nat) :
    Nat → Int → Int → Option Nat
  | 0, _, _ => none
  | fuel + 1, l, r =>
    if l ≤ r then do
      let m := (r + l) / 2
      let h := m.toNat * IEntrySize
      let c ← scoreLoop score buf (data + h) VtScoreSize 0
      if c ≠ 0 then
        if c > 0 then bucklookLoop score type buf data fuel (m + 1) r
        else bucklookLoop score type buf data fuel l (m - 1)
      else do
        let cc ← buf[data + h + IEntryTypeOff]?
        if type ≠ cc.toNat ∧ type ≠ -1 then
          if type > cc.toNat then bucklookLoop score type buf data fuel (m + 1) r
          else bucklookLoop score type buf data fuel l (m - 1)
        else return h ||| 1
    else return l.toNat * IEntrySize

/-- `bucklook`, for the data at `data` in `buf`. -/
def bucklook (score : List UInt8) (otype : Int) (buf : List UInt8) (data n : Nat) : Option Nat :=
  let type := if otype = -1 then -1 else (vttodisktype (otype % 2 ^ 32).toNat : Int)
  bucklookLoop score type buf data (n + 1) 0 (n - 1)

/-- `icachewritesect` puts an entry into the bucket at `off`. There is no new buffer if the entry is
skipped, because the bucket is bad or full. -/
def update (is : ISect) (ie : IEntry) (off : Nat) (buf : List UInt8) :
    Option (Option (List UInt8)) := do
  let n ← unpackibucket buf off is.bucketmagic
  if n > is.buckmax then return none
  let data := off + IBucketSize
  let h ← bucklook ie.score ie.ia.type.toNat buf data n
  if h &&& 1 = 1 then do
    let h := h ^^^ 1
    let buf ← store buf (data + h) (packientry ie)
    let buf ← packibucket n buf off is.bucketmagic
    return some buf
  else if n < is.buckmax then do
    let buf ← memmove buf (data + h + IEntrySize) (data + h) (n * IEntrySize - h)
    let n := (n + 1) % 2 ^ 16
    let buf ← store buf (data + h) (packientry ie)
    let buf ← packibucket n buf off is.bucketmagic
    return some buf
  else return none

/-! ## Order -/

/-- The loop of `scorecmp`. -/
def bytecmp : List UInt8 → List UInt8 → Int
  | c :: cs, d :: ds => if c ≠ d then if c > d then 1 else -1 else bytecmp cs ds
  | _, _ => 0

/-- The disk type of a packed entry. -/
def typeOf (r : List UInt8) : UInt8 := r.getD IEntryTypeOff 0

/-- `ientrycmp`, on two packed entries. -/
def ientrycmp (r₁ r₂ : List UInt8) : Int :=
  if bytecmp (r₁.take VtScoreSize) (r₂.take VtScoreSize) ≠ 0 then
    bytecmp (r₁.take VtScoreSize) (r₂.take VtScoreSize)
  else bytecmp [typeOf r₁] [typeOf r₂]

/-- The bytes of a score and a disk type, as a key. -/
def keyOf (score : List UInt8) (type : UInt8) : List Nat := (score ++ [type]).map UInt8.toNat

/-- What packed entries are sorted by. -/
def key (r : List UInt8) : List Nat := keyOf (r.take VtScoreSize) (typeOf r)

theorem bytecmp_cases {xs ys : List UInt8} (h : xs.length = ys.length) :
    bytecmp xs ys = -1 ∧ xs.map UInt8.toNat < ys.map UInt8.toNat ∨
      bytecmp xs ys = 0 ∧ xs = ys ∨
      bytecmp xs ys = 1 ∧ ys.map UInt8.toNat < xs.map UInt8.toNat := by
  induction xs generalizing ys with
  | nil =>
    obtain rfl := length_eq_zero_iff.mp h.symm
    exact Or.inr (Or.inl ⟨rfl, rfl⟩)
  | cons x xs ih =>
    obtain ⟨y, ys, rfl⟩ := exists_cons_of_length_eq_add_one h.symm
    simp only [bytecmp, map_cons, cons_lt_cons_iff, cons.injEq]
    by_cases hxy : x = y
    · subst hxy
      simp only [ne_eq, not_true_eq_false, if_false, Nat.lt_irrefl, false_or, true_and]
      exact ih (by simpa using h)
    rw [if_pos hxy]
    rcases lt_or_ge x.toNat y.toNat with hlt | hge
    · refine Or.inl ⟨if_neg ?_, Or.inl hlt⟩
      rw [gt_iff_lt, UInt8.lt_iff_toNat_lt]
      omega
    · have hlt : y.toNat < x.toNat := lt_of_le_of_ne hge fun heq =>
        hxy (UInt8.toNat_inj.mp heq.symm)
      exact Or.inr (Or.inr ⟨if_pos (UInt8.lt_iff_toNat_lt.mpr hlt), Or.inl hlt⟩)

theorem bytecmp_append {xs ys : List UInt8} (h : xs.length = ys.length) (xs' ys' : List UInt8) :
    bytecmp (xs ++ xs') (ys ++ ys') =
      if bytecmp xs ys ≠ 0 then bytecmp xs ys else bytecmp xs' ys' := by
  induction xs generalizing ys with
  | nil =>
    obtain rfl := length_eq_zero_iff.mp h.symm
    simp [bytecmp]
  | cons x xs ih =>
    obtain ⟨y, ys, rfl⟩ := exists_cons_of_length_eq_add_one h.symm
    simp only [cons_append, bytecmp]
    split_ifs <;> first | omega | simp_all

/-- The sign of a comparison is that of the keys. -/
theorem bytecmp_keyOf {s s' : List UInt8} (h : s.length = s'.length) (t t' : UInt8) :
    (0 < bytecmp (s ++ [t]) (s' ++ [t']) ↔ keyOf s' t' < keyOf s t) ∧
      (bytecmp (s ++ [t]) (s' ++ [t']) = 0 ↔ keyOf s t = keyOf s' t') ∧
      (bytecmp (s ++ [t]) (s' ++ [t']) < 0 ↔ keyOf s t < keyOf s' t') := by
  have hlen : (s ++ [t]).length = (s' ++ [t']).length := by simp [h]
  have hinj : s ++ [t] = s' ++ [t'] ↔ keyOf s t = keyOf s' t' :=
    (map_injective_iff.mpr fun a b => UInt8.toNat_inj.mp).eq_iff.symm
  rw [← hinj]
  rcases bytecmp_cases hlen with ⟨hc, hlt⟩ | ⟨hc, heq⟩ | ⟨hc, hlt⟩
  · have hne : ¬ s ++ [t] = s' ++ [t'] := fun heq => absurd hlt (by rw [heq]; exact lt_irrefl _)
    rw [hc]
    exact ⟨⟨by omega, fun h => absurd h (lt_asymm hlt)⟩, ⟨by omega, fun h => absurd h hne⟩,
      ⟨fun _ => hlt, by omega⟩⟩
  · rw [hc, keyOf, keyOf, heq]
    simp
  · have hne : ¬ s ++ [t] = s' ++ [t'] := fun heq => absurd hlt (by rw [heq]; exact lt_irrefl _)
    rw [hc]
    exact ⟨⟨fun _ => hlt, by omega⟩, ⟨by omega, fun h => absurd h hne⟩,
      ⟨by omega, fun h => absurd h (lt_asymm hlt)⟩⟩

/-- The order of the keys is that of `ientrycmp`. -/
theorem ientrycmp_neg_iff {r₁ r₂ : List UInt8} (h1 : r₁.length = IEntrySize)
    (h2 : r₂.length = IEntrySize) : ientrycmp r₁ r₂ < 0 ↔ key r₁ < key r₂ := by
  have hlen : (r₁.take VtScoreSize).length = (r₂.take VtScoreSize).length := by simp [h1, h2]
  rw [key, key, ← (bytecmp_keyOf hlen _ _).2.2, bytecmp_append hlen, ientrycmp]

/-! ## The search -/

/-- The entries at `data`. -/
def records (buf : List UInt8) (data n : Nat) : List (List UInt8) :=
  (List.range n).map fun i => slice buf (data + i * IEntrySize) IEntrySize

@[simp] theorem length_records (buf : List UInt8) (data n : Nat) :
    (records buf data n).length = n := by
  simp [records]

variable {n data : Nat} {buf : List UInt8} {i : Nat}

theorem getElem?_records (hi : i < n) :
    (records buf data n)[i]? = some (slice buf (data + i * IEntrySize) IEntrySize) := by
  simp [records, hi]

/-- The tag of an offset, which is even. -/
theorem tag_offset (i : Nat) :
    (i * IEntrySize ||| 1) &&& 1 = 1 ∧ (i * IEntrySize ||| 1) ^^^ 1 = i * IEntrySize ∧
      (i * IEntrySize) &&& 1 ≠ 1 := by
  have heven : i * IEntrySize = (i * 19) <<< 1 := by
    rw [shiftLeft_eq, IEntrySize]
    omega
  have hor : i * IEntrySize ||| 1 = i * IEntrySize + 1 := by
    rw [heven, Nat.or_comm, or_shiftLeft (by decide), shiftLeft_eq]
    omega
  refine ⟨?_, ?_, ?_⟩
  · rw [hor, and_one_is_mod, IEntrySize]
    omega
  · have hbit : (i * IEntrySize).testBit 0 = false := by
      rw [testBit_zero, IEntrySize]
      simp only [decide_eq_false_iff_not]
      omega
    apply eq_of_testBit_eq
    intro j
    rw [testBit_xor, testBit_or]
    cases j with
    | zero => simp [hbit]
    | succ j => simp [testBit_succ]
  · rw [and_one_is_mod, IEntrySize]
    omega

/-- How a score and a disk type compare with a packed entry. -/
def probe (score : List UInt8) (t : UInt8) (r : List UInt8) : Int :=
  bytecmp (score ++ [t]) (r.take VtScoreSize ++ [typeOf r])

variable {score rec : List UInt8} {p : Nat}

theorem scoreLoop_eq (hp : p + score.length ≤ buf.length) {k : Nat} (hk : i + k = score.length) :
    scoreLoop score buf p k i = some (bytecmp (score.drop i) (slice buf (p + i) k)) := by
  induction k generalizing i with
  | zero =>
    rw [scoreLoop, drop_eq_nil_of_le (by omega)]
    rfl
  | succ k ih =>
    have hi : i < score.length := by omega
    have hpi : p + i < buf.length := by omega
    have hslice : slice buf (p + i) (k + 1) = buf[p + i] :: slice buf (p + (i + 1)) k := by
      rw [slice, drop_eq_getElem_cons hpi, take_succ_cons]
      rfl
    rw [scoreLoop, getElem?_eq_getElem hi, getElem?_eq_getElem hpi, hslice, drop_eq_getElem_cons hi]
    simp only [Lib.some_bind, bytecmp]
    split_ifs
    · rfl
    · rfl
    · exact ih (by omega)

theorem take_record (buf : List UInt8) (p : Nat) :
    (slice buf p IEntrySize).take VtScoreSize = slice buf p VtScoreSize := by
  rw [slice, take_take]
  rfl

theorem typeOf_record {cc : UInt8} (h : buf[p + IEntryTypeOff]? = some cc) :
    typeOf (slice buf p IEntrySize) = cc := by
  rw [typeOf, getD_eq_getElem?_getD, getElem?_slice, if_pos (by decide), h]
  rfl

/-- The loop of `bucklook` is a bisection. -/
theorem bucklookLoop_eq (hscore : score.length = VtScoreSize) (t : UInt8)
    (hdata : data + n * IEntrySize ≤ buf.length) {fuel : Nat} {l r : Int} (hl : 0 ≤ l)
    (hr : r < n) :
    bucklookLoop score t.toNat buf data fuel l r =
      (bisect (fun i => probe score t (slice buf (data + i * IEntrySize) IEntrySize)) fuel l r).map
        fun p => if p.2 then p.1 * IEntrySize ||| 1 else p.1 * IEntrySize := by
  induction fuel generalizing l r with
  | zero => rfl
  | succ fuel ih =>
    by_cases hle : l ≤ r
    · obtain ⟨m, hm⟩ : ∃ m : Nat, (m : Int) = (r + l) / 2 := ⟨((r + l) / 2).toNat, by omega⟩
      rw [IEntrySize] at hdata
      have hp : data + m * IEntrySize + score.length ≤ buf.length := by
        rw [hscore, VtScoreSize, IEntrySize]
        omega
      have hloop := scoreLoop_eq hp (i := 0) (k := VtScoreSize) (by rw [hscore]; omega)
      obtain ⟨cc, hcc⟩ : ∃ cc, buf[data + m * IEntrySize + IEntryTypeOff]? = some cc :=
        ⟨_, getElem?_eq_getElem (by rw [IEntrySize, IEntryTypeOff]; omega)⟩
      -- what is found at `m` is the sign of the probe
      have hlen : score.length = (slice buf (data + m * IEntrySize) VtScoreSize).length := by
        rw [hscore, length_slice (by rw [IEntrySize, VtScoreSize]; omega)]
      have hprobe : probe score t (slice buf (data + m * IEntrySize) IEntrySize) =
          if bytecmp score (slice buf (data + m * IEntrySize) VtScoreSize) ≠ 0 then
            bytecmp score (slice buf (data + m * IEntrySize) VtScoreSize)
          else bytecmp [t] [cc] := by
        rw [probe, take_record, typeOf_record hcc, bytecmp_append hlen]
      have hup := ih (l := m + 1) (r := r) (by omega) hr
      have hdown := ih (l := l) (r := m - 1) hl (by omega)
      rw [drop_zero, add_zero] at hloop
      have hbisect : ∀ P : Nat → Int, bisect P (fuel + 1) l r =
          if P m = 0 then some (m, true)
          else if P m > 0 then bisect P fuel (m + 1) r else bisect P fuel l (m - 1) := by
        intro P
        simp only [SortedMap.bisect, if_pos hle, ← hm, Int.toNat_natCast]
      rw [hbisect, hprobe]
      simp only [bucklookLoop, if_pos hle, ← hm, Int.toNat_natCast, hloop, hcc, Lib.some_bind, hup,
        hdown]
      by_cases hc : bytecmp score (slice buf (data + m * IEntrySize) VtScoreSize) = 0
      · simp only [hc, ne_eq, not_true_eq_false, if_false]
        by_cases htc : t = cc
        · subst htc
          simp [bytecmp]
        have hne : ¬ (t.toNat : Int) = (cc.toNat : Int) ∧ ¬ (t.toNat : Int) = -1 :=
          ⟨fun h => htc (UInt8.toNat_inj.mp (Int.ofNat_inj.mp h)), by omega⟩
        rw [if_pos hne]
        simp only [bytecmp, ne_eq, htc, not_false_eq_true, if_true]
        by_cases hgt : t > cc
        · rw [if_pos (Int.ofNat_lt.mpr (UInt8.lt_iff_toNat_lt.mp hgt)), if_pos hgt]
          simp
        · rw [if_neg (fun h => hgt (UInt8.lt_iff_toNat_lt.mpr (Int.ofNat_lt.mp h))), if_neg hgt]
          simp
      · simp only [ne_eq, hc, not_false_eq_true, if_true, if_false]
        split_ifs <;> rfl
    · simp only [bucklookLoop, SortedMap.bisect, if_neg hle]
      rfl

theorem vttodisktype_lt (n : Nat) : vttodisktype n < 256 := by
  rw [vttodisktype, getD_eq_getElem?_getD]
  rcases hn : todisk[n]? with _ | v
  · decide
  · have hv : ∀ v ∈ todisk, v < 256 := by decide
    exact hv v (mem_of_getElem? hn)

/-- **The search.** In a sorted bucket `bucklook` finds the entry with the key, or the place
between those before and those after. -/
theorem bucklook_spec (hscore : score.length = VtScoreSize) {otype : Int} (hotype : otype ≠ -1)
    (hdata : data + n * IEntrySize ≤ buf.length) (hsorted : Sorted key (records buf data n)) :
    let k := keyOf score (UInt8.ofNat (vttodisktype (otype % 2 ^ 32).toNat))
    (∃ xs y ys, records buf data n = xs ++ y :: ys ∧ key y = k ∧
      bucklook score otype buf data n = some (xs.length * IEntrySize ||| 1)) ∨
    ∃ xs ys, records buf data n = xs ++ ys ∧ (∀ y ∈ xs, key y < k) ∧ (∀ y ∈ ys, k < key y) ∧
      bucklook score otype buf data n = some (xs.length * IEntrySize) := by
  intro k
  obtain ⟨t, ht⟩ : ∃ t, t = UInt8.ofNat (vttodisktype (otype % 2 ^ 32).toNat) := ⟨_, rfl⟩
  have htn : (vttodisktype (otype % 2 ^ 32).toNat : Int) = t.toNat := by
    rw [ht, UInt8.toNat_ofNat_of_lt' (vttodisktype_lt _)]
  have hrec : ∀ i < n, (slice buf (data + i * IEntrySize) IEntrySize).length = IEntrySize := by
    intro i hi
    have : (i + 1) * IEntrySize ≤ n * IEntrySize := Nat.mul_le_mul_right _ hi
    rw [add_mul] at this
    exact length_slice (by omega)
  -- the sign of a probe compares keys
  have hsign : ∀ i < n, (0 < probe score t (slice buf (data + i * IEntrySize) IEntrySize) ↔
      key (slice buf (data + i * IEntrySize) IEntrySize) < k) ∧
      (probe score t (slice buf (data + i * IEntrySize) IEntrySize) = 0 ↔
        k = key (slice buf (data + i * IEntrySize) IEntrySize)) ∧
      (probe score t (slice buf (data + i * IEntrySize) IEntrySize) < 0 ↔
        k < key (slice buf (data + i * IEntrySize) IEntrySize)) := by
    intro i hi
    have hlen : score.length =
        ((slice buf (data + i * IEntrySize) IEntrySize).take VtScoreSize).length := by
      rw [hscore, List.length_take, hrec i hi]
      rfl
    have hk : k = keyOf score t := by rw [ht]
    rw [hk]
    exact bytecmp_keyOf hlen _ _
  have hlt : ∀ i j, i < j → j < n → key (slice buf (data + i * IEntrySize) IEntrySize) <
      key (slice buf (data + j * IEntrySize) IEntrySize) := by
    intro i j hij hj
    have h := List.pairwise_iff_getElem.mp hsorted i j (by simpa using hij.trans hj)
      (by simpa using hj) hij
    simpa [records] using h
  obtain ⟨i, found, hbisect, hcases⟩ := bisect_spec
    (fun i => probe score t (slice buf (data + i * IEntrySize) IEntrySize)) (n := n)
    (fun i j hij hj hpos => ((hsign i (hij.trans hj)).1).mpr
      ((hlt i j hij hj).trans ((hsign j hj).1.mp hpos)))
    (fun i j hij hj hneg => ((hsign j hj).2.2).mpr
      (((hsign i (hij.trans hj)).2.2.mp hneg).trans (hlt i j hij hj)))
    (n + 1) (l := 0) (r := n - 1) (by omega) (by omega) (by omega)
    (fun i hi => by omega) (fun i hi hn => by omega) (by omega)
  have hlook : bucklook score otype buf data n =
      some (if found then i * IEntrySize ||| 1 else i * IEntrySize) := by
    rw [bucklook, if_neg hotype, htn, bucklookLoop_eq hscore t hdata (by omega) (by omega), hbisect]
    rfl
  rcases hcases with ⟨rfl, hi, hzero⟩ | ⟨rfl, hi, hbefore, hafter⟩
  · refine Or.inl ⟨(records buf data n).take i, slice buf (data + i * IEntrySize) IEntrySize,
      (records buf data n).drop (i + 1), ?_, ((hsign i hi).2.1.mp hzero).symm, ?_⟩
    · have hget : (records buf data n)[i]? = some _ := getElem?_records hi
      obtain ⟨hlt', heq⟩ := List.getElem?_eq_some_iff.mp hget
      rw [← heq, ← List.drop_eq_getElem_cons hlt', List.take_append_drop]
    · rw [hlook, List.length_take, length_records, Nat.min_eq_left hi.le]
      rfl
  · refine Or.inr ⟨(records buf data n).take i, (records buf data n).drop i,
      (List.take_append_drop _ _).symm, fun y hy => ?_, fun y hy => ?_, ?_⟩
    · obtain ⟨j, hj, rfl⟩ := List.mem_take_iff_getElem.mp hy
      have hjn : j < i := by omega
      have hval : (records buf data n)[j] = slice buf (data + j * IEntrySize) IEntrySize := by
        simp [records]
      rw [hval]
      exact (hsign j (by omega)).1.mp (hbefore j hjn)
    · obtain ⟨j, hj, rfl⟩ := List.mem_drop_iff_getElem.mp hy
      rw [length_records] at hj
      have hval : (records buf data n)[i + j] =
          slice buf (data + (i + j) * IEntrySize) IEntrySize := by
        simp [records]
      rw [hval]
      exact (hsign (i + j) (by omega)).2.2.mp (hafter (i + j) (by omega) (by omega))
    · rw [hlook, List.length_take, length_records, Nat.min_eq_left hi]
      rfl

/-! ## An entry put into its bucket -/

@[simp] theorem length_U16PUT (v : Nat) : (U16PUT v).length = 2 := by simp [U16PUT]

@[simp] theorem length_U64PUT (v : Nat) : (U64PUT v).length = 8 := by simp [U64PUT]

@[simp] theorem length_packientry (ie : IEntry) : (packientry ie).length = IEntrySize := by
  simp [packientry, ie.length_score, VtScoreSize, IEntrySize]

theorem key_packientry (ie : IEntry) : key (packientry ie) =
    keyOf ie.score (UInt8.ofNat (vttodisktype ie.ia.type.toNat)) := by
  have htake : (packientry ie).take VtScoreSize = ie.score := by
    simp [packientry, ← ie.length_score]
  have htype : typeOf (packientry ie) = UInt8.ofNat (vttodisktype ie.ia.type.toNat) := by
    have hlen : (ie.score ++ U32PUT 0 ++ U16PUT 0 ++ U64PUT ie.ia.addr.toNat ++
        U16PUT ie.ia.size.toNat).length = IEntryTypeOff := by
      simp [ie.length_score, VtScoreSize, IEntryTypeOff]
    rw [typeOf, packientry, append_assoc, getD_append_right _ _ _ _ hlen.le, hlen, Nat.sub_self]
    rfl
  rw [key, htake, htype]

/-- A record stored over another one. -/
theorem records_patch (hrec : rec.length = IEntrySize) (hi : i < n)
    (hdata : data + n * IEntrySize ≤ buf.length) :
    records (patch buf (data + i * IEntrySize) rec) data n = (records buf data n).set i rec := by
  apply ext_getElem?
  intro j
  rcases lt_or_ge j n with hj | hj
  · have hin : (i + 1) * IEntrySize ≤ n * IEntrySize := Nat.mul_le_mul_right _ hi
    rw [add_mul] at hin
    rw [getElem?_records hj, getElem?_set]
    split_ifs with hij hlen
    · subst hij
      rw [← hrec, slice_patch_self (by rw [hrec]; omega)]
    · simp at hlen
      omega
    · rw [getElem?_records hj, slice_patch_of_disjoint]
      rcases Nat.lt_or_gt_of_ne hij with hlt | hgt
      · have : (i + 1) * IEntrySize ≤ j * IEntrySize := Nat.mul_le_mul_right _ hlt
        rw [add_mul] at this
        omega
      · have : (j + 1) * IEntrySize ≤ i * IEntrySize := Nat.mul_le_mul_right _ hgt
        rw [add_mul] at this
        omega
  · rw [getElem?_eq_none (by simpa using hj), getElem?_eq_none (by simpa using hj)]

/-- A record stored before others, which have been moved to make room. -/
theorem records_insert (hrec : rec.length = IEntrySize) (hi : i ≤ n)
    (hdata : data + (n + 1) * IEntrySize ≤ buf.length) :
    records (patch buf (data + i * IEntrySize)
        (rec ++ slice buf (data + i * IEntrySize) ((n - i) * IEntrySize))) data (n + 1) =
      (records buf data n).take i ++ rec :: (records buf data n).drop i := by
  have hin : i * IEntrySize ≤ n * IEntrySize := Nat.mul_le_mul_right _ hi
  have hmoved : (n - i) * IEntrySize = n * IEntrySize - i * IEntrySize := Nat.sub_mul _ _ _
  rw [add_mul, one_mul] at hdata
  have hslice : (slice buf (data + i * IEntrySize) ((n - i) * IEntrySize)).length =
      (n - i) * IEntrySize := length_slice (by omega)
  have hlen : (rec ++ slice buf (data + i * IEntrySize) ((n - i) * IEntrySize)).length =
      IEntrySize + (n - i) * IEntrySize := by rw [length_append, hrec, hslice]
  apply ext_getElem?
  intro j
  rcases lt_or_ge j (n + 1) with hj | hj
  · rw [getElem?_records hj]
    rcases lt_trichotomy j i with hlt | rfl | hgt
    · -- before the place: as it was
      have : (j + 1) * IEntrySize ≤ i * IEntrySize := Nat.mul_le_mul_right _ hlt
      rw [add_mul] at this
      rw [getElem?_append_left (by simp; omega), getElem?_take_of_lt hlt,
        getElem?_records (by omega), slice_patch_of_disjoint (by omega)]
    · rw [getElem?_append_right (by simp), length_take, length_records,
        Nat.min_eq_left hi, Nat.sub_self, getElem?_cons_zero]
      have hfits : data + j * IEntrySize + (rec ++ slice buf (data + j * IEntrySize)
          ((n - j) * IEntrySize)).length ≤ buf.length := by
        rw [hlen]
        omega
      have hhead := slice_patch_inside hfits (k := 0) (n := IEntrySize) (by rw [hlen]; omega)
      rw [add_zero] at hhead
      rw [hhead, slice, drop_zero, ← hrec, take_left]
    · -- after the place: what was one record before
      obtain ⟨k, rfl⟩ : ∃ k, j = i + 1 + k := ⟨j - i - 1, by omega⟩
      have hk : (k + 1) * IEntrySize ≤ (n - i) * IEntrySize := Nat.mul_le_mul_right _ (by omega)
      rw [add_mul, one_mul] at hk
      rw [getElem?_append_right (by simp; omega), length_take, length_records,
        Nat.min_eq_left hi, show i + 1 + k - i = k + 1 by omega, getElem?_cons_succ,
        getElem?_drop, getElem?_records (by omega)]
      have hfits : data + i * IEntrySize + (rec ++ slice buf (data + i * IEntrySize)
          ((n - i) * IEntrySize)).length ≤ buf.length := by
        rw [hlen]
        omega
      have htail := slice_patch_inside hfits (k := IEntrySize + k * IEntrySize) (n := IEntrySize)
        (by rw [hlen]; omega)
      have hoff : data + (i + 1 + k) * IEntrySize =
          data + i * IEntrySize + (IEntrySize + k * IEntrySize) := by
        rw [add_mul, add_mul, one_mul]
        omega
      have hoff' : data + (i + k) * IEntrySize = data + i * IEntrySize + k * IEntrySize := by
        rw [add_mul]
        omega
      have hinside := slice_slice buf (p := data + i * IEntrySize) (k := k * IEntrySize)
        (n := IEntrySize) (l := (n - i) * IEntrySize) (by omega)
      rw [hoff, htail, hoff', ← hinside]
      conv_lhs => rw [slice, drop_append, hrec, drop_eq_nil_of_le (by rw [hrec]; omega),
        nil_append, Nat.add_sub_cancel_left]
      rfl
  · have hlen' :
        ((records buf data n).take i ++ rec :: (records buf data n).drop i).length ≤ j := by
      simp
      omega
    rw [getElem?_eq_none (by simpa using hj), getElem?_eq_none hlen']

/-- The number of entries of the bucket at `off`. -/
def count (is : ISect) (buf : List UInt8) (off : Nat) : Nat :=
  (unpackibucket buf off is.bucketmagic).getD 0

/-- The entries of the bucket at `off`. -/
def entries (is : ISect) (buf : List UInt8) (off : Nat) : List (List UInt8) :=
  records buf (off + IBucketSize) (count is buf off)

theorem ISect.buckmax_fits (is : ISect) :
    IBucketSize + is.buckmax * IEntrySize ≤ is.blocksize ∧ is.buckmax < 2 ^ 16 := by
  have hroom : IBucketSize ≤ is.blocksize := is.room
  have hle : is.blocksize ≤ MaxDiskBlock := is.blocksize_le
  rw [buckmax]
  simp only [IBucketSize, IEntrySize, MaxDiskBlock] at *
  omega

variable {off : Nat}

theorem U16GET_of_slice {v : Nat} (hv : v < 2 ^ 16) (h : slice buf off 2 = U16PUT v) :
    U16GET buf off = some v := by
  have hfit : off + 2 ≤ buf.length := by
    have hlen := congrArg length h
    simp only [slice, length_take, length_drop, length_U16PUT] at hlen
    omega
  rw [U16GET, if_pos hfit, h, U16PUT, reverse_reverse, ofLe_le_of_lt (by simpa using hv)]

/-- The header is read back as it was packed. -/
theorem unpackibucket_patch (hn : n < 2 ^ 16) (hoff : off + IBucketSize ≤ buf.length)
    (magic : UInt32) :
    unpackibucket (patch buf off (U16PUT n ++ U32PUT magic.toNat)) off magic = some n := by
  rw [IBucketSize] at hoff
  have hfits : off + (U16PUT n ++ U32PUT magic.toNat).length ≤ buf.length := by simpa using hoff
  have hwhole := slice_patch_self hfits
  rw [show (U16PUT n ++ U32PUT magic.toNat).length = 2 + 4 by simp, slice_add] at hwhole
  obtain ⟨h1, h2⟩ := append_inj hwhole (by
    rw [length_slice (by rw [length_patch]; omega), length_U16PUT])
  have hmagic : ((magic.toNat : Int) % 2 ^ 32).toNat = magic.toNat := by
    have := magic.toNat_lt
    omega
  rw [unpackibucket, U16GET_of_slice hn h1, U32GET_of_slice h2, hmagic]
  simp

variable {is : ISect}

/-- A bucket stays what it is where nothing is stored into its block. -/
theorem entries_congr {buf' : List UInt8} (hlen : buf'.length = buf.length)
    (hcount : count is buf off ≤ is.buckmax)
    (h : slice buf' off is.blocksize = slice buf off is.blocksize) :
    count is buf' off = count is buf off ∧ entries is buf' off = entries is buf off := by
  have hfits := is.buckmax_fits.1
  have hroom : IBucketSize ≤ is.blocksize := is.room
  have hsub : ∀ k n, k + n ≤ is.blocksize → slice buf' (off + k) n = slice buf (off + k) n := by
    intro k n hkn
    rw [← slice_slice buf' hkn, ← slice_slice buf hkn, h]
  have hcount' : count is buf' off = count is buf off := by
    rw [IBucketSize] at hroom
    rw [count, count, unpackibucket, unpackibucket, U16GET, U16GET, U32GET, U32GET, hlen,
      hsub 2 4 (by omega)]
    have hzero := hsub 0 2 (by omega)
    rw [add_zero] at hzero
    rw [hzero]
  refine ⟨hcount', ?_⟩
  rw [entries, entries, hcount', records, records]
  refine map_congr_left fun i hi => ?_
  have hi' : (i + 1) * IEntrySize ≤ is.buckmax * IEntrySize :=
    Nat.mul_le_mul_right _ ((mem_range.mp hi).trans_le hcount)
  rw [add_mul, one_mul] at hi'
  rw [add_assoc]
  exact hsub _ _ (by omega)

/-- The bucket at `off` after its header has been packed over entries that are stored already. -/
theorem entries_packibucket (buf : List UInt8) (hn : n ≤ is.buckmax)
    (hoff : off + is.blocksize ≤ buf.length) :
    ∃ buf', packibucket n buf off is.bucketmagic = some buf' ∧ buf'.length = buf.length ∧
      count is buf' off = n ∧ entries is buf' off = records buf (off + IBucketSize) n ∧
      ∀ q m, (q + m ≤ off ∨ off + is.blocksize ≤ q) → slice buf' q m = slice buf q m := by
  have hfits := is.buckmax_fits
  have hlen : (U16PUT n ++ U32PUT is.bucketmagic.toNat).length = IBucketSize := by
    simp [IBucketSize]
  have hcount : count is (patch buf off (U16PUT n ++ U32PUT is.bucketmagic.toNat)) off = n := by
    rw [count, unpackibucket_patch (by omega) (by omega)]
    rfl
  refine ⟨patch buf off (U16PUT n ++ U32PUT is.bucketmagic.toNat), ?_, length_patch _ _ _, hcount,
    ?_, fun q m hq => ?_⟩
  · rw [packibucket, store, if_pos (by omega)]
  · rw [entries, hcount, records, records]
    refine map_congr_left fun i _ => ?_
    rw [slice_patch_of_disjoint (by omega)]
  · rw [slice_patch_of_disjoint (by omega)]

/-- **One update.** The entry is put into its bucket as into a sorted map of at most `buckmax`
entries. If it does not fit there is nothing new; if it does, no other block changes. -/
theorem update_spec (ie : IEntry) (hoff : off + is.blocksize ≤ buf.length)
    (hcount : count is buf off ≤ is.buckmax) (hsorted : Sorted key (entries is buf off)) :
    (¬ Fits key is.buckmax (packientry ie) (entries is buf off) ∧
      update is ie off buf = some none) ∨
    (Fits key is.buckmax (packientry ie) (entries is buf off) ∧
      ∃ buf', update is ie off buf = some (some buf') ∧ buf'.length = buf.length ∧
        count is buf' off ≤ is.buckmax ∧
        entries is buf' off = upsert key (packientry ie) (entries is buf off) ∧
        ∀ q m, (q + m ≤ off ∨ off + is.blocksize ≤ q) → slice buf' q m = slice buf q m) := by
  have hfits := is.buckmax_fits
  have hroom : IBucketSize ≤ is.blocksize := is.room
  obtain ⟨n, hn⟩ : ∃ n, n = count is buf off := ⟨_, rfl⟩
  have hunpack : unpackibucket buf off is.bucketmagic = some n := by
    rw [IBucketSize] at hroom
    have h2 : off + 2 ≤ buf.length := by omega
    have h4 : off + 2 + 4 ≤ buf.length := by omega
    rw [hn, count, unpackibucket, U16GET, U32GET, if_pos h2, if_pos h4]
    rfl
  have hrecords : entries is buf off = records buf (off + IBucketSize) n := by rw [entries, hn]
  rw [hrecords] at hsorted ⊢
  rw [← hn] at hcount
  have hnmax : n * IEntrySize ≤ is.buckmax * IEntrySize := Nat.mul_le_mul_right _ hcount
  have hdata : off + IBucketSize + n * IEntrySize ≤ buf.length := by omega
  have hotype : ((ie.ia.type.toNat : Int) % 2 ^ 32).toNat = ie.ia.type.toNat := by
    have := ie.ia.type.toNat_lt
    omega
  have hother : (ie.ia.type.toNat : Int) ≠ -1 := by omega
  have hlook := bucklook_spec ie.length_score hother hdata hsorted
  simp only [hotype, ← key_packientry] at hlook
  rcases hlook with ⟨xs, y, ys, hsplit, hkey, hlook⟩ | ⟨xs, ys, hsplit, hlt, hgt, hlook⟩
  · -- the key is there: its entry is packed over the old one
    obtain ⟨hand, hxor, -⟩ := tag_offset xs.length
    have hlen : xs.length < n := by
      have := congrArg length hsplit
      simp at this
      omega
    have hi : (xs.length + 1) * IEntrySize ≤ n * IEntrySize := Nat.mul_le_mul_right _ hlen
    rw [add_mul, one_mul] at hi
    obtain ⟨buf', hpack, hlen', hcount', hentries', hframe⟩ := entries_packibucket
      (patch buf (off + IBucketSize + xs.length * IEntrySize) (packientry ie)) hcount
      (by rwa [length_patch])
    refine Or.inr ⟨Or.inl ⟨y, by rw [hsplit]; simp, hkey⟩, buf', ?_, by rw [hlen', length_patch],
      by omega, ?_, fun q m hq => ?_⟩
    · simp only [update, hunpack, bind_eq_bind, bind_some, if_neg (not_lt.mpr hcount),
        gt_iff_lt, hlook, hand, if_true, hxor, store]
      rw [if_pos (by rw [length_packientry]; omega), bind_some, hpack]
      rfl
    · rw [hentries', records_patch (length_packientry ie) hlen hdata, hsplit,
        upsert_of_mem (hsplit ▸ hsorted) hkey]
      simp
    · rw [hframe q m hq, slice_patch_of_disjoint (by rw [length_packientry]; omega)]
  · obtain ⟨-, -, hand⟩ := tag_offset xs.length
    have hlen : xs.length ≤ n := by
      have := congrArg length hsplit
      simp at this
      omega
    have habsent : ¬ ∃ y ∈ records buf (off + IBucketSize) n, key y = key (packientry ie) := by
      rintro ⟨y, hy, heq⟩
      rw [hsplit, mem_append] at hy
      rcases hy with hy | hy
      · exact absurd heq (hlt y hy).ne
      · exact absurd heq (hgt y hy).ne'
    by_cases hfull : n < is.buckmax
    · -- there is room: the entries after the place move up
      have hi : xs.length * IEntrySize ≤ n * IEntrySize := Nat.mul_le_mul_right _ hlen
      have hmax : (n + 1) * IEntrySize ≤ is.buckmax * IEntrySize := Nat.mul_le_mul_right _ hfull
      rw [add_mul, one_mul] at hmax
      have hmoved : (n - xs.length) * IEntrySize = n * IEntrySize - xs.length * IEntrySize :=
        Nat.sub_mul _ _ _
      have hslice : (slice buf (off + IBucketSize + xs.length * IEntrySize)
          ((n - xs.length) * IEntrySize)).length = (n - xs.length) * IEntrySize :=
        length_slice (by omega)
      have hboth := patch_patch_below buf (off + IBucketSize + xs.length * IEntrySize)
        (packientry ie) (slice buf (off + IBucketSize + xs.length * IEntrySize)
          ((n - xs.length) * IEntrySize))
      rw [length_packientry] at hboth
      obtain ⟨buf', hpack, hlen', hcount', hentries', hframe⟩ := entries_packibucket
        (n := n + 1) (patch buf (off + IBucketSize + xs.length * IEntrySize)
          (packientry ie ++ slice buf (off + IBucketSize + xs.length * IEntrySize)
            ((n - xs.length) * IEntrySize))) hfull (by rwa [length_patch])
      refine Or.inr ⟨Or.inr (by simpa using hfull), buf', ?_, by rw [hlen', length_patch],
        by omega, ?_, fun q m hq => ?_⟩
      · simp only [update, hunpack, bind_eq_bind, bind_some, if_neg (not_lt.mpr hcount), gt_iff_lt,
          hlook, if_neg hand, if_pos hfull, memmove, store, ← hmoved]
        rw [if_pos (by omega), if_pos (by rw [hslice]; omega), bind_some,
          if_pos (by rw [length_patch, length_packientry]; omega), bind_some, hboth,
          mod_eq_of_lt (by omega), hpack]
        rfl
      · rw [hentries', records_insert (length_packientry ie) hlen
          (by rw [add_mul, one_mul]; omega), hsplit, upsert_of_split hlt hgt]
        simp
      · rw [hframe q m hq, slice_patch_of_disjoint (by
          rw [length_append, length_packientry, hslice]
          omega)]
    · refine Or.inl ⟨?_, ?_⟩
      · rintro (hex | hroom)
        · exact habsent hex
        · exact hfull (by simpa using hroom)
      · simp only [update, hunpack, Lib.some_bind, if_neg (not_lt.mpr hcount), gt_iff_lt, hlook,
          if_neg hand, if_neg hfull]
        rfl

end Plan9Port.Venti
