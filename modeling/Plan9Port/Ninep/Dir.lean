import Mathlib.Data.UInt
import Plan9Port.Ninep.ConvS2M

/-!
# Directory entries

`lib9/convD2M.c` and `lib9/convM2D.c`: packing a `Dir` into a stat buffer, checking a stat buffer,
and unpacking one, with the strings copied to `strs`.

## Main results

* `convD2M_eq`: packing stores the layout
* `statcheck_iff`: the buffers that `statcheck` accepts
* `convM2D_eq`: unpacking such a buffer, in closed form
-/

namespace Plan9Port.Ninep

open Memory LittleEndian Ninep.Field List

/-! ## The code -/

/-- A directory entry. -/
structure Dir where
  type : UInt16
  dev : UInt32
  qid : Qid
  mode : UInt64
  atime : UInt64
  mtime : UInt64
  length : Int64
  name : Nat
  uid : Nat
  gid : Nat
  muid : Nat
  uidnum : UInt32
  gidnum : UInt32
  muidnum : UInt32
  ext : Nat
  deriving DecidableEq, Repr, Inhabited

/-- The fixed part of a stat buffer: the count, the integers and the counts of the strings. -/
def STATFIXLEN : Nat := BIT16SZ + QIDSZ + 5 * BIT16SZ + 4 * BIT32SZ + 1 * BIT64SZ

theorem STATFIXLEN_eq : STATFIXLEN = 49 := rfl

/-- The strings `sv` of a directory entry. -/
def Dir.sv (d : Dir) : List Nat := [d.name, d.uid, d.gid, d.muid]

/-- The length of a string that may be missing. -/
def nsv (m : Mem) (s : Nat) : Nat :=
  if s ≠ nil then strlen m s else 0

/-- The bytes of a packed entry. -/
def sizeD2M (m : Mem) (d : Dir) : Nat :=
  STATFIXLEN + d.sv.foldl (fun ns s => ns + nsv m s) 0

/-- The integers of `convD2M`. -/
def fixedD2M (d : Dir) : S2M Unit := do
  put16 d.type.toNat
  put32 d.dev.toNat
  put8 d.qid.type.toNat
  put32 d.qid.vers.toNat
  put64 d.qid.path.toNat
  put32 d.mode.toNat
  put32 d.atime.toNat
  put32 d.mtime.toNat
  put64 d.length.toUInt64.toNat

/-- One round of the loop of `convD2M`, for a string whose length `ns` is known. -/
def strD2M (ebuf : Nat) (s ns : Nat) : S2M Unit := do
  if (← get).p + ns + BIT16SZ > ebuf then throw ()
  else
    put16 ns
    putmem s ns

/-- Packs `d` into the `nbuf` bytes at `buf`. If it does not fit, the count is stored all the same,
so that the caller can see how much is needed. -/
def convD2M (m : Mem) (d : Dir) (buf nbuf : Nat) : Nat × Mem :=
  if nbuf < BIT16SZ then (0, m)
  else
    let ss := STATFIXLEN + d.sv.foldl (fun ns s => ns + nsv m s) 0
    match (put16 (ss - BIT16SZ)).run ⟨m, buf⟩ with
    | .error _ w => (0, w.mem)
    | .ok _ w =>
      if ss > nbuf then (BIT16SZ, w.mem)
      else
        let rest : S2M Unit := do
          fixedD2M d
          d.sv.forM fun s => strD2M (buf + nbuf) s (nsv m s)
        match rest.run w with
        | .error _ w => (0, w.mem)
        | .ok _ w => if ss ≠ w.p - buf then (0, w.mem) else (w.p - buf, w.mem)

/-- The loop of `statcheck`: passes over `n` counted strings. -/
def statLoop (m : Mem) (ebuf : Nat) : Nat → Nat → Option Nat
  | 0, buf => some buf
  | n + 1, buf =>
    if buf + BIT16SZ > ebuf then none else statLoop m ebuf n (buf + (BIT16SZ + gbit16 m buf))

/-- Is this a stat buffer? 0 for yes, -1 for no. -/
def statcheck (m : Mem) (buf nbuf : Nat) : Int :=
  let ebuf := buf + nbuf
  if nbuf < STATFIXLEN ∨ nbuf ≠ BIT16SZ + gbit16 m buf then -1
  else
    match statLoop m ebuf 4 (buf + (STATFIXLEN - 4 * BIT16SZ)) with
    | none => -1
    | some buf => if buf ≠ ebuf then -1 else 0

/-- The cursors of `convM2D`: in the buffer and in `strs`, with the strings so far. -/
structure StrCopier where
  mem : Mem
  p : Nat
  strs : Nat
  sv : List Nat

/-- One round of the loop of `convM2D`. -/
def strM2D (ebuf : Nat) : EStateM Unit StrCopier Unit := fun w =>
  if w.p + BIT16SZ > ebuf then .error () w
  else
    let ns := gbit16 w.mem w.p
    let p := w.p + BIT16SZ
    if p + ns > ebuf then .error () { w with p := p }
    else if w.strs ≠ nil then
      let mem := memmove w.mem w.strs p ns
      let strs := w.strs + ns
      .ok () ⟨patch mem strs [0], p + ns, strs + 1, w.sv ++ [w.strs]⟩
    else .ok () { w with p := p + ns }

/-- The integers of `convM2D`, from `p` on, and the pointer past them. -/
def fixedM2D (m : Mem) (p : Nat) (d : Dir) : Dir × Nat :=
  let type := gbit16 m p
  let p := p + BIT16SZ
  let dev := gbit32 m p
  let p := p + BIT32SZ
  let qidtype := gbit8 m p
  let p := p + BIT8SZ
  let vers := gbit32 m p
  let p := p + BIT32SZ
  let path := gbit64 m p
  let p := p + BIT64SZ
  let mode := gbit32 m p
  let p := p + BIT32SZ
  let atime := gbit32 m p
  let p := p + BIT32SZ
  let mtime := gbit32 m p
  let p := p + BIT32SZ
  let length := gbit64 m p
  let p := p + BIT64SZ
  ({ d with
      type := .ofNat type
      dev := .ofNat dev
      qid := { type := .ofNat qidtype, vers := .ofNat vers, path := .ofNat path }
      mode := .ofNat mode
      atime := .ofNat atime
      mtime := .ofNat mtime
      length := (UInt64.ofNat length).toInt64 }, p)

/-- Unpacks the `nbuf` bytes at `buf` into `d`, copying the strings to `strs` unless it is `nil`.
`nullstring` is the address of a static empty string. -/
def convM2D (nullstring : Nat) (m : Mem) (buf nbuf : Nat) (d : Dir) (strs : Nat) :
    Nat × Dir × Mem :=
  if nbuf < STATFIXLEN then (0, d, m)
  else
    let (d, p) := fixedM2D m (buf + BIT16SZ) d
    match ((List.range 4).forM fun _ => strM2D (buf + nbuf)).run ⟨m, p, strs, []⟩ with
    | .error _ w => (0, d, w.mem)
    | .ok _ w =>
      let d :=
        if w.strs ≠ nil then
          { d with
            name := w.sv.getD 0 nil, uid := w.sv.getD 1 nil, gid := w.sv.getD 2 nil
            muid := w.sv.getD 3 nil, ext := nullstring }
        else
          { d with
            name := nullstring, uid := nullstring, gid := nullstring, muid := nullstring
            ext := nullstring }
      (w.p - buf, d, w.mem)

/-! ## Packing -/

/-- The integers of a stat buffer, after its count. -/
def intFields (d : Dir) : List Field :=
  [.num BIT16SZ d.type.toNat, .num BIT32SZ d.dev.toNat] ++ qidFields d.qid ++
    [.num BIT32SZ d.mode.toNat, .num BIT32SZ d.atime.toNat, .num BIT32SZ d.mtime.toNat,
      .num BIT64SZ d.length.toUInt64.toNat]

/-- The layout of a stat buffer, after its count. -/
def dirFields (v : View) (d : Dir) : List Field :=
  intFields d ++ d.sv.map (strField v)

/-- The strings of a directory entry end. -/
def Dir.Valid (m : Mem) (d : Dir) : Prop :=
  ∀ s ∈ d.sv, s ≠ nil → ∃ bs, CStr m s bs

/-- The strings of a directory entry do not meet the addresses from `lo` up to `hi`. -/
def Dir.Apart (m : Mem) (d : Dir) (lo hi : Nat) : Prop :=
  ∀ s ∈ d.sv, s ≠ nil → s + strlen m s + 1 ≤ lo ∨ hi ≤ s

theorem nsv_eq (m : Mem) (s : Nat) : nsv m s = (strBytes m s).length := by
  simp only [nsv, strBytes, strlen]
  split_ifs <;> simp_all

theorem sizeD2M_eq (m : Mem) (d : Dir) :
    sizeD2M m d = BIT16SZ + (wire (dirFields (view m) d)).length := by
  simp [sizeD2M, STATFIXLEN, dirFields, intFields, Dir.sv, qidFields, strField, view, nsv_eq]
  omega

section Packing

variable {m : Mem} {d : Dir} {buf hi : Nat}

theorem stores_fixedD2M : Stores m buf hi (fixedD2M d) (intFields d) :=
  (stores_put16 _).seq <| (stores_put32 _).seq <| (stores_put8 _).seq <| (stores_put32 _).seq <|
    (stores_put64 _).seq <| (stores_put32 _).seq <| (stores_put32 _).seq <| (stores_put32 _).seq <|
      stores_put64 _

theorem stores_strD2M {s : Nat} (hv : s ≠ nil → ∃ bs, CStr m s bs)
    (hd : s ≠ nil → s + strlen m s + 1 ≤ buf ∨ hi ≤ s) :
    Stores m buf hi (strD2M hi s (nsv m s)) [strField (view m) s] := by
  obtain ⟨hin, hapart, hbytes⟩ : s + nsv m s ≤ m.length ∧ (s + nsv m s ≤ buf ∨ hi ≤ s) ∧
      slice m s (nsv m s) = strBytes m s := by
    by_cases hs : s = nil
    · simp [nsv, strBytes, hs, nil]
    obtain ⟨bs, hbs⟩ := hv hs
    have hlen : nsv m s = bs.length := by rw [nsv, if_pos hs, strlen, hbs.cstring_eq]
    have hd := hd hs
    rw [strlen, hbs.cstring_eq] at hd
    have hle := hbs.le_length
    rw [hlen, strBytes, if_neg hs, hbs.cstring_eq]
    exact ⟨by omega, by omega, (slice_append_iff.mp hbs.stored).1⟩
  have hblob : Stores m buf hi (do put16 (nsv m s); putmem s (nsv m s)) [strField (view m) s] := by
    rw [strField, show (view m).str s = slice m s (nsv m s) from hbytes.symm]
    exact (stores_put16 _).blob hin hapart
  intro xs hroom
  have hfits : ¬ (packed m buf xs).p + nsv m s + BIT16SZ > hi := by
    rw [length_append, wire_cons, wire_nil, append_nil, strField,
      length_bytes_blob, view, ← nsv_eq] at hroom
    simp only [packed]
    omega
  rw [strD2M, EStateM.run_bind, EStateM.run_get]
  simp only [if_neg hfits]
  exact hblob xs hroom

/-- **Packing.** Into a buffer that is long enough and holds none of its strings, `convD2M` stores
the count and the layout, and returns their size. -/
theorem convD2M_eq {nbuf : Nat} (hv : d.Valid m) (ha : d.Apart m buf (buf + nbuf))
    (hle : sizeD2M m d ≤ nbuf) :
    convD2M m d buf nbuf = (sizeD2M m d,
      patch m buf (wire (.num BIT16SZ (sizeD2M m d - BIT16SZ) :: dirFields (view m) d))) := by
  have hstrs : Stores m buf (buf + nbuf) (d.sv.forM fun s => strD2M (buf + nbuf) s (nsv m s))
      (d.sv.map (strField (view m))) := by
    rw [← flatMap_pure_eq_map]
    exact stores_forM fun s hs => stores_strD2M (hv s hs) (ha s hs)
  have hcount : Stores m buf (buf + nbuf) (put16 (sizeD2M m d - BIT16SZ))
      [.num BIT16SZ (sizeD2M m d - BIT16SZ)] := stores_put16 _
  have hrest : Stores m buf (buf + nbuf)
      (do fixedD2M d; d.sv.forM fun s => strD2M (buf + nbuf) s (nsv m s))
      (dirFields (view m) d) := stores_fixedD2M.seq hstrs
  have hlen := sizeD2M_eq m d
  set c := wire [.num BIT16SZ (sizeD2M m d - BIT16SZ)] with hc
  have hclen : c.length = BIT16SZ := by simp [c]
  have hcount' : (put16 (sizeD2M m d - BIT16SZ)).run ⟨m, buf⟩ = .ok () (packed m buf c) := by
    have := hcount [] (by rw [nil_append, ← hc, hclen]; omega)
    rwa [packed, patch_nil, length_nil, add_zero, nil_append, ← hc] at this
  have hrest' := hrest c (by rw [length_append, hclen]; omega)
  have htotal : (c ++ wire (dirFields (view m) d)).length = sizeD2M m d := by
    rw [length_append, hclen, hlen]
  have hss : STATFIXLEN + d.sv.foldl (fun ns s => ns + nsv m s) 0 = sizeD2M m d := rfl
  have hnbuf : ¬ nbuf < BIT16SZ := by omega
  simp only [convD2M, hss, if_neg hnbuf, hcount', Nat.not_lt.mpr hle, if_false, hrest']
  simp only [packed, htotal, Nat.add_sub_cancel_left, ne_eq, not_true_eq_false, if_false]
  rfl

end Packing

/-! ## Counted strings

The walk that `statcheck` and `convM2D` make over the strings of a buffer. -/

/-- The contents of the `n` counted strings at `p`. -/
def strsAt (m : Mem) (p : Nat) : Nat → List (List UInt8)
  | 0 => []
  | n + 1 => slice m (p + BIT16SZ) (gbit16 m p) :: strsAt m (p + (BIT16SZ + gbit16 m p)) n

/-- Where the `n` counted strings at `p` end. -/
def strsEnd (m : Mem) (p : Nat) : Nat → Nat
  | 0 => p
  | n + 1 => strsEnd m (p + (BIT16SZ + gbit16 m p)) n

variable {l : List (List UInt8)} {ebuf : Nat} {is : List Nat}

section Counted

variable {m m' : Mem} {p n : Nat}

theorem add_le_strsEnd (m : Mem) (p n : Nat) : p + BIT16SZ * n ≤ strsEnd m p n := by
  induction n generalizing p with
  | zero => exact le_rfl
  | succ n ih =>
    have := ih (p + (BIT16SZ + gbit16 m p))
    rw [strsEnd]
    simp only [BIT16SZ] at *
    omega

theorem length_strsAt (m : Mem) (p n : Nat) : (strsAt m p n).length = n := by
  induction n generalizing p with
  | zero => rfl
  | succ n ih => rw [strsAt, length_cons, ih]

/-- The walk of `statcheck` arrives at the end of the strings. -/
theorem statLoop_eq (h : strsEnd m p n ≤ ebuf) : statLoop m ebuf n p = some (strsEnd m p n) := by
  induction n generalizing p with
  | zero => rfl
  | succ n ih =>
    have := add_le_strsEnd m p (n + 1)
    rw [statLoop, if_neg (by simp only [BIT16SZ] at *; omega)]
    exact ih h

theorem statLoop_some {q : Nat} (h : statLoop m ebuf n p = some q) : strsEnd m p n = q := by
  induction n generalizing p with
  | zero => exact Option.some.inj h
  | succ n ih =>
    rw [statLoop] at h
    split_ifs at h
    exact ih h

/-- **The buffers that `statcheck` accepts**: the count is right, and so are the counts of the four
strings. -/
theorem statcheck_iff {buf nbuf : Nat} : statcheck m buf nbuf = 0 ↔
    STATFIXLEN ≤ nbuf ∧ nbuf = BIT16SZ + gbit16 m buf ∧ strsEnd m (buf + 41) 4 = buf + nbuf := by
  have h41 : STATFIXLEN - 4 * BIT16SZ = 41 := rfl
  simp only [statcheck, h41]
  by_cases h1 : nbuf < STATFIXLEN ∨ nbuf ≠ BIT16SZ + gbit16 m buf
  · rw [if_pos h1]
    simp only [Int.reduceNeg, reduceCtorEq, false_iff]
    omega
  rw [if_neg h1]
  cases hl : statLoop m (buf + nbuf) 4 (buf + 41) with
  | none =>
    have : strsEnd m (buf + 41) 4 ≠ buf + nbuf := fun h => by
      rw [statLoop_eq h.le] at hl
      cases hl
    simp [this]
  | some q =>
    rw [statLoop_some hl]
    by_cases hq : q = buf + nbuf
    · simp only [hq, ne_eq, not_true_eq_false, if_false, true_iff, and_true]
      omega
    · simp [hq]

/-- The strings are read from the bytes up to their end. -/
theorem strsAt_congr (h : ∀ i, p ≤ i → i < strsEnd m p n → m'[i]? = m[i]?) :
    strsAt m' p n = strsAt m p n ∧ strsEnd m' p n = strsEnd m p n := by
  induction n generalizing p with
  | zero => exact ⟨rfl, rfl⟩
  | succ n ih =>
    have hend := add_le_strsEnd m (p + (BIT16SZ + gbit16 m p)) n
    have hcount : gbit16 m' p = gbit16 m p := by
      simp only [gbit16, byte]
      rw [h p le_rfl (by rw [strsEnd]; simp only [BIT16SZ] at *; omega),
        h (p + 1) (by omega) (by rw [strsEnd]; simp only [BIT16SZ] at *; omega)]
    have hslice : slice m' (p + BIT16SZ) (gbit16 m p) = slice m (p + BIT16SZ) (gbit16 m p) :=
      slice_congr fun i hi => h _ (by omega) (by rw [strsEnd]; omega)
    obtain ⟨h1, h2⟩ := @ih (p + (BIT16SZ + gbit16 m p)) fun i hi hi' => h i (by omega) hi'
    simp only [strsAt, strsEnd, hcount, hslice, h1, h2, and_self]

/-- The bytes of the strings. -/
theorem slice_strsAt (h : strsEnd m p n ≤ m.length) :
    slice m p (strsEnd m p n - p) = wire ((strsAt m p n).map (blob BIT16SZ)) := by
  induction n generalizing p with
  | zero => simp [strsEnd, strsAt]
  | succ n ih =>
    have hend := add_le_strsEnd m (p + (BIT16SZ + gbit16 m p)) n
    have h16 : p + BIT16SZ ≤ m.length := by
      rw [strsEnd] at h
      omega
    have hlen : (slice m (p + BIT16SZ) (gbit16 m p)).length = gbit16 m p :=
      length_slice (by rw [strsEnd] at h; omega)
    have hsplit : strsEnd m p (n + 1) - p = BIT16SZ + (gbit16 m p +
        (strsEnd m (p + (BIT16SZ + gbit16 m p)) n - (p + (BIT16SZ + gbit16 m p)))) := by
      rw [strsEnd]
      omega
    rw [hsplit, slice_add, slice_add, add_assoc, ih h, strsAt, map_cons, wire_cons,
      bytes, hlen, append_assoc, gbit16_eq h16, le_ofLe_slice h16]

/-- Strings that are stored with their counts are found again. -/
theorem strsAt_of_wire (hfit : ∀ bs ∈ l, (blob BIT16SZ bs).Fits)
    (hmem : p + (wire (l.map (blob BIT16SZ))).length ≤ m.length)
    (h : slice m p (wire (l.map (blob BIT16SZ))).length = wire (l.map (blob BIT16SZ))) :
    strsAt m p l.length = l ∧ strsEnd m p l.length = p + (wire (l.map (blob BIT16SZ))).length := by
  induction l generalizing p with
  | nil => exact ⟨rfl, rfl⟩
  | cons bs l ih =>
    rw [map_cons, wire_cons] at h hmem ⊢
    rw [slice_append_iff, length_bytes_blob, bytes] at h
    rw [length_append, length_bytes_blob] at hmem ⊢
    obtain ⟨hbytes, hrest⟩ := h
    have hcount : gbit16 m p = bs.length := by
      have h16 : p + BIT16SZ ≤ m.length := by omega
      have hle : slice m p BIT16SZ = le BIT16SZ bs.length := by
        rw [← length_le BIT16SZ bs.length, ← length_append] at hbytes
        have := (slice_append_iff.mp hbytes).1
        rwa [length_le] at this
      rw [gbit16_eq h16, hle, ofLe_le_of_lt (hfit bs (by simp))]
    have hstr : slice m (p + BIT16SZ) bs.length = bs := by
      rw [← length_le BIT16SZ bs.length, ← length_append] at hbytes
      have := (slice_append_iff.mp hbytes).2
      rwa [length_le] at this
    obtain ⟨h1, h2⟩ := @ih (p + (BIT16SZ + bs.length)) (fun b hb => hfit b (by simp [hb]))
      (by omega) hrest
    simp only [length_cons, strsAt, strsEnd, hcount, hstr, h1, h2, true_and]
    omega

end Counted

/-! ## Copying the strings -/

/-- The copies of strings, each ended by a NUL. -/
def copies (l : List (List UInt8)) : List UInt8 :=
  l.flatMap (· ++ [0])

/-- Where the copies at `s` start. -/
def starts (s : Nat) : List (List UInt8) → List Nat
  | [] => []
  | bs :: l => s :: starts (s + bs.length + 1) l

@[simp] theorem copies_cons (bs : List UInt8) (l : List (List UInt8)) :
    copies (bs :: l) = bs ++ [0] ++ copies l := rfl

/-- The copies are the bytes of the strings, less their counts, and their NULs. -/
theorem length_copies (l : List (List UInt8)) :
    (copies l).length + l.length = (wire (l.map (blob BIT16SZ))).length := by
  induction l with
  | nil => rfl
  | cons bs l ih =>
    simp only [copies_cons, length_append, length_cons, map_cons, wire_cons,
      length_bytes_blob, BIT16SZ, length_nil] at *
    omega

/-- Each copy is a string. -/
theorem map_strBytes_starts {m : Mem} (hnul : ∀ bs ∈ l, 0 ∉ bs) {s : Nat} (hs : s ≠ nil)
    (h : slice m s (copies l).length = copies l) :
    (starts s l).map (strBytes m) = l ∧ ∀ s' ∈ starts s l, ∃ bs, CStr m s' bs ∧ s' ≠ nil ∧
      s ≤ s' ∧ s' + bs.length + 1 ≤ s + (copies l).length := by
  induction l generalizing s with
  | nil => exact ⟨rfl, by simp [starts]⟩
  | cons bs l ih =>
    rw [copies_cons, slice_append_iff] at h
    have hbs : CStr m s bs := ⟨hnul bs (by simp), h.1⟩
    have hlen : (bs ++ [0]).length = bs.length + 1 := by simp
    rw [hlen] at h
    obtain ⟨h1, h2⟩ := @ih (fun b hb => hnul b (by simp [hb])) (s + bs.length + 1)
      (by simp [nil]) h.2
    refine ⟨?_, ?_⟩
    · rw [starts, map_cons, h1, show strBytes m s = bs from hbs.strBytes_eq hs]
    · rw [copies_cons, length_append, hlen, starts, forall_mem_cons]
      refine ⟨⟨bs, hbs, hs, le_rfl, by omega⟩, fun s' hs' => ?_⟩
      obtain ⟨bs', hc, hne, hle, hend⟩ := h2 s' hs'
      exact ⟨bs', hc, hne, by omega, by omega⟩

section Copying

/-- One round copies one string. -/
theorem strM2D_run {w : StrCopier} (hep : ebuf ≤ w.mem.length) (hs : w.strs ≠ nil)
    (h : w.p + (BIT16SZ + gbit16 w.mem w.p) ≤ ebuf) :
    (strM2D ebuf).run w = .ok () ⟨patch w.mem w.strs
        (slice w.mem (w.p + BIT16SZ) (gbit16 w.mem w.p) ++ [0]),
      w.p + (BIT16SZ + gbit16 w.mem w.p), w.strs + gbit16 w.mem w.p + 1, w.sv ++ [w.strs]⟩ := by
  have hlen : (slice w.mem (w.p + BIT16SZ) (gbit16 w.mem w.p)).length = gbit16 w.mem w.p :=
    length_slice (by omega)
  have h1 : ¬ w.p + BIT16SZ > ebuf := by omega
  have h2 : ¬ w.p + BIT16SZ + gbit16 w.mem w.p > ebuf := by omega
  simp only [EStateM.run, strM2D, if_neg h1, if_neg h2, if_pos hs, memmove]
  rw [← patch_patch_append, hlen, add_assoc]

/-- The loop copies the strings one after another. -/
theorem forM_strM2D_run {m : Mem} {p strs : Nat} {sv : List Nat} (hep : ebuf ≤ m.length)
    (hs : strs ≠ nil) (hend : strsEnd m p is.length ≤ ebuf)
    (hd : strs + (copies (strsAt m p is.length)).length ≤ p ∨ ebuf ≤ strs) :
    (is.forM fun _ => strM2D ebuf).run ⟨m, p, strs, sv⟩ =
      .ok () ⟨patch m strs (copies (strsAt m p is.length)), strsEnd m p is.length,
        strs + (copies (strsAt m p is.length)).length,
        sv ++ starts strs (strsAt m p is.length)⟩ := by
  induction is generalizing m p strs sv with
  | nil => simp [strsAt, strsEnd, copies, starts]
  | cons i is ih =>
    rw [length_cons, strsEnd] at hend
    rw [length_cons, strsAt, copies_cons, length_append, length_append, length_singleton] at hd
    have hnext := add_le_strsEnd m (p + (BIT16SZ + gbit16 m p)) is.length
    have hlen : (slice m (p + BIT16SZ) (gbit16 m p)).length = gbit16 m p := length_slice (by omega)
    rw [hlen] at hd
    set m1 := patch m strs (slice m (p + BIT16SZ) (gbit16 m p) ++ [0]) with hm1
    -- the copy misses the strings still to be read
    obtain ⟨hsame, hsame'⟩ := @strsAt_congr m m1 (p + (BIT16SZ + gbit16 m p)) is.length
      fun i hi hi' => getElem?_patch_of_disjoint
        (by rw [length_append, hlen, length_singleton]; omega)
    have hrest := @ih m1 (p + (BIT16SZ + gbit16 m p)) (strs + gbit16 m p + 1) (sv ++ [strs])
      (by rw [hm1, length_patch]; exact hep) (by simp [nil]) (by rwa [hsame'])
      (by rw [hsame]; omega)
    have hcopy : strs + gbit16 m p + 1 =
        strs + (slice m (p + BIT16SZ) (gbit16 m p) ++ [0]).length := by
      rw [length_append, hlen, length_singleton, add_assoc]
    rw [forM_eq_forM, forM_cons, EStateM.run_bind, strM2D_run hep hs (by simp only; omega)]
    rw [forM_eq_forM, hsame, hsame'] at hrest
    simp only [← hm1, hrest, length_cons, strsAt, strsEnd, copies_cons, starts, hlen]
    rw [hcopy, hm1, patch_patch_append]
    simp only [length_append, append_assoc, cons_append, nil_append, hlen,
      length_cons, add_assoc, add_comm 1, length_nil, zero_add]

end Copying

/-! ## Unpacking -/

section Unpacking

variable {m : Mem} {p : Nat}

/-- The bytes of the integers. -/
theorem slice_intFields (d : Dir) (h : p + 39 ≤ m.length) :
    slice m p 39 = wire (intFields (fixedM2D m p d).1) := by
  have hread : ∀ {w q v : Nat}, q + w ≤ m.length → v = ofLe (slice m q w) → ∀ {xs ys : List UInt8},
      xs = ys → slice m q w ++ xs = le w v ++ ys := by
    rintro w q _ hq rfl xs _ rfl
    rw [le_ofLe_slice hq]
  rw [show (39 : Nat) = BIT16SZ + (BIT32SZ + (BIT8SZ + (BIT32SZ + (BIT64SZ +
    (BIT32SZ + (BIT32SZ + (BIT32SZ + (BIT64SZ + 0)))))))) from rfl]
  simp only [slice_add]
  refine hread ?_ (toNat_gbit16 ?_) <| hread ?_ (toNat_gbit32 ?_) <| hread ?_ (toNat_gbit8 ?_) <|
    hread ?_ (toNat_gbit32_ulong ?_) <| hread ?_ (toNat_gbit64 ?_) <|
    hread ?_ (toNat_gbit32_ulong ?_) <| hread ?_ (toNat_gbit32_ulong ?_) <|
    hread ?_ (toNat_gbit32_ulong ?_) <| hread ?_ (toNat_gbit64 ?_) (slice_zero _ _)
  all_goals
    simp only [BIT8SZ, BIT16SZ, BIT32SZ, BIT64SZ]
    omega

/-- The entry can be stored: what has four bytes in a stat buffer needs no more. -/
def Dir.Fits (d : Dir) : Prop :=
  d.qid.vers.toNat < 2 ^ 32 ∧ d.mode.toNat < 2 ^ 32 ∧ d.atime.toNat < 2 ^ 32 ∧
    d.mtime.toNat < 2 ^ 32

instance (d : Dir) : Decidable d.Fits := inferInstanceAs (Decidable (_ ∧ _ ∧ _ ∧ _))

/-- Two entries agree on the integers of a stat buffer. -/
def Dir.SameInts (d d' : Dir) : Prop :=
  d.type = d'.type ∧ d.dev = d'.dev ∧ d.qid = d'.qid ∧ d.mode = d'.mode ∧ d.atime = d'.atime ∧
    d.mtime = d'.mtime ∧ d.length = d'.length

theorem fits_intFields {d : Dir} (h : d.Fits) : ∀ x ∈ intFields d, x.Fits := by
  obtain ⟨h1, h2, h3, h4⟩ := h
  simp [intFields, qidFields, d.type.toNat_lt, d.dev.toNat_lt, d.qid.type.toNat_lt,
    d.qid.path.toNat_lt, *]
  exact ⟨h1, h2, h3, h4, UInt64.toNat_lt _⟩

theorem fits_fixedM2D (d : Dir) (h : p + 39 ≤ m.length) : (fixedM2D m p d).1.Fits := by
  have h32 : ∀ q, q + BIT32SZ ≤ m.length → (UInt64.ofNat (gbit32 m q)).toNat < 2 ^ 32 :=
    fun q hq => by
      rw [toNat_gbit32_ulong hq]
      exact ofLe_slice_lt hq
  refine ⟨h32 _ ?_, h32 _ ?_, h32 _ ?_, h32 _ ?_⟩ <;>
    simp only [BIT8SZ, BIT16SZ, BIT32SZ, BIT64SZ] <;> omega

/-- The integers that are stored are read back. -/
theorem fixedM2D_same {d : Dir} (d0 : Dir) (hd : d.Fits) (h : p + 39 ≤ m.length)
    (hs : slice m p 39 = wire (intFields d)) : d.SameInts (fixedM2D m p d0).1 := by
  have hwire : wire (intFields d) ++ [] = wire (intFields (fixedM2D m p d0).1) ++ [] := by
    rw [← hs, slice_intFields d0 h]
  have hshape : Forall₂ SameShape (intFields d) (intFields (fixedM2D m p d0).1) := by
    simp [intFields, qidFields, SameShape]
  have heq := (wire_inj hshape (fits_intFields hd) (fits_intFields (fits_fixedM2D d0 h)) hwire).1
  generalize (fixedM2D m p d0).1 = d' at heq
  simp only [intFields, cons_append, nil_append, cons.injEq, num.injEq] at heq
  obtain ⟨⟨-, h1⟩, ⟨-, h2⟩, heq⟩ := heq
  obtain ⟨hq, heq⟩ := append_inj heq rfl
  simp only [cons.injEq, num.injEq, true_and, and_true, UInt64.toNat_inj] at heq
  obtain ⟨h3, h4, h5, h6⟩ := heq
  exact ⟨UInt16.toNat_inj.mp h1, UInt32.toNat_inj.mp h2, qidFields_inj hq, h3, h4, h5,
    toUInt64_inj.mp h6⟩

end Unpacking

/-- The copies fill what is left of a stat buffer without its fixed part, and four NULs. -/
theorem length_copies_strsAt {m : Mem} {buf nbuf : Nat} (hmem : buf + nbuf ≤ m.length)
    (hfix : STATFIXLEN ≤ nbuf) (hend : strsEnd m (buf + 41) 4 = buf + nbuf) :
    (copies (strsAt m (buf + 41) 4)).length = nbuf - STATFIXLEN + 4 := by
  rw [STATFIXLEN_eq] at hfix ⊢
  have h1 := length_copies (strsAt m (buf + 41) 4)
  rw [length_strsAt, ← slice_strsAt (by omega), hend, length_slice (by omega)] at h1
  omega

variable {nullstring : Nat}

/-- **Unpacking a stat buffer**: the integers are read, and the strings copied to `strs`. -/
theorem convM2D_eq {m : Mem} {buf nbuf strs : Nat} {d : Dir} (hmem : buf + nbuf ≤ m.length)
    (hfix : STATFIXLEN ≤ nbuf) (hend : strsEnd m (buf + 41) 4 = buf + nbuf) (hs : strs ≠ nil)
    (hd : strs + (nbuf - STATFIXLEN + 4) ≤ buf ∨ buf + nbuf ≤ strs) :
    ∃ d', convM2D nullstring m buf nbuf d strs =
        (nbuf, d', patch m strs (copies (strsAt m (buf + 41) 4))) ∧
      Dir.SameInts (fixedM2D m (buf + 2) d).1 d' ∧
      d'.sv = starts strs (strsAt m (buf + 41) 4) := by
  have hlen := length_copies_strsAt hmem hfix hend
  have hrun : ((range 4).forM fun _ => strM2D (buf + nbuf)).run ⟨m, buf + 41, strs, []⟩ =
      .ok () ⟨patch m strs (copies (strsAt m (buf + 41) 4)), strsEnd m (buf + 41) 4,
        strs + (copies (strsAt m (buf + 41) 4)).length, starts strs (strsAt m (buf + 41) 4)⟩ :=
    forM_strM2D_run hmem hs hend.le (by rw [length_range]; omega)
  have hp : (fixedM2D m (buf + BIT16SZ) d).2 = buf + 41 := rfl
  have hs' : strs + (copies (strsAt m (buf + 41) 4)).length ≠ nil := by
    simp only [nil] at hs ⊢
    omega
  simp only [convM2D, if_neg (Nat.not_lt.mpr hfix), hp, hrun, if_pos hs', hend,
    Nat.add_sub_cancel_left]
  exact ⟨_, rfl, ⟨rfl, rfl, rfl, rfl, rfl, rfl, rfl⟩, rfl⟩

/-- Without `strs` nothing is copied. -/
theorem forM_strM2D_run_nil {m : Mem} {p : Nat} (hend : strsEnd m p is.length ≤ ebuf) :
    (is.forM fun _ => strM2D ebuf).run ⟨m, p, nil, []⟩ =
      .ok () ⟨m, strsEnd m p is.length, nil, []⟩ := by
  induction is generalizing p with
  | nil => rfl
  | cons i is ih =>
    have hnext := add_le_strsEnd m (p + (BIT16SZ + gbit16 m p)) is.length
    have hrest := ih hend
    rw [length_cons, strsEnd] at hend
    have hstep : (strM2D ebuf).run ⟨m, p, nil, []⟩ =
        .ok () ⟨m, p + (BIT16SZ + gbit16 m p), nil, []⟩ := by
      have h1 : ¬ p + BIT16SZ > ebuf := by omega
      have h2 : ¬ p + (BIT16SZ + gbit16 m p) > ebuf := by omega
      simp only [EStateM.run, strM2D, add_assoc, if_neg h1, if_neg h2, ne_eq,
        not_true_eq_false, if_false]
    rw [forM_eq_forM, forM_cons, EStateM.run_bind, hstep]
    exact hrest

theorem convM2D_nil {m : Mem} {buf nbuf : Nat} {d : Dir} (hfix : STATFIXLEN ≤ nbuf)
    (hend : strsEnd m (buf + 41) 4 = buf + nbuf) :
    ∃ d', convM2D nullstring m buf nbuf d nil = (nbuf, d', m) := by
  have hrun : ((range 4).forM fun _ => strM2D (buf + nbuf)).run ⟨m, buf + 41, nil, []⟩ =
      .ok () ⟨m, strsEnd m (buf + 41) 4, nil, []⟩ := forM_strM2D_run_nil hend.le
  have hp : (fixedM2D m (buf + BIT16SZ) d).2 = buf + 41 := rfl
  simp only [convM2D, if_neg (Nat.not_lt.mpr hfix), hp, hrun, hend, Nat.add_sub_cancel_left]
  exact ⟨_, rfl⟩

/-! ## Round trips -/

/-- The entry `d`, with strings in `m`, and the entry `d'`, with strings in `m'`, agree on what a
stat buffer carries. A missing string counts as an empty one. -/
def Dir.Same (m : Mem) (d : Dir) (m' : Mem) (d' : Dir) : Prop :=
  d.SameInts d' ∧ d.sv.map (strBytes m) = d'.sv.map (strBytes m')

/-- A buffer that holds a packed entry is a stat buffer, with the entry's strings. -/
theorem packed_statBuffer {m m1 : Mem} {d : Dir} {buf : Nat} (hsize : sizeD2M m d ≤ 65537)
    (hmem : buf + sizeD2M m d ≤ m1.length)
    (hb : slice m1 buf (sizeD2M m d) =
      wire (.num BIT16SZ (sizeD2M m d - BIT16SZ) :: dirFields (view m) d)) :
    STATFIXLEN ≤ sizeD2M m d ∧ gbit16 m1 buf = sizeD2M m d - BIT16SZ ∧
      slice m1 (buf + 2) 39 = wire (intFields d) ∧
      strsAt m1 (buf + 41) 4 = d.sv.map (strBytes m) ∧
      strsEnd m1 (buf + 41) 4 = buf + sizeD2M m d := by
  have hints : (wire (intFields d)).length = 39 := by simp [intFields, qidFields]
  have hstrs : d.sv.map (strField (view m)) = (d.sv.map (strBytes m)).map (blob BIT16SZ) := by
    rw [map_map]
    rfl
  set l := d.sv.map (strBytes m) with hl
  have hsz : sizeD2M m d = 2 + (39 + (wire (l.map (blob BIT16SZ))).length) := by
    rw [sizeD2M_eq, dirFields, wire_append, length_append, hints, hstrs]
    rfl
  have hfit : ∀ bs ∈ l, (blob BIT16SZ bs).Fits := by
    simp only [hl, Dir.sv, map_cons, map_nil, length_append, wire_cons, wire_nil,
      length_bytes_blob, length_nil] at hsz
    simp [hl, Dir.sv]
    omega
  rw [wire_cons, dirFields, wire_append, hstrs] at hb
  nth_rewrite 1 [hsz] at hb
  rw [slice_add, slice_add] at hb
  have hlen1 : (slice m1 buf 2).length = (num BIT16SZ (sizeD2M m d - BIT16SZ)).bytes.length :=
    (length_slice (by omega)).trans (length_bytes_num _ _).symm
  have hlen2 : (slice m1 (buf + 2) 39).length = (wire (intFields d)).length := by
    rw [length_slice (by omega), hints]
  obtain ⟨hcount, hb⟩ := append_inj hb hlen1
  obtain ⟨hint, hstr⟩ := append_inj hb hlen2
  obtain ⟨h1, h2⟩ := strsAt_of_wire (p := buf + 2 + 39) hfit (by omega) hstr
  refine ⟨?_, ?_, hint, h1, ?_⟩
  · rw [sizeD2M]
    omega
  · rw [gbit16_eq (by rw [BIT16SZ]; omega), show slice m1 buf BIT16SZ = _ from hcount]
    exact ofLe_le_of_lt (by rw [BIT16SZ]; omega)
  · rw [hsz, show strsEnd m1 (buf + 41) 4 = _ from h2]
    omega

/-- **From entry to buffer and back.** -/
theorem convD2M_convM2D {m : Mem} {d : Dir} {buf nbuf : Nat} (hv : d.Valid m)
    (ha : d.Apart m buf (buf + nbuf)) (hsize : sizeD2M m d ≤ 65537) (hle : sizeD2M m d ≤ nbuf)
    (hmem : buf + nbuf ≤ m.length) :
    (convD2M m d buf nbuf).1 = sizeD2M m d ∧
    (∀ n, statcheck (convD2M m d buf nbuf).2 buf n = 0 ↔ n = sizeD2M m d) ∧
    ∀ d0 strs, strs ≠ nil → strs + (sizeD2M m d - STATFIXLEN + 4) ≤ m.length →
      (strs + (sizeD2M m d - STATFIXLEN + 4) ≤ buf ∨ buf + sizeD2M m d ≤ strs) →
      ∃ d' m', convM2D nullstring (convD2M m d buf nbuf).2 buf (sizeD2M m d) d0 strs =
        (sizeD2M m d, d', m') ∧ (d.Fits → d.Same m m' d') := by
  rw [convD2M_eq hv ha hle]
  set bs := wire (.num BIT16SZ (sizeD2M m d - BIT16SZ) :: dirFields (view m) d) with hbs
  have hlen : bs.length = sizeD2M m d := by
    rw [sizeD2M_eq, hbs, wire_cons, length_append, length_bytes_num]
  have hb : slice (patch m buf bs) buf (sizeD2M m d) = bs := by
    rw [← hlen]
    exact slice_patch_self (by omega)
  have hmem1 : buf + sizeD2M m d ≤ (patch m buf bs).length := by
    rw [length_patch]
    omega
  obtain ⟨hfix, hcount, hint, hstrs, hend⟩ := packed_statBuffer hsize hmem1 hb
  refine ⟨rfl, fun n => ?_, fun d0 strs hs hin hapart => ?_⟩
  · rw [statcheck_iff, hcount]
    rw [STATFIXLEN_eq] at *
    simp only [BIT16SZ]
    constructor
    · omega
    · rintro rfl
      exact ⟨hfix, by omega, hend⟩
  · obtain ⟨d', hrun, hints, hsv⟩ := convM2D_eq hmem1 hfix hend hs hapart
    refine ⟨d', _, hrun, fun hd => ⟨?_, ?_⟩⟩
    · have hsame := fixedM2D_same d0 hd (by rw [STATFIXLEN_eq] at hfix; omega) hint
      simp only [Dir.SameInts] at hsame hints ⊢
      simp only [hsame, hints, and_self]
    have hnul : ∀ x ∈ d.sv.map (strBytes m), 0 ∉ x := fun x hx => by
      obtain ⟨s, hs, rfl⟩ := mem_map.mp hx
      exact nul_free_strBytes (hv s hs)
    have hcopies := length_copies_strsAt hmem1 hfix hend
    rw [hsv, hstrs]
    refine (map_strBytes_starts hnul hs (slice_patch_self ?_)).1.symm
    rw [← hstrs, hcopies, length_patch]
    exact hin

theorem Dir.SameInts.intFields_eq {d d' : Dir} (h : d.SameInts d') :
    intFields d = intFields d' := by
  obtain ⟨h1, h2, h3, h4, h5, h6, h7⟩ := h
  rw [intFields, h1, h2, h3, h4, h5, h6, h7]
  rfl

/-- The bytes of a stat buffer. -/
theorem slice_statBuffer {m : Mem} {buf nbuf : Nat} (d : Dir) (hmem : buf + nbuf ≤ m.length)
    (hfix : STATFIXLEN ≤ nbuf) (hcount : nbuf = BIT16SZ + gbit16 m buf)
    (hend : strsEnd m (buf + 41) 4 = buf + nbuf) :
    slice m buf nbuf = wire (.num BIT16SZ (nbuf - BIT16SZ) ::
      (intFields (fixedM2D m (buf + 2) d).1 ++ (strsAt m (buf + 41) 4).map (blob BIT16SZ))) := by
  rw [STATFIXLEN_eq] at hfix
  have h16 : buf + BIT16SZ ≤ m.length := by rw [BIT16SZ]; omega
  have hlen : strsEnd m (buf + 41) 4 - (buf + 41) = nbuf - 41 := by omega
  rw [wire_cons, wire_append, ← slice_intFields d (by omega), ← slice_strsAt (by omega), hlen,
    bytes, show nbuf - BIT16SZ = gbit16 m buf by omega, gbit16_eq h16, le_ofLe_slice h16,
    ← slice_add m (buf + 2) 39]
  exact (congrArg (slice m buf) (by omega)).trans (slice_add m buf 2 _)

/-- **From buffer to entry and back.** -/
theorem convM2D_convD2M {m : Mem} {buf nbuf strs : Nat} (d0 : Dir) (hmem : buf + nbuf ≤ m.length)
    (hck : statcheck m buf nbuf = 0) (hin : strs ≠ nil → strs + (nbuf - STATFIXLEN + 4) ≤ m.length)
    (hapart : strs ≠ nil → strs + (nbuf - STATFIXLEN + 4) ≤ buf ∨ buf + nbuf ≤ strs) :
    ∃ d' m', convM2D nullstring m buf nbuf d0 strs = (nbuf, d', m') ∧ nbuf ≠ 0 ∧
      (∀ i, strs = nil ∨ i < strs ∨ strs + (nbuf - STATFIXLEN + 4) ≤ i → m'[i]? = m[i]?) ∧
      (strs ≠ nil → (∀ bs ∈ strsAt m (buf + 41) 4, 0 ∉ bs) → ∀ bp nb, nbuf ≤ nb →
        bp + nb ≤ m.length → (bp + nb ≤ strs ∨ strs + (nbuf - STATFIXLEN + 4) ≤ bp) →
        (convD2M m' d' bp nb).1 = nbuf ∧
          slice (convD2M m' d' bp nb).2 bp nbuf = slice m buf nbuf) := by
  obtain ⟨hfix, hcount, hend⟩ := statcheck_iff.mp hck
  have hpos : nbuf ≠ 0 := by
    rw [STATFIXLEN_eq] at hfix
    omega
  by_cases hs : strs = nil
  · obtain ⟨d', hrun⟩ := @convM2D_nil nullstring m buf nbuf d0 hfix hend
    subst hs
    exact ⟨d', m, hrun, hpos, fun _ _ => rfl, fun h => absurd rfl h⟩
  have hapart := hapart hs
  obtain ⟨d', hrun, hints, hsv⟩ :=
    @convM2D_eq nullstring m buf nbuf strs d0 hmem hfix hend hs hapart
  have hcopies := length_copies_strsAt hmem hfix hend
  set m' := patch m strs (copies (strsAt m (buf + 41) 4)) with hm'
  refine ⟨d', m', hrun, hpos, fun i hi => ?_, fun _ hnul bp nb hnb hbp hfresh => ?_⟩
  · exact getElem?_patch_of_disjoint (by omega)
  have hlen' : m'.length = m.length := length_patch _ _ _
  obtain ⟨hstrs, hptr⟩ := map_strBytes_starts hnul hs
    (show slice m' strs _ = _ from slice_patch_self (by omega))
  rw [← hsv] at hptr hstrs
  have hv : d'.Valid m' := fun s hs _ => by
    obtain ⟨bs, hbs, -⟩ := hptr s hs
    exact ⟨bs, hbs⟩
  have ha : d'.Apart m' bp (bp + nb) := fun s hs _ => by
    obtain ⟨bs, hbs, -, hlo, hhi⟩ := hptr s hs
    rw [strlen, hbs.cstring_eq]
    omega
  have hfields : dirFields (view m') d' = intFields (fixedM2D m (buf + 2) d0).1 ++
      (strsAt m (buf + 41) 4).map (blob BIT16SZ) := by
    rw [dirFields, ← hints.intFields_eq, ← hstrs, map_map]
    rfl
  have hbytes := slice_statBuffer d0 hmem hfix hcount hend
  have hsize : sizeD2M m' d' = nbuf := by
    have := congrArg length hbytes
    rw [length_slice hmem, wire_cons, length_append, length_bytes_num, ← hfields,
      ← sizeD2M_eq] at this
    exact this.symm
  rw [convD2M_eq hv ha (by omega), hsize, hfields, ← hbytes]
  refine ⟨rfl, ?_⟩
  have hroom : bp + (slice m buf nbuf).length ≤ m'.length := by
    rw [length_slice hmem]
    omega
  have := slice_patch_self hroom
  rwa [length_slice hmem] at this

/-- **Directory entries.** An entry whose strings end and whose size fits the count is packed in
its size, `statcheck` accepts exactly these bytes, and unpacking them returns the size again; if its
version, mode and times have 32 bits, the entry unpacked is the same on all that a stat buffer
carries. Conversely, what `statcheck` accepts is unpacked whole, with at most its size less
`STATFIXLEN` plus 4 bytes stored at `strs`, and packing the entry again reproduces it. -/
theorem dir_roundTrips (nullstring : Nat) :
    (∀ (m : Mem) (d : Dir) (buf nbuf : Nat), d.Valid m → d.Apart m buf (buf + nbuf) →
      sizeD2M m d ≤ 65537 → sizeD2M m d ≤ nbuf → buf + nbuf ≤ m.length →
      (convD2M m d buf nbuf).1 = sizeD2M m d ∧
      (∀ n, statcheck (convD2M m d buf nbuf).2 buf n = 0 ↔ n = sizeD2M m d) ∧
      ∀ d₀ strs, strs ≠ nil → strs + (sizeD2M m d - STATFIXLEN + 4) ≤ m.length →
        (strs + (sizeD2M m d - STATFIXLEN + 4) ≤ buf ∨ buf + sizeD2M m d ≤ strs) →
        ∃ d' m', convM2D nullstring (convD2M m d buf nbuf).2 buf (sizeD2M m d) d₀ strs =
          (sizeD2M m d, d', m') ∧ (d.Fits → d.Same m m' d')) ∧
    (∀ (m : Mem) (buf nbuf strs : Nat) (d₀ : Dir), buf + nbuf ≤ m.length →
      statcheck m buf nbuf = 0 → (strs ≠ nil → strs + (nbuf - STATFIXLEN + 4) ≤ m.length) →
      (strs ≠ nil → strs + (nbuf - STATFIXLEN + 4) ≤ buf ∨ buf + nbuf ≤ strs) →
      ∃ d' m', convM2D nullstring m buf nbuf d₀ strs = (nbuf, d', m') ∧ nbuf ≠ 0 ∧
        (∀ i, strs = nil ∨ i < strs ∨ strs + (nbuf - STATFIXLEN + 4) ≤ i → m'[i]? = m[i]?) ∧
        (strs ≠ nil → (∀ bs ∈ strsAt m (buf + 41) 4, 0 ∉ bs) → ∀ bp nb, nbuf ≤ nb →
          bp + nb ≤ m.length → (bp + nb ≤ strs ∨ strs + (nbuf - STATFIXLEN + 4) ≤ bp) →
          (convD2M m' d' bp nb).1 = nbuf ∧
            slice (convD2M m' d' bp nb).2 bp nbuf = slice m buf nbuf)) :=
  ⟨fun _ _ _ _ hv ha hsize hle hmem => convD2M_convM2D hv ha hsize hle hmem,
    fun _ _ _ _ d₀ hmem hck hin hapart => convM2D_convD2M d₀ hmem hck hin hapart⟩

/-- The name is `a` and the user `b`: the entry is packed in 51 bytes, and they are unpacked to the
same entry. -/
theorem dir_roundTrips_named :
    let m : Mem := [0, 97, 0, 98, 0] ++ List.replicate 60 0
    let d : Dir := { (default : Dir) with mode := 438, name := 1, uid := 3 }
    (convD2M m d 5 51).1 = 51 ∧ statcheck (convD2M m d 5 51).2 5 51 = 0 ∧
      ∃ d' m', convM2D 0 (convD2M m d 5 51).2 5 51 default 56 = (51, d', m') ∧ d.Same m m' d' := by
  intro m d
  have hsv : ∀ s ∈ d.sv, s = 1 ∨ s = 3 ∨ s = nil := by decide
  have hvalid : d.Valid m := by
    intro s hs hne
    rcases hsv s hs with rfl | rfl | rfl
    · exact ⟨[97], by decide, by decide⟩
    · exact ⟨[98], by decide, by decide⟩
    · exact absurd rfl hne
  obtain ⟨h1, h2, h3⟩ := (dir_roundTrips 0).1 m d 5 51 hvalid (by unfold Dir.Apart; decide)
    (by decide) (by decide) (by decide)
  obtain ⟨d', m', hrun, hsame⟩ := h3 default 56 (by decide) (by decide) (by decide)
  exact ⟨h1, (h2 51).mpr (by decide), d', m', hrun, hsame (by decide)⟩

/-- The version of a qid has four bytes in a stat buffer, so that a version of `2 ^ 32` is unpacked
as 0. -/
theorem dir_vers_truncated :
    let m : Mem := List.replicate 60 0
    let d : Dir := { (default : Dir) with qid := ⟨0, 2 ^ 32, 0⟩ }
    d.Valid m ∧ d.Apart m 1 (1 + 49) ∧ sizeD2M m d = 49 ∧ (convD2M m d 1 49).1 = 49 ∧
      (convM2D 0 (convD2M m d 1 49).2 1 49 default 50).1 = 49 ∧
      (convM2D 0 (convD2M m d 1 49).2 1 49 default 50).2.1.qid ≠ d.qid := by
  intro m d
  have hnil : ∀ s ∈ d.sv, s = nil := by decide
  exact ⟨fun s hs hne => absurd (hnil s hs) hne, fun s hs hne => absurd (hnil s hs) hne,
    by decide, by decide +kernel, by decide +kernel, by decide +kernel⟩

end Plan9Port.Ninep
