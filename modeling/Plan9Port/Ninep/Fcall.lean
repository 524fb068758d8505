import Plan9Port.Lib.Memory
import Plan9Port.Lib.LittleEndian

/-!
# 9P messages in memory

The `Fcall` of `include/fcall.h` and the macros the conversions are written with. Memory is one
flat list of bytes, a pointer is an address in it and `nil` is address 0. The conversions of the
following modules read strings and data through such pointers, so that what a conversion does to
a buffer is seen by every pointer into it. `ulong` has 64 bits, as on the LP64 systems.
-/

namespace Plan9Port.Ninep

open Memory LittleEndian

/-- Memory: a flat list of bytes. -/
abbrev Mem := List UInt8

/-- The null pointer. -/
def nil : Nat := 0

/-- The sizes of fields. -/
@[simp] def BIT8SZ : Nat := 1
@[simp] def BIT16SZ : Nat := 2
@[simp] def BIT32SZ : Nat := 4
@[simp] def BIT64SZ : Nat := 8
@[simp] def QIDSZ : Nat := BIT8SZ + BIT32SZ + BIT64SZ

/-- The most path elements in one walk. -/
def MAXWELEM : Nat := 16

/-- `NOUID`, the dummy numeric user. -/
def NOUID : Int32 := -1

/-- The message types of the enumeration in `fcall.h`; `Terror` is illegal and has no case in any
conversion. -/
inductive MsgType
  | tversion | rversion | tauth | rauth | tattach | rattach | rerror | tflush | rflush
  | twalk | rwalk | topen | ropen | tcreate | rcreate | tread | rread | twrite | rwrite
  | tclunk | rclunk | tremove | rremove | tstat | rstat | twstat | rwstat
  | topenfd | ropenfd
  deriving DecidableEq, Repr

/-- The code of a message type. -/
def MsgType.code : MsgType → UInt8
  | .tversion => 100 | .rversion => 101 | .tauth => 102 | .rauth => 103
  | .tattach => 104 | .rattach => 105 | .rerror => 107 | .tflush => 108
  | .rflush => 109 | .twalk => 110 | .rwalk => 111 | .topen => 112
  | .ropen => 113 | .tcreate => 114 | .rcreate => 115 | .tread => 116
  | .rread => 117 | .twrite => 118 | .rwrite => 119 | .tclunk => 120
  | .rclunk => 121 | .tremove => 122 | .rremove => 123 | .tstat => 124
  | .rstat => 125 | .twstat => 126 | .rwstat => 127
  | .topenfd => 98 | .ropenfd => 99

/-- The case label a `switch` on the type byte selects; `none` is `default`. -/
def MsgType.ofCode (b : UInt8) : Option MsgType :=
  [.tversion, .rversion, .tauth, .rauth, .tattach, .rattach, .rerror, .tflush, .rflush,
    .twalk, .rwalk, .topen, .ropen, .tcreate, .rcreate, .tread, .rread, .twrite, .rwrite,
    .tclunk, .rclunk, .tremove, .rremove, .tstat, .rstat, .twstat, .rwstat,
    .topenfd, .ropenfd].find? fun t => t.code = b

@[simp] theorem MsgType.ofCode_code (t : MsgType) : ofCode t.code = some t := by
  cases t <;> decide

theorem MsgType.code_of_ofCode {b : UInt8} {t : MsgType} (h : ofCode b = some t) : t.code = b := by
  simpa using List.find?_some h

/-- A server's name for a file. -/
structure Qid where
  path : UInt64
  vers : UInt64
  type : UInt8
  deriving DecidableEq, Repr, Inhabited

/-- An unpacked 9P message. Which fields mean something depends on `type`. -/
structure Fcall where
  type : UInt8
  fid : UInt32
  tag : UInt16
  msize : UInt32
  version : Nat
  oldtag : UInt16
  ename : Nat
  qid : Qid
  iounit : UInt32
  aqid : Qid
  afid : UInt32
  uname : Nat
  aname : Nat
  perm : UInt32
  name : Nat
  mode : UInt8
  newfid : UInt32
  nwname : UInt16
  wname : Vector Nat MAXWELEM
  nwqid : UInt16
  wqid : Vector Qid MAXWELEM
  offset : Int64
  count : UInt32
  data : Nat
  nstat : UInt16
  stat : Nat
  unixfd : Int32
  errornum : Int32
  uidnum : Int32
  deriving DecidableEq, Repr, Inhabited

/-! ## Reading integers -/

/-- `p[i]`. -/
def byte (m : Mem) (p : Nat) : Nat :=
  (m[p]?.getD 0).toNat

/-- `GBIT8`. -/
def gbit8 (m : Mem) (p : Nat) : Nat :=
  byte m p

/-- `GBIT16`. -/
def gbit16 (m : Mem) (p : Nat) : Nat :=
  byte m p ||| (byte m (p + 1) <<< 8)

/-- `GBIT32`. -/
def gbit32 (m : Mem) (p : Nat) : Nat :=
  byte m p ||| (byte m (p + 1) <<< 8) ||| (byte m (p + 2) <<< 16) ||| (byte m (p + 3) <<< 24)

/-- `GBIT64`; the sign extension of its high half falls off at the top. -/
def gbit64 (m : Mem) (p : Nat) : Nat :=
  (byte m p ||| (byte m (p + 1) <<< 8) ||| (byte m (p + 2) <<< 16) ||| (byte m (p + 3) <<< 24)) |||
  ((byte m (p + 4) ||| (byte m (p + 5) <<< 8) ||| (byte m (p + 6) <<< 16) |||
    (byte m (p + 7) <<< 24)) <<< 32)

theorem slice_succ {m : Mem} {p n : Nat} (h : p < m.length) :
    slice m p (n + 1) = (m[p]?.getD 0) :: slice m (p + 1) n := by
  rw [add_comm n 1, slice_add]
  rw [slice, List.drop_eq_getElem_cons h, List.getElem?_eq_getElem h]
  rfl

section Reading

variable {m : Mem} {p : Nat}

theorem gbit8_eq (h : p + BIT8SZ ≤ m.length) : gbit8 m p = ofLe (slice m p BIT8SZ) := by
  simp only [BIT8SZ] at h ⊢
  rw [slice_succ (by omega), slice_zero]
  simp [ofLe, gbit8, byte]

theorem gbit16_eq (h : p + BIT16SZ ≤ m.length) : gbit16 m p = ofLe (slice m p BIT16SZ) := by
  simp only [BIT16SZ] at h ⊢
  rw [slice_succ (by omega), slice_succ (by omega), slice_zero, ofLe_two]
  rfl

theorem gbit32_eq (h : p + BIT32SZ ≤ m.length) : gbit32 m p = ofLe (slice m p BIT32SZ) := by
  simp only [BIT32SZ] at h ⊢
  rw [slice_succ (by omega), slice_succ (by omega), slice_succ (by omega), slice_succ (by omega),
    slice_zero, ofLe_four]
  rfl

theorem gbit64_eq (h : p + BIT64SZ ≤ m.length) : gbit64 m p = ofLe (slice m p BIT64SZ) := by
  simp only [BIT64SZ] at h ⊢
  have hlo : (slice m p 4).length = 4 := length_slice (by omega)
  have h1 : gbit32 m p = ofLe (slice m p 4) := gbit32_eq (by simp only [BIT32SZ]; omega)
  have h2 : gbit32 m (p + 4) = ofLe (slice m (p + 4) 4) := gbit32_eq (by simp only [BIT32SZ]; omega)
  rw [show (8 : Nat) = 4 + 4 from rfl, slice_add, ofLe_append, hlo, ← h1, ← h2]
  rfl

theorem ofLe_slice_lt {n : Nat} (h : p + n ≤ m.length) : ofLe (slice m p n) < 256 ^ n := by
  have := ofLe_lt (slice m p n)
  rwa [length_slice h] at this

theorem le_ofLe_slice {n : Nat} (h : p + n ≤ m.length) :
    le n (ofLe (slice m p n)) = slice m p n := by
  have := le_ofLe (slice m p n)
  rwa [length_slice h] at this

theorem toNat_gbit8 (h : p + BIT8SZ ≤ m.length) :
    (UInt8.ofNat (gbit8 m p)).toNat = ofLe (slice m p BIT8SZ) := by
  rw [gbit8_eq h]
  exact UInt8.toNat_ofNat_of_lt' (ofLe_slice_lt h)

theorem toNat_gbit16 (h : p + BIT16SZ ≤ m.length) :
    (UInt16.ofNat (gbit16 m p)).toNat = ofLe (slice m p BIT16SZ) := by
  rw [gbit16_eq h]
  exact UInt16.toNat_ofNat_of_lt' (ofLe_slice_lt h)

theorem toNat_gbit32 (h : p + BIT32SZ ≤ m.length) :
    (UInt32.ofNat (gbit32 m p)).toNat = ofLe (slice m p BIT32SZ) := by
  rw [gbit32_eq h]
  exact UInt32.toNat_ofNat_of_lt' (ofLe_slice_lt h)

theorem toNat_gbit32_ulong (h : p + BIT32SZ ≤ m.length) :
    (UInt64.ofNat (gbit32 m p)).toNat = ofLe (slice m p BIT32SZ) := by
  rw [gbit32_eq h]
  exact UInt64.toNat_ofNat_of_lt' (lt_trans (ofLe_slice_lt h) (by decide))

theorem toNat_gbit64 (h : p + BIT64SZ ≤ m.length) :
    (UInt64.ofNat (gbit64 m p)).toNat = ofLe (slice m p BIT64SZ) := by
  rw [gbit64_eq h]
  exact UInt64.toNat_ofNat_of_lt' (ofLe_slice_lt h)

end Reading

/-! ## Strings -/

/-- The bytes from `s` up to the first NUL. -/
def cstring (m : Mem) (s : Nat) : List UInt8 :=
  (m.drop s).takeWhile (· ≠ 0)

/-- `strlen`. -/
def strlen (m : Mem) (s : Nat) : Nat :=
  (cstring m s).length

/-- `memmove`: the source is read before the destination is written. -/
def memmove (m : Mem) (dst src : Nat) (n : Nat) : Mem :=
  patch m dst (slice m src n)

/-- The string at `s` is `bs`: its bytes, none of them NUL, and then a NUL. -/
structure CStr (m : Mem) (s : Nat) (bs : List UInt8) : Prop where
  nul_free : 0 ∉ bs
  stored : slice m s (bs ++ [0]).length = bs ++ [0]

section

variable {m : Mem} {s : Nat} {bs : List UInt8} (h : CStr m s bs)
include h

theorem CStr.cstring_eq : cstring m s = bs := by
  have hpre : bs ++ [0] <+: m.drop s := ⟨_, by rw [← h.stored]; exact List.take_append_drop _ _⟩
  obtain ⟨t, ht⟩ := hpre
  rw [cstring, ← ht, List.append_assoc, List.takeWhile_append_of_pos]
  · simp
  · intro b hb
    have hne : b ≠ 0 := fun h0 => h.nul_free (h0 ▸ hb)
    simpa using hne

/-- The range of a string lies in memory. -/
theorem CStr.le_length : s + bs.length + 1 ≤ m.length := by
  have := congrArg List.length h.stored
  simp only [slice, List.length_append, List.length_take, List.length_drop, List.length_cons,
    List.length_nil] at this
  omega

/-- A string survives a store that misses it. -/
theorem CStr.patch {p : Nat} {xs : List UInt8} (hd : s + bs.length + 1 ≤ p ∨ p + xs.length ≤ s) :
    CStr (Memory.patch m p xs) s bs := by
  refine ⟨h.nul_free, ?_⟩
  rw [slice_patch_of_disjoint (by simp only [List.length_append, List.length_singleton]; omega),
    h.stored]

end

end Plan9Port.Ninep
