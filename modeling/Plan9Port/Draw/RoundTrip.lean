import Plan9Port.Draw.Drawfcall

/-!
# Window system messages on the wire

`Wsysmsg.body` says what the stores of each message type leave in the buffer. It agrees with the
layouts in the comment of `drawfcall.h` except for `Rrdmouse`: its `resized` byte is stored at
offset 19 of the message, inside the four bytes of `msec` at 18, and the byte at 22 that the
layout gives to `resized` is counted and never stored. `Wsysmsg.carried` says what a message
becomes on the way.
-/

namespace Plan9Port.Draw

open Memory LittleEndian Wsysmsg Option Nat
open Ninep (Mem nil byte cstring strlen memmove CStr strBytes)

/-! ## Words and strings -/

theorem PUT_eq (m : Mem) (p x : Nat) : PUT m p x = patch m p (be 4 x) := by
  rw [PUT, be_four]

theorem PUT2_eq (m : Mem) (p x : Nat) : PUT2 m p x = patch m p (be 2 x) := by
  rw [PUT2, be_two]

variable {p hi lo s x n : Nat} {m : Mem} {bs : List UInt8}

/-- A byte of a range that is known. -/
theorem byte_of_slice {xs : List UInt8} (h : slice m p xs.length = xs) {i : Nat} {b : UInt8}
    (hb : xs[i]? = some b) : byte m (p + i) = b.toNat := by
  have hi : i < xs.length := (List.getElem?_eq_some_iff.mp hb).1
  rw [byte, slice_eq_iff.mp h i hi, hb]
  rfl

/-- `GET` of four known bytes. -/
theorem GET_eq {a b c d : UInt8} (h : slice m p 4 = [a, b, c, d]) :
    GET m p = ofBe [a, b, c, d] := by
  have hbyte : ∀ i x, [a, b, c, d][i]? = some x → byte m (p + i) = x.toNat :=
    fun i x => byte_of_slice h
  have h0 : byte m p = a.toNat := hbyte 0 a rfl
  rw [GET, h0, hbyte 1 b rfl, hbyte 2 c rfl, hbyte 3 d rfl, ofBe_four]

theorem GET_of_slice (h : slice m p 4 = be 4 x) : GET m p = x % 2 ^ 32 := by
  rw [be_four] at h
  rw [GET_eq h, ← be_four, ofBe_be]
  rfl

theorem GET2_of_slice (h : slice m p 2 = be 2 x) : GET2 m p = x % 2 ^ 16 := by
  rw [be_two] at h
  have hbyte : ∀ i b, [UInt8.ofNat (x >>> 8), .ofNat x][i]? = some b →
      byte m (p + i) = b.toNat := fun i b => byte_of_slice h
  have h0 : byte m p = (UInt8.ofNat (x >>> 8)).toNat := hbyte 0 _ rfl
  rw [GET2, h0, hbyte 1 _ rfl, ← ofBe_two, ← be_two, ofBe_be]
  rfl

theorem bits_lt (x : Int32) : bits x < 2 ^ 32 := x.toUInt32.toNat_lt

@[simp] theorem toInt_bits (x : Int32) : toInt (bits x) = x := by
  simp [toInt, bits]

/-- An `int` goes through four bytes unchanged. -/
theorem toInt_GET {x : Int32} (h : slice m p 4 = be 4 (bits x)) : toInt (GET m p) = x := by
  rw [GET_of_slice h, mod_eq_of_lt (bits_lt x), toInt_bits]

theorem ofNat_GET {x : UInt32} (h : slice m p 4 = be 4 x.toNat) : UInt32.ofNat (GET m p) = x := by
  rw [GET_of_slice h, mod_eq_of_lt x.toNat_lt, UInt32.ofNat_toNat]

theorem getBytes_of_slice {v : Vector UInt8 n} (h : slice m p n = v.toList) :
    getBytes m p n = v := by
  ext i hi
  have hlen : v.toList.length = n := by simp
  have hget := slice_eq_iff.mp (hlen.symm ▸ h : slice m p v.toList.length = v.toList) i (by omega)
  simp [getBytes, hget, hi]

/-- A string on the wire: its length, then its bytes. -/
def str (m : Mem) (s : Nat) : List UInt8 :=
  be 4 (strBytes m s).length ++ strBytes m s

/-- A string that can be packed at a range: it is missing, or it ends and lies apart from the
range. -/
def StrApart (m : Mem) (lo hi s : Nat) : Prop :=
  s = nil ∨ ∃ bs, CStr m s bs ∧ (s + bs.length + 1 ≤ lo ∨ hi ≤ s)

namespace StrApart

variable (h : StrApart m lo hi s)
include h

theorem nul_free : 0 ∉ strBytes m s :=
  Ninep.nul_free_strBytes fun hs => (h.resolve_left hs).imp fun _ hbs => hbs.1

/-- A store in the range leaves the string alone. -/
theorem patch (p : Nat) (xs : List UInt8) (hp : lo ≤ p) (hxs : p + xs.length ≤ hi) :
    StrApart (Memory.patch m p xs) lo hi s ∧ strBytes (Memory.patch m p xs) s = strBytes m s := by
  by_cases hs : s = nil
  · exact ⟨.inl hs, by rw [strBytes, strBytes, if_pos hs, if_pos hs]⟩
  · obtain ⟨bs, hbs, hd⟩ := h.resolve_left hs
    have hbs' : CStr (Memory.patch m p xs) s bs := hbs.patch (by omega)
    exact ⟨.inr ⟨bs, hbs', hd⟩, (hbs'.strBytes_eq hs).trans (hbs.strBytes_eq hs).symm⟩

/-- The bytes of the string are where it points. -/
theorem slice_eq : slice m s (strBytes m s).length = strBytes m s := by
  by_cases hs : s = nil
  · rw [strBytes, if_pos hs]
    exact slice_zero m s
  · obtain ⟨bs, hbs, -⟩ := h.resolve_left hs
    rw [show strBytes m s = bs from hbs.strBytes_eq hs]
    exact (slice_append_iff.mp hbs.stored).1

end StrApart

theorem intValue_eq_some {k : Nat} : intValue n = some k ↔ n < 2 ^ 31 ∧ n = k := by
  rw [intValue]
  split_ifs with hn
  · simp only [some.injEq, hn, true_and]
  · simp only [hn, false_and]

/-- `PUTSTRING` stores the string with its length. -/
theorem PUTSTRING_eq (h : StrApart m lo hi s) (hlen : (strBytes m s).length + 4 < 2 ^ 31)
    (hp : lo ≤ p) (hhi : p + 4 ≤ hi) :
    PUTSTRING m p s = some ((strBytes m s).length + 4, patch m p (str m s)) := by
  have hmod : (strBytes m s).length % 2 ^ 32 = (strBytes m s).length := mod_eq_of_lt (by omega)
  -- the length is stored before the bytes are read
  have hput := h.patch p (be 4 (strBytes m s).length) hp (by simpa using hhi)
  have hslice := hput.1.slice_eq
  rw [hput.2] at hslice
  rw [PUTSTRING, hmod, intValue_eq_some.mpr ⟨hlen, rfl⟩]
  simp only [bind_eq_bind, bind_some, pure_def, memmove, PUT_eq, hslice, str]
  rw [patch_patch_next _ _ (by simp)]

/-- `GETSTRING` leaves the string in place of its length. -/
theorem GETSTRING_eq (hlen : bs.length + 4 < 2 ^ 31)
    (h : slice m p (be 4 bs.length ++ bs).length = be 4 bs.length ++ bs) :
    GETSTRING m p = some (bs.length + 4, p, patch m p (bs ++ [0])) := by
  obtain ⟨hn, hbs⟩ := slice_append_iff.mp h
  rw [length_be] at hn hbs
  rw [GETSTRING, GET_of_slice hn, mod_eq_of_lt (by omega), intValue_eq_some.mpr ⟨hlen, rfl⟩]
  simp only [bind_eq_bind, bind_some, pure_def, memmove, hbs, patch_patch_append]

/-- What `GETSTRING` leaves is the string. -/
theorem cstr_patch (hnul : 0 ∉ bs) (hm : p + bs.length + 1 ≤ m.length) :
    CStr (patch m p (bs ++ [0])) p bs :=
  ⟨hnul, slice_patch_self (by simp only [List.length_append, List.length_singleton]; omega)⟩

/-! ## What is stored -/

/-- **The layouts**: the bytes that `convW2M` stores after the header, for each message type. -/
def Wsysmsg.body (m : Mem) (w : Wsysmsg) : WsysType → List UInt8
  | .trdmouse | .rbouncemouse | .rmoveto | .rcursor | .rcursor2 | .trdkbd | .trdkbd4 | .rlabel
  | .rctxt | .rinit | .trdsnarf | .rwrsnarf | .ttop | .rtop | .rresize => []
  | .rerror => str m w.error
  -- `resized` in the place of the second byte of `msec`
  | .rrdmouse =>
    be 4 (bits w.mouse.xy.x) ++ (be 4 (bits w.mouse.xy.y) ++ (be 4 (bits w.mouse.buttons) ++
      [.ofNat (w.mouse.msec.toNat >>> 24), toUchar w.resized, .ofNat (w.mouse.msec.toNat >>> 8),
        .ofNat w.mouse.msec.toNat]))
  | .tbouncemouse =>
    be 4 (bits w.mouse.xy.x) ++ (be 4 (bits w.mouse.xy.y) ++ be 4 (bits w.mouse.buttons))
  | .tmoveto => be 4 (bits w.mouse.xy.x) ++ be 4 (bits w.mouse.xy.y)
  | .tcursor =>
    be 4 (bits w.cursor.offset.x) ++ (be 4 (bits w.cursor.offset.y) ++ (w.cursor.clr.toList ++
      (w.cursor.set.toList ++ [toUchar w.arrowcursor])))
  | .tcursor2 =>
    be 4 (bits w.cursor.offset.x) ++ (be 4 (bits w.cursor.offset.y) ++ (w.cursor.clr.toList ++
      (w.cursor.set.toList ++ (be 4 (bits w.cursor2.offset.x) ++
        (be 4 (bits w.cursor2.offset.y) ++ (w.cursor2.clr.toList ++ (w.cursor2.set.toList ++
          [toUchar w.arrowcursor])))))))
  | .rrdkbd => be 2 w.rune.toNat
  | .rrdkbd4 => be 4 w.rune.toNat
  | .tlabel => str m w.label
  | .tctxt => str m w.id
  | .tinit => str m w.winsize ++ str m w.label
  | .rrdsnarf | .twrsnarf => str m w.snarf
  | .rrddraw | .twrdraw => be 4 w.count.toNat ++ slice m w.data w.count.toNat
  | .trddraw | .rwrdraw => be 4 w.count.toNat
  | .tresize =>
    be 4 (bits w.rect.min.x) ++ (be 4 (bits w.rect.min.y) ++ (be 4 (bits w.rect.max.x) ++
      be 4 (bits w.rect.max.y)))

/-- The bytes at the end of a message that its size counts and that are never stored. -/
def unstored : WsysType → Nat
  | .rrdmouse => 1
  | _ => 0

/-- The strings that a message type carries. -/
def Wsysmsg.strings (w : Wsysmsg) : WsysType → List Nat
  | .rerror => [w.error]
  | .tlabel => [w.label]
  | .tctxt => [w.id]
  | .tinit => [w.winsize, w.label]
  | .rrdsnarf | .twrsnarf => [w.snarf]
  | _ => []

/-- The counted data that a message type carries, as pointer and length. -/
def Wsysmsg.blobs (w : Wsysmsg) : WsysType → List (Nat × Nat)
  | .rrddraw | .twrdraw => [(w.data, w.count.toNat)]
  | _ => []

/-- A message whose strings and data lie in memory, apart from the range. -/
structure Wsysmsg.Valid (m : Mem) (w : Wsysmsg) (lo hi : Nat) (t : WsysType) : Prop where
  strings : ∀ s ∈ w.strings t, StrApart m lo hi s
  blobs : ∀ b ∈ w.blobs t, b.1 + b.2 ≤ m.length ∧ (b.1 + b.2 ≤ lo ∨ hi ≤ b.1)

/-- The size that the layout has, with no bound. -/
def Wsysmsg.wireSize (m : Mem) (w : Wsysmsg) (t : WsysType) : Nat :=
  6 + (w.body m t).length + unstored t

variable {w : Wsysmsg} {t : WsysType} {m₀ : Mem}

/-- The size of a message with strings is an `int`, that of the others an `uint`. -/
def Wsysmsg.Sized (m : Mem) (w : Wsysmsg) (t : WsysType) : Prop :=
  w.strings t ≠ [] → w.wireSize m t < 2 ^ 31

/-- The strings of a message are shorter than the message. -/
theorem Wsysmsg.length_string_le (hs : s ∈ w.strings t) :
    10 + (strBytes m s).length ≤ w.wireSize m t := by
  cases t <;> simp only [strings, List.mem_cons, List.not_mem_nil, or_false] at hs
  case tinit =>
    simp only [wireSize, body, str, List.length_append, length_be]
    obtain rfl | rfl := hs <;> omega
  all_goals
    subst hs
    simp only [wireSize, body, str, List.length_append, length_be]
    omega

theorem Wsysmsg.Sized.length_lt (h : w.Sized m t) (hs : s ∈ w.strings t) :
    (strBytes m s).length + 4 < 2 ^ 31 := by
  have := h (List.ne_nil_of_mem hs)
  have := w.length_string_le (m := m) hs
  omega

/-- `sizeW2M` is the size of the layout, unless it overflows. -/
theorem sizeW2M_eq_some (ht : w.type = t.code) (hv : w.Valid m lo hi t)
    (hsize : w.wireSize m t < 2 ^ 32) {k : Nat} :
    sizeW2M m w = some k ↔ w.Sized m t ∧ w.wireSize m t = k := by
  rw [sizeW2M, ht, WsysType.ofCode_code]
  cases t
  case rerror | tlabel | tctxt | rrdsnarf | twrsnarf =>
    simp only [Sized, strings, wireSize, body, unstored, List.length_append, length_be, str,
      stringsize, bind_eq_bind, bind_eq_some_iff, intValue_eq_some] at hsize ⊢
    constructor
    · rintro ⟨a, ⟨-, rfl⟩, h, rfl⟩
      exact ⟨fun _ => by omega, by omega⟩
    · rintro ⟨h, rfl⟩
      have := h (by simp)
      exact ⟨_, ⟨by omega, rfl⟩, by omega, by omega⟩
  case tinit =>
    simp only [Sized, strings, wireSize, body, unstored, List.length_append, length_be, str,
      stringsize, bind_eq_bind, bind_eq_some_iff, intValue_eq_some] at hsize ⊢
    constructor
    · rintro ⟨a, ⟨-, rfl⟩, b, ⟨-, rfl⟩, h, rfl⟩
      exact ⟨fun _ => by omega, by omega⟩
    · rintro ⟨h, rfl⟩
      have := h (by simp)
      exact ⟨_, ⟨by omega, rfl⟩, _, ⟨by omega, rfl⟩, by omega, by omega⟩
  case rrddraw | twrdraw =>
    have hblob := hv.blobs (w.data, w.count.toNat) (by simp [blobs])
    simp only [Sized, strings, wireSize, body, unstored, List.length_append, length_be,
      length_slice hblob.1, some.injEq] at hsize ⊢
    rw [mod_eq_of_lt (by omega), add_zero, ← add_assoc]
    simp
  all_goals
    simp [Sized, strings, wireSize, body, unstored]

/-- **The switch of `convW2M` stores the layout.** -/
theorem bodyW2M_eq (hv : w.Valid m p hi t) (hsized : w.Sized m t) (hmem : hi ≤ m.length)
    (hfit : p + w.wireSize m t ≤ hi) :
    bodyW2M m w p t = some (patch m (p + 6) (w.body m t)) := by
  rw [wireSize] at hfit
  cases t
  case rerror | tlabel | tctxt | rrdsnarf | twrsnarf =>
    simp only [body, str, List.length_append, length_be] at hfit
    rw [bodyW2M, PUTSTRING_eq (hv.strings _ (by simp [strings]))
      (hsized.length_lt (by simp [strings])) (by omega) (by omega)]
    rfl
  case tinit =>
    simp only [body, str, List.length_append, length_be] at hfit
    have hw := hv.strings w.winsize (by simp [strings])
    have hl := hv.strings w.label (by simp [strings])
    have hwlen := hsized.length_lt (s := w.winsize) (by simp [strings])
    have hllen := hsized.length_lt (s := w.label) (by simp [strings])
    -- the first string is in the buffer when the second is read
    obtain ⟨hl', heq⟩ := hl.patch (p + 6) (str m w.winsize) (by omega)
      (by simp only [str, List.length_append, length_be]; omega)
    have hstr : str (patch m (p + 6) (str m w.winsize)) w.label = str m w.label := by
      rw [str, heq]
      rfl
    simp only [bodyW2M, PUTSTRING_eq hw hwlen (show p ≤ p + 6 by omega) (by omega), bind_eq_bind,
      bind_some]
    rw [PUTSTRING_eq hl' (heq ▸ hllen) (by omega) (by omega), hstr, heq, bind_some, pure_def,
      patch_patch_next _ _ (by simp only [str, List.length_append, length_be]; omega)]
    rfl
  case rrdmouse =>
    simp only [body, List.length_append, length_be, unstored, List.length_cons,
      List.length_nil] at hfit
    simp only [bodyW2M, PUT_eq]
    -- the last store falls into the one before
    rw [show p + 19 = p + 18 + 1 from rfl,
      patch_patch_inside (by simp only [length_patch, length_be]; omega) (by simp),
      patch_patch_next _ _ (by simp), patch_patch_next _ _ (by simp),
      patch_patch_next _ _ (by simp), be_four w.mouse.msec.toNat]
    rfl
  case rrddraw | twrdraw =>
    obtain ⟨hin, hd⟩ := hv.blobs (w.data, w.count.toNat) (by simp [blobs])
    simp only [body, List.length_append, length_be] at hfit
    simp only [bodyW2M, PUT_eq, memmove, body]
    rw [slice_patch_of_disjoint (by simp only [length_be]; omega), patch_patch_next _ _ (by simp)]
  all_goals
    simp only [bodyW2M, body, PUT_eq, PUT2_eq, patch_nil]
  all_goals
    repeat rw [patch_patch_next _ _ (by simp)]

/-- A store in the range leaves the message alone. -/
theorem Wsysmsg.Valid.patch (hv : w.Valid m lo hi t) (p : Nat) (xs : List UInt8) (hp : lo ≤ p)
    (hxs : p + xs.length ≤ hi) :
    w.Valid (Memory.patch m p xs) lo hi t ∧ w.body (Memory.patch m p xs) t = w.body m t := by
  refine ⟨⟨fun s hs => ((hv.strings s hs).patch p xs hp hxs).1, fun b hb => ?_⟩, ?_⟩
  · rw [length_patch]
    exact hv.blobs b hb
  have hstr : ∀ s ∈ w.strings t, str (Memory.patch m p xs) s = str m s := fun s hs => by
    rw [str, ((hv.strings s hs).patch p xs hp hxs).2]
    rfl
  have hblob : ∀ b ∈ w.blobs t, slice (Memory.patch m p xs) b.1 b.2 = slice m b.1 b.2 :=
    fun b hb => by
      have := (hv.blobs b hb).2
      exact slice_patch_of_disjoint (by omega)
  cases t <;> simp_all [Wsysmsg.body, Wsysmsg.strings, Wsysmsg.blobs]

/-- The size, the tag and the type. -/
def Wsysmsg.header (w : Wsysmsg) (size : Nat) : List UInt8 :=
  be 4 size ++ ([w.tag] ++ [w.type])

theorem Wsysmsg.length_header (w : Wsysmsg) (size : Nat) : (w.header size).length = 6 := by
  simp [header]

/-- **Packing**: a message that fits is stored behind its header, and its size is returned. -/
theorem convW2M_eq (ht : w.type = t.code) (hv : w.Valid m p (p + n) t) (hmem : p + n ≤ m.length)
    (hn : w.wireSize m t ≤ n) (hsize : w.wireSize m t < 2 ^ 32) (hsized : w.Sized m t) :
    convW2M m w p n =
      some (w.wireSize m t, patch m p (w.header (w.wireSize m t) ++ w.body m t)) := by
  have hnn := (sizeW2M_eq_some ht hv hsize).mpr ⟨hsized, rfl⟩
  have hsix : 6 ≤ w.wireSize m t := by
    rw [wireSize]
    omega
  have hlen := w.length_header (w.wireSize m t)
  obtain ⟨hv', hbody⟩ := hv.patch p (w.header (w.wireSize m t)) le_rfl (by omega)
  have hrun : bodyW2M (patch m p (w.header (w.wireSize m t))) w p t =
      some (patch (patch m p (w.header (w.wireSize m t))) (p + 6) (w.body m t)) := by
    have hsame : w.wireSize (patch m p (w.header (w.wireSize m t))) t = w.wireSize m t := by
      rw [wireSize, hbody, ← wireSize]
    rw [← hbody]
    apply bodyW2M_eq hv'
    · intro hs
      rw [hsame]
      exact hsized hs
    · rw [length_patch]
      exact hmem
    · rw [hsame]
      omega
  rw [convW2M, hnn, bind_eq_bind, bind_some, if_neg (by omega)]
  simp only [PUT_eq]
  rw [patch_patch_next _ _ (by simp), patch_patch_next _ _ (by simp), ← header, ht,
    WsysType.ofCode_code]
  simp only [hrun, map_some]
  rw [patch_patch_next _ _ (by rw [hlen])]

/-! ## What is read back -/

/-- The message that the bytes of `w` stand for: `int`s and runes cut to the bytes they are given,
and in `Rrdmouse` the milliseconds with `resized` over their second byte. -/
def Wsysmsg.carried (w : Wsysmsg) : WsysType → Wsysmsg
  | .rrdmouse =>
    { w with
      mouse.msec := .ofNat (ofBe [.ofNat (w.mouse.msec.toNat >>> 24), toUchar w.resized,
        .ofNat (w.mouse.msec.toNat >>> 8), .ofNat w.mouse.msec.toNat])
      resized := toInt (toUchar w.resized).toNat }
  | .tcursor | .tcursor2 => { w with arrowcursor := toInt (toUchar w.arrowcursor).toNat }
  | .rrdkbd => { w with rune := .ofNat (w.rune.toNat % 2 ^ 16) }
  | _ => w

/-- The messages `w`, with strings and data in `m`, and `w'`, with strings and data in `m'`, agree
on the fields that the type `t` carries. A missing string counts as an empty one. -/
def Wsysmsg.Same (m : Mem) (w : Wsysmsg) (m' : Mem) (w' : Wsysmsg) (t : WsysType) : Prop :=
  w.type = w'.type ∧ w.tag = w'.tag ∧
  match t with
  | .trdmouse | .rbouncemouse | .rmoveto | .rcursor | .rcursor2 | .trdkbd | .trdkbd4 | .rlabel
  | .rctxt | .rinit | .trdsnarf | .rwrsnarf | .ttop | .rtop | .rresize => True
  | .rerror => strBytes m w.error = strBytes m' w'.error
  | .rrdmouse => w.mouse = w'.mouse ∧ w.resized = w'.resized
  | .tbouncemouse => w.mouse.xy = w'.mouse.xy ∧ w.mouse.buttons = w'.mouse.buttons
  | .tmoveto => w.mouse.xy = w'.mouse.xy
  | .tcursor => w.cursor = w'.cursor ∧ w.arrowcursor = w'.arrowcursor
  | .tcursor2 =>
    w.cursor = w'.cursor ∧ w.cursor2 = w'.cursor2 ∧ w.arrowcursor = w'.arrowcursor
  | .rrdkbd | .rrdkbd4 => w.rune = w'.rune
  | .tlabel => strBytes m w.label = strBytes m' w'.label
  | .tctxt => strBytes m w.id = strBytes m' w'.id
  | .tinit =>
    strBytes m w.winsize = strBytes m' w'.winsize ∧ strBytes m w.label = strBytes m' w'.label
  | .rrdsnarf | .twrsnarf => strBytes m w.snarf = strBytes m' w'.snarf
  | .rrddraw | .twrdraw =>
    w.count = w'.count ∧ slice m w.data w.count.toNat = slice m' w'.data w'.count.toNat
  | .trddraw | .rwrdraw => w.count = w'.count
  | .tresize => w.rect = w'.rect

/-- **The switch of `convM2W` reads the carried message.** -/
theorem bodyM2W_run (w0 : Wsysmsg) (hv : w.Valid m₀ lo hi t) (hsized : w.Sized m₀ t)
    (htype : w0.type = w.type) (htag : w0.tag = w.tag)
    (h : slice m (p + 6) (w.body m₀ t).length = w.body m₀ t) :
    ∃ w' m', bodyM2W m p w0 t = some (w', m') ∧ Same m₀ (w.carried t) m' w' t := by
  -- a string that starts at `q` is left there
  have hstring : ∀ s ∈ w.strings t, ∀ (m : Mem) (q : Nat),
      slice m q (str m₀ s).length = str m₀ s →
      GETSTRING m q = some ((strBytes m₀ s).length + 4, q, patch m q (strBytes m₀ s ++ [0])) ∧
      CStr (patch m q (strBytes m₀ s ++ [0])) q (strBytes m₀ s) := by
    intro s hs m q hslice
    have hstr := hv.strings s hs
    have hin := le_length_of_slice hslice (by simp [str])
    refine ⟨GETSTRING_eq (hsized.length_lt hs) hslice, cstr_patch hstr.nul_free ?_⟩
    simp only [str, List.length_append, length_be] at hin
    omega
  have hp : p + 6 ≠ nil := by
    simp [nil]
  cases t
  case rerror | tlabel | tctxt | rrdsnarf | twrsnarf =>
    obtain ⟨hget, hread⟩ := hstring _ (by simp [strings]) m (p + 6) h
    refine ⟨_, _, by rw [bodyM2W, hget]; rfl, ?_⟩
    exact ⟨htype.symm, htag.symm, (hread.strBytes_eq hp).symm⟩
  case tinit =>
    obtain ⟨h1, h2⟩ := slice_append_iff.mp h
    obtain ⟨hget1, hread1⟩ := hstring w.winsize (by simp [strings]) m (p + 6) h1
    have hq : p + 6 + (str m₀ w.winsize).length = p + 6 + ((strBytes m₀ w.winsize).length + 4) := by
      simp only [str, List.length_append, length_be]
      omega
    rw [hq] at h2
    -- the first string moves down and keeps clear of the second
    have hclear : p + 6 + (strBytes m₀ w.winsize ++ [0]).length ≤
        p + 6 + ((strBytes m₀ w.winsize).length + 4) := by
      simp only [List.length_append, List.length_singleton]
      omega
    rw [← slice_patch_of_disjoint (.inr hclear)] at h2
    obtain ⟨hget2, hread2⟩ := hstring w.label (by simp [strings]) _ _ h2
    refine ⟨_, _, by
      simp only [bodyM2W, hget1, bind_eq_bind, bind_some, hget2, pure_def]
      rfl, ?_⟩
    refine ⟨htype.symm, htag.symm, ?_, (hread2.strBytes_eq (by simp [nil])).symm⟩
    exact ((hread1.patch (.inl (by omega))).strBytes_eq hp).symm
  case rrddraw | twrdraw =>
    have hblob := hv.blobs (w.data, w.count.toNat) (by simp [blobs])
    simp only [body, slice_append_iff, length_be, length_slice hblob.1, add_assoc, reduceAdd] at h
    obtain ⟨hn, hdata⟩ := h
    refine ⟨_, _, rfl, htype.symm, htag.symm, (ofNat_GET hn).symm, ?_⟩
    simp only [ofNat_GET hn]
    exact hdata.symm
  all_goals
    simp only [body, slice_append_iff, length_be, Vector.length_toList, add_assoc, reduceAdd,
      reduceMul] at h
  case rrdmouse =>
    obtain ⟨hx, hy, hb, hmsec⟩ := h
    have hres := byte_of_slice (i := 1) hmsec rfl
    refine ⟨_, _, rfl, htype.symm, htag.symm, ?_, ?_⟩
    · simp only [carried, toInt_GET hx, toInt_GET hy, toInt_GET hb, GET_eq hmsec]
    · exact (congrArg toInt hres).symm
  case tbouncemouse =>
    obtain ⟨hx, hy, hb⟩ := h
    exact ⟨_, _, rfl, htype.symm, htag.symm, by simp only [toInt_GET hx, toInt_GET hy]; rfl,
      (toInt_GET hb).symm⟩
  case tmoveto =>
    obtain ⟨hx, hy⟩ := h
    exact ⟨_, _, rfl, htype.symm, htag.symm, by simp only [toInt_GET hx, toInt_GET hy]; rfl⟩
  case tcursor =>
    obtain ⟨hx, hy, hclr, hset, harrow⟩ := h
    have harrow := byte_of_slice (i := 0) harrow rfl
    refine ⟨_, _, rfl, htype.symm, htag.symm, ?_, (congrArg toInt harrow).symm⟩
    simp only [toInt_GET hx, toInt_GET hy, getBytes_of_slice hclr, getBytes_of_slice hset]
    rfl
  case tcursor2 =>
    obtain ⟨hx, hy, hclr, hset, hx2, hy2, hclr2, hset2, harrow⟩ := h
    have harrow := byte_of_slice (i := 0) harrow rfl
    refine ⟨_, _, rfl, htype.symm, htag.symm, ?_, ?_, (congrArg toInt harrow).symm⟩
    · simp only [toInt_GET hx, toInt_GET hy, getBytes_of_slice hclr, getBytes_of_slice hset]
      rfl
    · simp only [toInt_GET hx2, toInt_GET hy2, getBytes_of_slice hclr2, getBytes_of_slice hset2]
      rfl
  case rrdkbd =>
    exact ⟨_, _, rfl, htype.symm, htag.symm, congrArg UInt32.ofNat (GET2_of_slice h).symm⟩
  case rrdkbd4 =>
    exact ⟨_, _, rfl, htype.symm, htag.symm, (ofNat_GET h).symm⟩
  case trddraw | rwrdraw =>
    exact ⟨_, _, rfl, htype.symm, htag.symm, (ofNat_GET h).symm⟩
  case tresize =>
    obtain ⟨hx, hy, hx', hy'⟩ := h
    refine ⟨_, _, rfl, htype.symm, htag.symm, ?_⟩
    simp only [toInt_GET hx, toInt_GET hy, toInt_GET hx', toInt_GET hy']
    rfl
  all_goals exact ⟨_, _, rfl, htype.symm, htag.symm, trivial⟩

/-- **Unpacking**: the bytes of a packed message are read back as the message they carry. -/
theorem convM2W_run (ht : w.type = t.code) (hv : w.Valid m₀ lo hi t)
    (hsize : w.wireSize m₀ t < 2 ^ 32) (hsized : w.Sized m₀ t)
    (h : slice m p (w.header (w.wireSize m₀ t) ++ w.body m₀ t).length =
      w.header (w.wireSize m₀ t) ++ w.body m₀ t) (w0 : Wsysmsg) :
    ∃ w' m', convM2W m p (w.wireSize m₀ t) w0 = some (w.wireSize m₀ t, w', m') ∧
      Same m₀ (w.carried t) m' w' t := by
  have hsix : 6 ≤ w.wireSize m₀ t := by
    rw [wireSize]
    omega
  obtain ⟨hhead, hbody⟩ := slice_append_iff.mp h
  rw [length_header] at hbody
  simp only [header, slice_append_iff, length_be, add_assoc] at hhead
  obtain ⟨hnn, htag, htype⟩ := hhead
  have htag := byte_of_slice (i := 0) htag rfl
  have htype := byte_of_slice (i := 0) htype rfl
  have hget : GET m p = w.wireSize m₀ t := by
    rw [GET_of_slice hnn, mod_eq_of_lt hsize]
  obtain ⟨w', m', hrun, hsame⟩ := bodyM2W_run
    { w0 with tag := .ofNat (byte m (p + 4)), type := .ofNat (byte m (p + 5)) } hv hsized
    (by simp [show byte m (p + 5) = _ from htype]) (by simp [show byte m (p + 4) = _ from htag])
    hbody
  refine ⟨w', m', ?_, hsame⟩
  have hcode : WsysType.ofCode (.ofNat (byte m (p + 5))) = some t := by
    rw [show byte m (p + 5) = _ from htype, UInt8.ofNat_toNat, ht, WsysType.ofCode_code]
  rw [convM2W, if_neg (by omega), hget, if_neg (by omega)]
  simp only [hcode, hrun, map_some]

/-! ## The round trip -/

/-- The bytes of `w` can hold what it says: `resized`, `arrowcursor` and the milliseconds fit, the
rune of an `Rrdkbd` is one of the first `2 ^ 16`, and the byte of the milliseconds under `resized`
is `resized`. -/
def Wsysmsg.Holds (w : Wsysmsg) : WsysType → Prop
  | .rrdmouse =>
    bits w.resized < 2 ^ 8 ∧ w.mouse.msec.toNat < 2 ^ 32 ∧
      w.mouse.msec.toNat / 2 ^ 16 % 2 ^ 8 = bits w.resized
  | .tcursor | .tcursor2 => bits w.arrowcursor < 2 ^ 8
  | .rrdkbd => w.rune.toNat < 2 ^ 16
  | _ => True

theorem toInt_toUchar {x : Int32} (h : bits x < 2 ^ 8) : toInt (toUchar x).toNat = x := by
  rw [toUchar, UInt8.toNat_ofNat_of_lt' h, toInt_bits]

theorem Wsysmsg.carried_eq_self (h : w.Holds t) : w.carried t = w := by
  cases t
  case rrdmouse =>
    obtain ⟨hres, hmsec, hbyte⟩ := h
    -- the byte stored over the milliseconds is the one that was there
    have hsame : toUchar w.resized = .ofNat (w.mouse.msec.toNat >>> 16) := by
      rw [toUchar, ← hbyte, shiftRight_eq_div_pow]
      apply UInt8.toNat_inj.mp
      simp
    rw [carried, toInt_toUchar hres, hsame, ← be_four, ofBe_be,
      mod_eq_of_lt (show _ < 256 ^ 4 from hmsec), UInt64.ofNat_toNat]
  case tcursor | tcursor2 => rw [carried, toInt_toUchar h]
  case rrdkbd => rw [carried, mod_eq_of_lt h, UInt32.ofNat_toNat]
  all_goals rfl

theorem bits_toInt {v : Nat} (h : v < 2 ^ 32) : bits (toInt v) = v := by
  rw [bits, toInt, UInt32.toUInt32_toInt32, UInt32.toNat_ofNat_of_lt' h]

theorem bits_of_toInt {x : Int32} (h : toInt (toUchar x).toNat = x) :
    bits x = (toUchar x).toNat := by
  conv_lhs => rw [← h]
  exact bits_toInt (lt_trans (toUchar x).toNat_lt (by decide))

/-- A message that agrees with what it is read back as is held by its bytes. -/
theorem Wsysmsg.holds_of_same {m' : Mem} {w' : Wsysmsg} (h : Same m w m' w' t)
    (h' : Same m (w.carried t) m' w' t) : w.Holds t := by
  have hbyte : ∀ {x : Int32}, toInt (toUchar x).toNat = x → bits x < 2 ^ 8 := fun hx =>
    bits_of_toInt hx ▸ (toUchar _).toNat_lt
  cases t
  case rrdmouse =>
    obtain ⟨-, -, hmouse, hres⟩ := h
    obtain ⟨-, -, hmouse', hres'⟩ := h'
    have hres := hres'.trans hres.symm
    have hmsec := congrArg (fun x => x.msec.toNat) (hmouse'.trans hmouse.symm)
    simp only [carried] at hmsec hres
    have hb := bits_of_toInt hres
    -- the value of the four bytes, with `resized` as the second
    generalize UInt8.ofNat (w.mouse.msec.toNat >>> 24) = a at hmsec
    generalize UInt8.ofNat (w.mouse.msec.toNat >>> 8) = c at hmsec
    generalize UInt8.ofNat w.mouse.msec.toNat = d at hmsec
    have hlt : ofLe [d, c, toUchar w.resized, a] < 256 ^ 4 := ofLe_lt _
    simp only [ofBe, List.reverse_cons, List.reverse_nil, List.nil_append, List.cons_append]
      at hmsec
    rw [UInt64.toNat_ofNat_of_lt' (lt_trans hlt (by decide))] at hmsec
    simp only [ofLe] at hmsec hlt
    have := d.toNat_lt
    have := c.toNat_lt
    have := (toUchar w.resized).toNat_lt
    exact ⟨hbyte hres, by omega, by omega⟩
  case tcursor => exact hbyte (h'.2.2.2.trans h.2.2.2.symm)
  case tcursor2 => exact hbyte (h'.2.2.2.2.trans h.2.2.2.2.symm)
  case rrdkbd =>
    have hrune := congrArg UInt32.toNat (h'.2.2.trans h.2.2.symm)
    simp only [carried, UInt32.toNat_ofNat'] at hrune
    rw [Holds]
    omega
  all_goals trivial

/-- **Window system messages round-trip** through a buffer that is large enough exactly if their
bytes can hold them and the size of their strings does not overflow: packing returns the size, and
unpacking exactly those bytes returns it again, with a message that agrees on every field of the
type. -/
theorem wsysmsg_roundTrip {m : Mem} {w : Wsysmsg} {p n : Nat} {t : WsysType}
    (ht : w.type = t.code) (hmem : p + n ≤ m.length) (hv : w.Valid m p (p + n) t)
    (hn : w.wireSize m t ≤ n) (huint : n < 2 ^ 32) (w₀ : Wsysmsg) :
    (∃ k m' w' m'', sizeW2M m w = some k ∧ convW2M m w p n = some (k, m') ∧
      convM2W m' p k w₀ = some (k, w', m'') ∧ Wsysmsg.Same m w m'' w' t) ↔
      w.Holds t ∧ w.Sized m t := by
  have hsize : w.wireSize m t < 2 ^ 32 := hn.trans_lt huint
  have hlen : (w.header (w.wireSize m t) ++ w.body m t).length ≤ w.wireSize m t := by
    rw [List.length_append, length_header, wireSize]
    omega
  have hstored := slice_patch_self
    (show p + (w.header (w.wireSize m t) ++ w.body m t).length ≤ m.length by omega)
  constructor
  · rintro ⟨k, m', w', m'', hk, hpack, hunpack, hsame⟩
    obtain ⟨hsized, rfl⟩ := (sizeW2M_eq_some ht hv hsize).mp hk
    obtain ⟨w₁, m₁, hrun, hcarried⟩ := convM2W_run ht hv hsize hsized hstored w₀
    obtain rfl : patch m p _ = m' := (Prod.ext_iff.mp (some.inj
      ((convW2M_eq ht hv hmem hn hsize hsized).symm.trans hpack))).2
    obtain ⟨rfl, rfl⟩ : w₁ = w' ∧ m₁ = m'' := by
      simpa using hrun.symm.trans hunpack
    exact ⟨holds_of_same hsame hcarried, hsized⟩
  · rintro ⟨hw, hsized⟩
    obtain ⟨w', m'', hrun, hsame⟩ := convM2W_run ht hv hsize hsized hstored w₀
    rw [carried_eq_self hw] at hsame
    exact ⟨_, _, w', m'', (sizeW2M_eq_some ht hv hsize).mpr ⟨hsized, rfl⟩,
      convW2M_eq ht hv hmem hn hsize hsized, hrun, hsame⟩

/-- A window is opened with a size and a label, and the mouse at rest is reported. -/
def initMem : Mem := List.replicate 64 0 ++ [56, 48, 120, 50, 0, 115, 97, 109, 0]

/-- A message for an example. -/
def initMsg : Wsysmsg :=
  { (default : Wsysmsg) with type := WsysType.tinit.code, tag := 7, winsize := 64, label := 69 }

theorem wsysmsg_roundTrip_init :
    ∃ k m' w' m'', sizeW2M initMem initMsg = some k ∧
      convW2M initMem initMsg 8 32 = some (k, m') ∧ convM2W m' 8 k default = some (k, w', m'') ∧
      Wsysmsg.Same initMem initMsg m'' w' .tinit := by
  refine (wsysmsg_roundTrip (t := .tinit) rfl (by decide) ⟨?_, ?_⟩ (by decide) (by decide)
    default).mpr ⟨trivial, fun _ => by decide⟩
  · intro s hs
    simp only [strings, initMsg, List.mem_cons, List.not_mem_nil, or_false] at hs
    obtain rfl | rfl := hs
    · exact .inr ⟨[56, 48, 120, 50], ⟨by decide, by decide⟩, by decide⟩
    · exact .inr ⟨[115, 97, 109], ⟨by decide, by decide⟩, by decide⟩
  · simp [blobs]

/-- A report of the mouse after a resize, at time 0. -/
def resizedMsg : Wsysmsg :=
  { (default : Wsysmsg) with type := WsysType.rrdmouse.code, resized := 1 }

/-- **The stores of `Rrdmouse` overlap**: the report is packed and unpacked with its size, and
arrives with the time 65536. -/
theorem rrdmouse_msec_overwritten :
    resizedMsg.Valid (List.replicate 32 0) 8 32 .rrdmouse ∧
    resizedMsg.mouse.msec = 0 ∧ sizeW2M (List.replicate 32 0) resizedMsg = some 23 ∧
    ((convW2M (List.replicate 32 0) resizedMsg 8 24).bind fun r =>
      (convM2W r.2 8 r.1 default).map fun r' =>
        (r.1, r'.1, r'.2.1.resized, r'.2.1.mouse.msec)) = some (23, 23, 1, 65536) := by
  refine ⟨⟨?_, ?_⟩, by decide, by decide, by decide⟩
  · simp [strings]
  · simp [blobs]

end Plan9Port.Draw
