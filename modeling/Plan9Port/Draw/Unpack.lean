import Plan9Port.Draw.RoundTrip

/-!
# Window system messages from anywhere

`convM2W` on bytes that nobody packed. It compares the size that a message declares with the number
of bytes there are, and with nothing else: the fields of the type are read where they would be, the
lengths of strings are taken as they come, and the size returned is the declared one. `extent` is
what the fields take, `reach` what is read of them, which is less where the last byte is not read or
the data is not looked at.
-/

namespace Plan9Port.Draw

open Memory LittleEndian Wsysmsg Option Nat
open Ninep (Mem nil byte cstring strlen memmove CStr strBytes)

variable {p i n : Nat} {m : Mem} {bs bs' : List UInt8} {t : WsysType} {w w' : Wsysmsg}

/-! ## Fields and strings -/

/-- The bytes that the fields of a message take, with the lengths and counts that they give. -/
def extent (bs : List UInt8) : WsysType → Nat
  | .rrdmouse => 23
  | .tbouncemouse => 18
  | .tmoveto => 14
  | .tcursor => 79
  | .tcursor2 => 343
  | .rrdkbd => 8
  | .rrdkbd4 | .trddraw | .rwrdraw => 10
  | .rerror | .tlabel | .tctxt | .rrdsnarf | .twrsnarf | .rrddraw | .twrdraw => 10 + GET bs 6
  | .tinit => 14 + GET bs 6 + GET bs (10 + GET bs 6)
  | .tresize => 22
  | _ => 6

/-- The bytes that are read: the last byte of `Rrdmouse` is not, nor is the data of a drawing. -/
def reach (bs : List UInt8) : WsysType → Nat
  | .rrdmouse => 22
  | .rrddraw | .twrdraw => 10
  | t => extent bs t

/-- Where the strings of a message start, with the length of each. -/
def stringsAt (bs : List UInt8) : WsysType → List Nat
  | .rerror | .tlabel | .tctxt | .rrdsnarf | .twrsnarf => [6]
  | .tinit => [6, 10 + GET bs 6]
  | _ => []

theorem reach_le_extent (bs : List UInt8) (t : WsysType) : reach bs t ≤ extent bs t := by
  cases t <;> simp [reach, extent]

/-- The bytes with the string at `i` moved down over its length and terminated. -/
def moved (bs : List UInt8) (i : Nat) : List UInt8 :=
  patch bs i (slice bs (i + 4) (GET bs i) ++ [0])

theorem length_moved (bs : List UInt8) (i : Nat) : (moved bs i).length = bs.length :=
  length_patch _ _ _

theorem GET_patch {xs : List UInt8} (h : p + xs.length ≤ i) : GET (patch m p xs) i = GET m i := by
  simp (disch := omega) only [GET, byte, getElem?_patch_of_disjoint]

/-- The length of a second string is behind the first string. -/
theorem GET_moved (h : i + 4 + GET bs i ≤ bs.length) :
    GET (moved bs i) (i + 4 + GET bs i) = GET bs (i + 4 + GET bs i) :=
  GET_patch (by rw [List.length_append, length_slice h, List.length_singleton]; omega)

theorem byte_lt (m : Mem) (p : Nat) : byte m p < 256 :=
  (m[p]?.getD 0).toNat_lt

theorem GET_eq_ofLe (m : Mem) (p : Nat) :
    GET m p = ofLe [m[p + 3]?.getD 0, m[p + 2]?.getD 0, m[p + 1]?.getD 0, m[p]?.getD 0] :=
  (ofBe_four _ _ _ _).symm

theorem GET_lt (m : Mem) (p : Nat) : GET m p < 256 ^ 4 := by
  rw [GET_eq_ofLe]
  exact ofLe_lt _

theorem GET_mod (m : Mem) (p : Nat) : GET m p % 256 = byte m (p + 3) := by
  have := byte_lt m (p + 3)
  rw [GET_eq_ofLe, ofLe, Nat.add_mul_mod_self_left]
  exact mod_eq_of_lt this

theorem toNat_ofNat_GET (m : Mem) (p : Nat) :
    (UInt32.ofNat (GET m p)).toNat % 256 = byte m (p + 3) := by
  rw [UInt32.toNat_ofNat_of_lt' (GET_lt m p), GET_mod]

theorem toNat_ofNat_GET2 (m : Mem) (p : Nat) :
    (UInt32.ofNat (GET2 m p)).toNat % 256 = byte m (p + 1) := by
  have hget : GET2 m p = ofLe [m[p + 1]?.getD 0, m[p]?.getD 0] := (ofBe_two _ _).symm
  have hlt : ofLe [m[p + 1]?.getD 0, m[p]?.getD 0] < 256 ^ 2 := ofLe_lt _
  have := byte_lt m (p + 1)
  rw [hget, UInt32.toNat_ofNat_of_lt' (hlt.trans (by decide)), ofLe, Nat.add_mul_mod_self_left]
  exact mod_eq_of_lt this

/-- What a `GETSTRING` that returns has done. -/
theorem GETSTRING_eq_some {q k s : Nat} {m' : Mem} (h : GETSTRING m q = some (k, s, m')) :
    GET m q + 4 < 2 ^ 31 ∧ k = GET m q + 4 ∧
      m' = patch (memmove m q (q + 4) (GET m q)) (q + GET m q) [0] := by
  rw [GETSTRING, bind_eq_bind, bind_eq_some_iff] at h
  obtain ⟨size, hsize, h⟩ := h
  obtain ⟨hlt, rfl⟩ := intValue_eq_some.mp hsize
  simp only [pure_def, some.injEq, Prod.mk.injEq] at h
  exact ⟨hlt, h.1.symm, h.2.2.symm⟩

/-- The string is moved down by four cells, and then terminated. -/
theorem GETSTRING_cells {q k s : Nat} {m' : Mem} (h : GETSTRING m q = some (k, s, m'))
    (hin : q + 4 + GET m q ≤ m.length) :
    m'[q + GET m q]? = some 0 ∧ ∀ j < GET m q, m'[q + j]? = m[q + 4 + j]? := by
  obtain ⟨-, -, rfl⟩ := GETSTRING_eq_some h
  have hlen := length_slice hin
  rw [memmove, patch_patch_next _ _ (by rw [hlen])]
  have hcell : ∀ j ≤ GET m q, (patch m q (slice m (q + 4) (GET m q) ++ [0]))[q + j]? =
      (slice m (q + 4) (GET m q) ++ [0])[j]? := fun j hj => by
    rw [getElem?_patch, if_pos, Nat.add_sub_cancel_left]
    simp only [List.length_append, hlen, List.length_singleton]
    omega
  constructor
  · rw [hcell _ le_rfl, List.getElem?_append_right hlen.le, hlen, Nat.sub_self]
    rfl
  · intro j hj
    rw [hcell j hj.le, List.getElem?_append_left (hlen.symm ▸ hj), getElem?_slice, if_pos hj]

section

variable (h : slice m p bs.length = bs)
include h

theorem byte_bytes (hi : i < bs.length) : byte m (p + i) = byte bs i := by
  rw [byte, byte, slice_eq_iff.mp h i hi]

theorem GET_bytes (hi : i + 4 ≤ bs.length) : GET m (p + i) = GET bs i := by
  simp (disch := omega) only [GET, add_assoc, byte_bytes h]

theorem GET2_bytes (hi : i + 2 ≤ bs.length) : GET2 m (p + i) = GET2 bs i := by
  simp (disch := omega) only [GET2, add_assoc, byte_bytes h]

theorem getBytes_bytes (hi : i + n ≤ bs.length) : getBytes m (p + i) n = getBytes bs i n := by
  ext j hj
  simp only [getBytes, Vector.getElem_ofFn, add_assoc, slice_eq_iff.mp h (i + j) (by omega)]

/-- A string that lies in the range is moved down inside it. -/
theorem GETSTRING_bytes (hlen : GET bs i + 4 < 2 ^ 31) (hi : i + 4 + GET bs i ≤ bs.length) :
    GETSTRING m (p + i) = some (GET bs i + 4, p + i, patch m p (moved bs i)) := by
  have hstr : (slice bs (i + 4) (GET bs i)).length = GET bs i := length_slice hi
  have hread : slice m (p + i + 4) (GET bs i) = slice bs (i + 4) (GET bs i) := by
    rw [add_assoc, ← slice_slice m hi, h]
  rw [GETSTRING, GET_bytes h (by omega), intValue_eq_some.mpr ⟨hlen, rfl⟩]
  simp only [bind_eq_bind, bind_some, pure_def, memmove, hread, moved]
  rw [patch_patch_next _ _ (by rw [hstr]), ← patch_patch_inside (le_length_of_slice h (by omega))
    (by simp only [List.length_append, hstr, List.length_singleton]; omega), patch_eq_self h]

end

/-- **The switch of `convM2W` stays in the range** if what it reads does. -/
theorem bodyM2W_within (ht : reach bs t ≤ bs.length)
    (hstr : ∀ i ∈ stringsAt bs t, GET bs i + 4 < 2 ^ 31) (p : Nat) (w : Wsysmsg) :
    ∃ w' bs', bs'.length = bs.length ∧
      ∀ m, slice m p bs.length = bs → bodyM2W m p w t = some (w', patch m p bs') := by
  cases t <;> simp only [reach, extent] at ht
  case rerror | tlabel | tctxt | rrdsnarf | twrsnarf =>
    exact ⟨_, moved bs 6, length_moved _ _, fun m h => by
      rw [bodyM2W, GETSTRING_bytes h (hstr 6 (by simp [stringsAt])) ht]
      rfl⟩
  case tinit =>
    have hlen1 := length_moved bs 6
    have hstr1 := hstr 6 (by simp [stringsAt])
    have hstr2 := hstr (10 + GET bs 6) (by simp [stringsAt])
    have hget : GET (moved bs 6) (10 + GET bs 6) = GET bs (10 + GET bs 6) :=
      GET_moved (i := 6) (by omega)
    refine ⟨{ w with winsize := p + 6, label := p + (10 + GET bs 6) },
      moved (moved bs 6) (10 + GET bs 6), (length_moved _ _).trans hlen1, fun m h => ?_⟩
    have h1 : slice (patch m p (moved bs 6)) p (moved bs 6).length = moved bs 6 :=
      slice_patch_self (hlen1 ▸ le_length_of_slice h (by omega))
    have hsecond := GETSTRING_bytes (i := 10 + GET bs 6) h1 (by omega) (by omega)
    simp only [bodyM2W, GETSTRING_bytes h hstr1 (i := 6) (by omega), bind_eq_bind, bind_some]
    rw [show p + 6 + (GET bs 6 + 4) = p + (10 + GET bs 6) by omega, hsecond,
      patch_patch_self _ _ (length_moved _ _).ge]
    rfl
  all_goals
    exact ⟨_, bs, rfl, fun m h => by
      simp (disch := omega) only [patch_eq_self h, bodyM2W, GET_bytes h, GET2_bytes h, byte_bytes h,
        getBytes_bytes h]
      rfl⟩

/-! ## What staying inside takes -/

/-- A memory with `bs` at `p` and nothing but `c` behind it, further than any string reaches. -/
def around (p : Nat) (bs : List UInt8) (c : UInt8) : Mem :=
  List.replicate p 0 ++ (bs ++ List.replicate (2 ^ 33) c)

theorem getElem?_around {j : Nat} (c : UInt8) (hj : bs.length ≤ j) (hj' : j < bs.length + 2 ^ 33) :
    (around p bs c)[p + j]? = some c := by
  rw [around, List.getElem?_append_right (by simp), List.length_replicate, Nat.add_sub_cancel_left,
    List.getElem?_append_right hj, List.getElem?_replicate, if_pos (by omega)]

theorem slice_around (p : Nat) (bs : List UInt8) (c : UInt8) :
    slice (around p bs c) p bs.length = bs := by
  rw [slice_eq_iff]
  intro j hj
  rw [around, List.getElem?_append_right (by simp), List.length_replicate, Nat.add_sub_cancel_left,
    List.getElem?_append_left hj]

theorem length_around (p : Nat) (bs : List UInt8) (c : UInt8) :
    (around p bs c).length = p + (bs.length + 2 ^ 33) := by
  simp only [around, List.length_append, List.length_replicate]

/-- **A string that is unpacked inside the bytes lies in them**: the terminator would be stored
behind them, or a byte from behind moved into them. -/
theorem GETSTRING_inside (hi : i ≤ bs.length) (hbs' : bs'.length = bs.length)
    (h : ∀ m, slice m p bs.length = bs → ∃ k s m', GETSTRING m (p + i) = some (k, s, m') ∧
      ∀ j < i + 4 + GET m (p + i), m'[p + j]? = (patch m p bs')[p + j]?) :
    i + 4 + GET bs i ≤ bs.length ∧ GET bs i + 4 < 2 ^ 31 := by
  have hlt : ∀ c, p + i + 4 + GET (around p bs c) (p + i) ≤ (around p bs c).length := fun c => by
    have := GET_lt (around p bs c) (p + i)
    rw [length_around]
    omega
  -- the terminator lies in the bytes, for it is not what was behind them
  have hterm : i + GET (around p bs 3) (p + i) < bs.length := by
    by_contra hge
    obtain ⟨k, s, m', hget, hcells⟩ := h _ (slice_around p bs 3)
    have hcell := hcells (i + GET (around p bs 3) (p + i)) (by omega)
    have := GET_lt (around p bs 3) (p + i)
    rw [← add_assoc, (GETSTRING_cells hget (hlt 3)).1,
      getElem?_patch_of_disjoint (.inr (by omega)), add_assoc,
      getElem?_around 3 (by omega) (by omega)] at hcell
    exact absurd (some.inj hcell) (by decide)
  have hfour : i + 4 ≤ bs.length := by
    by_contra hout
    -- the last byte of the length is behind the bytes
    have hmod := GET_mod (around p bs 3) (p + i)
    rw [byte, add_assoc p, getElem?_around 3 (by omega) (by omega)] at hmod
    have : GET (around p bs 3) (p + i) % 256 = 3 := hmod
    omega
  have hget : ∀ c, GET (around p bs c) (p + i) = GET bs i := fun c =>
    GET_bytes (slice_around p bs c) hfour
  rw [hget] at hterm
  constructor
  · by_contra hout
    have hmoved : ∀ c, bs'[bs.length - 4]? = some c := fun c => by
      obtain ⟨k, s, m', hrun, hcells⟩ := h _ (slice_around p bs c)
      have hcell := hcells (bs.length - 4) (by rw [hget]; omega)
      have hread := (GETSTRING_cells hrun (hlt c)).2 (bs.length - 4 - i) (by rw [hget]; omega)
      rw [show p + i + (bs.length - 4 - i) = p + (bs.length - 4) by omega,
        show p + i + 4 + (bs.length - 4 - i) = p + bs.length by omega,
        getElem?_around c le_rfl (by omega)] at hread
      rw [← hread, hcell, getElem?_patch, if_pos (by rw [length_around]; omega),
        Nat.add_sub_cancel_left]
    exact absurd (some.inj ((hmoved 0).symm.trans (hmoved 1))) (by decide)
  · obtain ⟨k, s, m', hrun, -⟩ := h _ (slice_around p bs 0)
    exact hget 0 ▸ (GETSTRING_eq_some hrun).1

/-- A store behind `q` leaves the cells before it. -/
theorem GETSTRING_below {q k s j : Nat} {m' : Mem} (h : GETSTRING m q = some (k, s, m'))
    (hj : j < q) : m'[j]? = m[j]? := by
  obtain ⟨-, -, rfl⟩ := GETSTRING_eq_some h
  rw [getElem?_patch_of_disjoint (.inl (by omega)), memmove, getElem?_patch_of_disjoint (.inl hj)]

theorem bits_toInt_GET (m : Mem) (p : Nat) : bits (toInt (GET m p)) % 256 = byte m (p + 3) := by
  rw [bits_toInt (GET_lt m p), GET_mod]

theorem bits_toInt_byte (m : Mem) (p : Nat) : bits (toInt (byte m p)) % 256 = byte m p := by
  have := byte_lt m p
  rw [bits_toInt (by omega), mod_eq_of_lt this]

/-- A field of the message that ends with the byte at `r` has it from the bytes. -/
theorem lt_length_of_last
    (h : ∀ m, slice m p bs.length = bs → bodyM2W m p w t = some (w', patch m p bs'))
    (r : Nat) (f : Wsysmsg → Nat)
    (hf : ∀ m w' m', bodyM2W m p w t = some (w', m') → f w' % 256 = byte m (p + r))
    (hr : r < 2 ^ 9) : r < bs.length := by
  by_contra hout
  have hbyte : ∀ c : UInt8, f w' % 256 = c.toNat := fun c => by
    rw [hf _ _ _ (h _ (slice_around p bs c)), byte, getElem?_around c (by omega) (by omega)]
    rfl
  exact absurd ((hbyte 0).symm.trans (hbyte 1)) (by decide)

/-- The second string of a `Tinit` is unpacked from what the first has left. -/
theorem tinit_inside (hsix : 6 ≤ bs.length) (hbs' : bs'.length = bs.length)
    (h : ∀ m, slice m p bs.length = bs → bodyM2W m p w .tinit = some (w', patch m p bs')) :
    14 + GET bs 6 + GET bs (10 + GET bs 6) ≤ bs.length ∧ GET bs 6 + 4 < 2 ^ 31 ∧
      GET bs (10 + GET bs 6) + 4 < 2 ^ 31 := by
  have hrun : ∀ m, slice m p bs.length = bs → ∃ s m₁, GETSTRING m (p + 6) =
      some (GET m (p + 6) + 4, s, m₁) ∧ ∃ k s',
        GETSTRING m₁ (p + 6 + (GET m (p + 6) + 4)) = some (k, s', patch m p bs') := by
    intro m hm
    have hbody := h m hm
    simp only [bodyM2W, bind_eq_bind, bind_eq_some_iff, pure_def, some.injEq] at hbody
    obtain ⟨⟨n, s, m₁⟩, hfirst, ⟨k, s', m₂⟩, hsecond, heq⟩ := hbody
    obtain ⟨-, rfl, -⟩ := GETSTRING_eq_some hfirst
    obtain rfl : m₂ = patch m p bs' := (Prod.ext_iff.mp heq).2
    exact ⟨s, m₁, hfirst, k, s', hsecond⟩
  obtain ⟨hin, hstr⟩ := GETSTRING_inside (p := p) hsix hbs' fun m hm => by
    obtain ⟨s, m₁, hfirst, k, s', hsecond⟩ := hrun m hm
    exact ⟨_, s, m₁, hfirst, fun j hj => (GETSTRING_below hsecond (by omega)).symm⟩
  have hget : GET (moved bs 6) (10 + GET bs 6) = GET bs (10 + GET bs 6) := GET_moved hin
  have hlen := length_moved bs 6
  obtain ⟨hin', hstr'⟩ := GETSTRING_inside (p := p)
    (show 10 + GET bs 6 ≤ (moved bs 6).length by omega) (hbs'.trans hlen.symm) fun m hm => by
      have hpm : p + (moved bs 6).length ≤ m.length := le_length_of_slice hm (by omega)
      have hbs : slice (patch m p bs) p bs.length = bs := slice_patch_self (by omega)
      obtain ⟨s, m₁, hfirst, k, s', hsecond⟩ := hrun _ hbs
      rw [GET_bytes hbs (by omega), GETSTRING_bytes hbs hstr hin,
        patch_patch_self _ _ hlen.ge, patch_eq_self hm] at hfirst
      obtain ⟨rfl, rfl⟩ : p + 6 = s ∧ m = m₁ := by simpa using hfirst
      rw [GET_bytes hbs (by omega), patch_patch_self _ _ hbs'.ge] at hsecond
      rw [show p + (10 + GET bs 6) = p + 6 + (GET bs 6 + 4) by omega]
      exact ⟨k, s', _, hsecond, fun _ _ => rfl⟩
  rw [hget] at hin' hstr'
  exact ⟨by omega, hstr, hstr'⟩

/-- **A message that is unpacked inside its bytes is read there**: a byte that is read from behind
them shows in the message. -/
theorem reach_le_of_within (hsix : 6 ≤ bs.length) (hbs' : bs'.length = bs.length)
    (h : ∀ m, slice m p bs.length = bs → bodyM2W m p w t = some (w', patch m p bs')) :
    reach bs t ≤ bs.length ∧ ∀ i ∈ stringsAt bs t, GET bs i + 4 < 2 ^ 31 := by
  cases t <;> simp only [reach, extent, stringsAt, List.mem_cons, List.not_mem_nil, or_false,
    forall_eq, forall_eq_or_imp, false_imp_iff, implies_true, and_true]
  case rerror | tlabel | tctxt | rrdsnarf | twrsnarf =>
    refine GETSTRING_inside (p := p) hsix hbs' fun m hm => ?_
    obtain ⟨⟨k, s, m'⟩, hrun, heq⟩ := map_eq_some_iff.mp (h m hm)
    obtain rfl : m' = patch m p bs' := (Prod.ext_iff.mp heq).2
    exact ⟨k, s, _, hrun, fun _ _ => rfl⟩
  case tinit => exact tinit_inside hsix hbs' h
  case rrdmouse =>
    refine lt_length_of_last h 21 (fun w => w.mouse.msec.toNat) ?_ (by decide)
    rintro m _ _ ⟨⟩
    simp only [UInt64.toNat_ofNat_of_lt' ((GET_lt m (p + 18)).trans (by decide)), GET_mod]
  case tbouncemouse =>
    refine lt_length_of_last h 17 (fun w => bits w.mouse.buttons) ?_ (by decide)
    rintro m _ _ ⟨⟩
    exact bits_toInt_GET m (p + 14)
  case tmoveto =>
    refine lt_length_of_last h 13 (fun w => bits w.mouse.xy.y) ?_ (by decide)
    rintro m _ _ ⟨⟩
    exact bits_toInt_GET m (p + 10)
  case tcursor =>
    refine lt_length_of_last h 78 (fun w => bits w.arrowcursor) ?_ (by decide)
    rintro m _ _ ⟨⟩
    exact bits_toInt_byte m (p + 78)
  case tcursor2 =>
    refine lt_length_of_last h 342 (fun w => bits w.arrowcursor) ?_ (by decide)
    rintro m _ _ ⟨⟩
    exact bits_toInt_byte m (p + 342)
  case rrdkbd =>
    refine lt_length_of_last h 7 (fun w => w.rune.toNat) ?_ (by decide)
    rintro m _ _ ⟨⟩
    exact toNat_ofNat_GET2 m (p + 6)
  case rrdkbd4 =>
    refine lt_length_of_last h 9 (fun w => w.rune.toNat) ?_ (by decide)
    rintro m _ _ ⟨⟩
    exact toNat_ofNat_GET m (p + 6)
  case trddraw | rwrdraw | rrddraw | twrdraw =>
    refine lt_length_of_last h 9 (fun w => w.count.toNat) ?_ (by decide)
    rintro m _ _ ⟨⟩
    exact toNat_ofNat_GET m (p + 6)
  case tresize =>
    refine lt_length_of_last h 21 (fun w => bits w.rect.max.y) ?_ (by decide)
    rintro m _ _ ⟨⟩
    exact bits_toInt_GET m (p + 18)
  all_goals exact hsix

/-! ## Safety -/

/-- What `convM2W` does with the bytes at `p` comes from them alone and changes no others; a size
that it returns is the declared one, covers the fields and is at most the number of bytes. -/
def SafeM2W (bs : List UInt8) (p : Nat) (w : Wsysmsg) : Prop :=
  ∃ k w' bs', bs'.length = bs.length ∧
    (k ≠ 0 → k = GET bs 0 ∧ k ≤ bs.length ∧
      ∃ t, WsysType.ofCode (.ofNat (byte bs 5)) = some t ∧ k = extent bs t) ∧
    ∀ m, slice m p bs.length = bs → convM2W m p bs.length w = some (k, w', patch m p bs')

/-- A message of type `t` declares the size of its fields, or nothing and is read inside the bytes;
the lengths of its strings are `int`s. -/
def Contained (bs : List UInt8) (t : WsysType) : Prop :=
  (GET bs 0 = extent bs t ∨ GET bs 0 = 0 ∧ reach bs t ≤ bs.length) ∧
    ∀ i ∈ stringsAt bs t, GET bs i + 4 < 2 ^ 31

/-- `convM2W` on a message of a known type that declares no more than there is. -/
theorem convM2W_known (w : Wsysmsg) (h : slice m p bs.length = bs) (hsix : 6 ≤ bs.length)
    (ht : WsysType.ofCode (.ofNat (byte bs 5)) = some t) (hsize : GET bs 0 ≤ bs.length) :
    convM2W m p bs.length w =
      (bodyM2W m p { w with tag := .ofNat (byte bs 4), type := .ofNat (byte bs 5) } t).map
        fun r => (GET bs 0, r.1, r.2) := by
  rw [convM2W, if_neg (by omega), show GET m p = GET bs 0 from GET_bytes (i := 0) h (by omega),
    if_neg (by omega), byte_bytes h (by omega), byte_bytes h (by omega)]
  simp only [ht]

/-- **Unpacking is safe** exactly if a message of a known type that declares no more than the bytes
there are is contained in them. -/
theorem convM2W_safe (bs : List UInt8) (p : Nat) (w : Wsysmsg) :
    SafeM2W bs p w ↔ ∀ t, 6 ≤ bs.length → WsysType.ofCode (.ofNat (byte bs 5)) = some t →
      GET bs 0 ≤ bs.length → Contained bs t := by
  constructor
  · rintro ⟨k, w', bs', hbs', hk, hrun⟩ t hsix ht hsize
    have hbody : ∀ m, slice m p bs.length = bs → bodyM2W m p
        { w with tag := .ofNat (byte bs 4), type := .ofNat (byte bs 5) } t =
          some (w', patch m p bs') ∧ GET bs 0 = k := fun m hm => by
      have heq := hrun m hm
      rw [convM2W_known w hm hsix ht hsize, map_eq_some_iff] at heq
      obtain ⟨⟨w₁, m₁⟩, hbody, heq⟩ := heq
      obtain ⟨rfl, rfl, rfl⟩ : GET bs 0 = k ∧ w₁ = w' ∧ m₁ = patch m p bs' := by
        simpa using heq
      exact ⟨hbody, rfl⟩
    obtain rfl := (hbody _ (slice_around p bs 0)).2
    obtain ⟨hreach, hstr⟩ := reach_le_of_within hsix hbs' fun m hm => (hbody m hm).1
    refine ⟨?_, hstr⟩
    by_cases hzero : GET bs 0 = 0
    · exact .inr ⟨hzero, hreach⟩
    · obtain ⟨-, -, t', ht', hext⟩ := hk hzero
      obtain rfl := some.inj (ht.symm.trans ht')
      exact .inl hext
  · intro hfit
    have hzero : ∀ w', (∀ m, slice m p bs.length = bs →
        convM2W m p bs.length w = some (0, w', m)) → SafeM2W bs p w := fun w' h =>
      ⟨0, w', bs, rfl, fun h => absurd rfl h, fun m hm => by rw [h m hm, patch_eq_self hm]⟩
    by_cases hsix : bs.length < 6
    · exact hzero w fun m _ => by rw [convM2W, if_pos hsix]
    have hget : ∀ m, slice m p bs.length = bs → GET m p = GET bs 0 := fun m h =>
      GET_bytes (i := 0) h (by omega)
    by_cases hsize : GET bs 0 > bs.length
    · exact hzero w fun m h => by rw [convM2W, if_neg hsix, hget m h, if_pos hsize]
    cases ht : WsysType.ofCode (.ofNat (byte bs 5)) with
    | none =>
      refine hzero { w with tag := .ofNat (byte bs 4), type := .ofNat (byte bs 5) } fun m h => ?_
      rw [convM2W, if_neg hsix, hget m h, if_neg hsize, byte_bytes h (by omega),
        byte_bytes h (by omega)]
      simp only [ht]
    | some t =>
      obtain ⟨hdecl, hstr⟩ := hfit t (by omega) ht (by omega)
      have hreach : reach bs t ≤ bs.length := by
        have := reach_le_extent bs t
        omega
      obtain ⟨w', bs', hbs', hbody⟩ := bodyM2W_within hreach hstr p
        { w with tag := .ofNat (byte bs 4), type := .ofNat (byte bs 5) }
      refine ⟨GET bs 0, w', bs', hbs', fun hne => ⟨rfl, by omega, t, ht, ?_⟩, fun m h => ?_⟩
      · exact hdecl.resolve_right fun hz => hne hz.1
      · rw [convM2W_known w h (by omega) ht (by omega), hbody m h]
        rfl

/-- **The size is not compared with the fields**: a label that declares nothing behind its header
is read past the 6 bytes of the message, and one byte is stored there and another one cleared. -/
theorem convM2W_overrun :
    ((convM2W [0, 0, 0, 6, 7, 12, 0, 0, 0, 1, 104, 105] 0 6 default).map fun r => (r.1, r.2.2)) =
      some (6, [0, 0, 0, 6, 7, 12, 104, 0, 0, 1, 104, 105]) := by
  decide

end Plan9Port.Draw
