import Plan9Port.Flate.Table

/-!
# Decoding symbols

`decsym` on the tables of `hufftab` decodes the canonical code. The bits that are not in the
register yet are zeros when `flat` is looked at. That is no harm, because shorter codes are smaller:
what the zeros lead to is never longer than what the bits to come do.

An incomplete code leaves some of `flat` as it was, `~0`, and an empty one all of it. There the
decoder does not fail, but goes on with a length of -1 or whatever is found. Whether it comes there
depends on what is in the register at each look, zeros included.
-/

namespace Plan9Port.Flate

open Canonical Lib Input List UInt64 Nat

/-- The code of a symbol, the first bit first; it is empty for a symbol without a code. -/
def canon (lens : List Nat) (i : Nat) : List Bool :=
  (List.range (lens.getD i 0)).map fun k => (code lens i).testBit (lens.getD i 0 - 1 - k)

/-- Some code has the bits of `σ`, as far as the first `F` bits go. -/
def Reaches (lens : List Nat) (F : Nat) (σ : Nat → Bool) : Prop :=
  ∃ i, canon lens i ≠ [] ∧ ∀ k < F, ∀ x, (canon lens i)[k]? = some x → x = σ k

/-- The registers at which `flat` is looked at, from `nb` bits on: when there are as many, and then
again if the register, with zeros behind it, begins with a short code that needs more. -/
inductive Look (lens : List Nat) (F : Nat) : Nat → Input → Input → Prop
  | now {nb : Nat} {inp inp' : Input} :
      (if inp.nbits < nb then sregfill inp nb else .ok inp) = .ok inp' → Look lens F nb inp inp'
  | again {nb i b : Nat} {inp inp' inp'' : Input} :
      (if inp.nbits < nb then sregfill inp nb else .ok inp) = .ok inp' →
      Covers lens F (value (cut inp.stream inp'.nbits) F) i b → inp'.nbits < b →
      Look lens F b inp' inp'' → Look lens F nb inp inp''

variable {lens : List Nat} {F M i b k nb L : Nat} {h : Huff} {inp : Input} {σ : Nat → Bool}

theorem length_canon (hi : lens[i]? = some b) : (canon lens i).length = b := by
  rw [canon, getD_of_getElem? hi]
  simp

theorem canon_ne_nil : canon lens i ≠ [] ↔ ∃ b, lens[i]? = some b ∧ 0 < b := by
  constructor
  · intro hne
    rcases hi : lens[i]? with _ | b
    · simp [canon, getD_eq_getElem?_getD, hi] at hne
    · refine ⟨b, rfl, ?_⟩
      have := length_pos_iff.mpr hne
      rwa [length_canon hi] at this
  · rintro ⟨b, hi, hb⟩
    rw [← length_pos_iff, length_canon hi]
    exact hb

theorem getElem?_canon (hi : lens[i]? = some b) (hk : k < b) :
    (canon lens i)[k]? = some (withPrefix b (code lens i) k) := by
  rw [canon, getD_of_getElem? hi, getElem?_map, getElem?_range hk]
  rfl

theorem eq_of_value_eq {τ : Nat → Bool} (heq : value σ b = value τ b) (hk : k < b) : σ k = τ k := by
  have hbit := congrArg (fun x => testBit x (b - 1 - k)) heq
  simpa [testBit_value, show b - 1 - k < b by omega, show b - 1 - (b - 1 - k) = k by omega]
    using hbit

/-- The bits of a code make its number. -/
theorem Table.value_code (T : Table lens F M h) (hi : lens[i]? = some b) (hb : 0 < b) :
    value (withPrefix b (code lens i)) b = code lens i :=
  value_testBit ((code_lt_limit hi hb).trans_le (T.fits b (T.longest b (mem_of_getElem? hi))))

/-- Bits that a code begins lead to it. -/
theorem Table.reaches_of_code (T : Table lens F M h) (hi : lens[i]? = some b) (hb : 0 < b)
    (hcode : value σ b = code lens i) : Reaches lens F σ := by
  refine ⟨i, canon_ne_nil.mpr ⟨b, hi, hb⟩, ?_⟩
  intro k _ x hx
  have hk : k < b := by
    have := (List.getElem?_eq_some_iff.mp hx).1
    rwa [length_canon hi] at this
  rw [getElem?_canon hi hk] at hx
  rw [← Option.some.inj hx]
  exact eq_of_value_eq ((T.value_code hi hb).trans hcode.symm) hk

/-- A code begins the bits if they make its number. -/
theorem Table.canon_isPrefix (T : Table lens F M h) (hi : lens[i]? = some b) (hb : 0 < b) :
    canon lens i <+: inp.bits ↔ b ≤ inp.bits.length ∧ value inp.stream b = code lens i := by
  have hvalue := T.value_code hi hb
  have hlen := length_canon hi
  rw [List.prefix_iff_getElem?]
  constructor
  · intro hpre
    have hle : b ≤ inp.bits.length := by
      have hlast := hpre (b - 1) (by omega)
      have := (List.getElem?_eq_some_iff.mp hlast).1
      omega
    refine ⟨hle, ?_⟩
    rw [← hvalue]
    refine value_congr fun k hk => ?_
    have hget := hpre k (by omega)
    have hcan := getElem?_canon hi hk
    rw [List.getElem?_eq_getElem (by omega)] at hcan
    rw [stream, List.getD_eq_getElem?_getD, hget, hcan, Option.getD_some]
  · rintro ⟨hle, hval⟩ k hk
    rw [hlen] at hk
    have hbit := eq_of_value_eq (hval.trans hvalue.symm) hk
    have hcan := getElem?_canon hi hk
    rw [List.getElem?_eq_getElem (by omega)] at hcan
    rw [hcan, ← hbit, stream, List.getD_eq_getElem?_getD, List.getElem?_eq_getElem (by omega),
      Option.getD_some]

/-! ## The slow path -/

section Slow

variable (T : Table lens F M h)

include T

/-- What `hdecsym` looks at, when `nb` bits are there. -/
theorem Table.maxcode_le {v : Nat} (hnb : nb ≤ M) (hpos : 0 < limit (cnt lens) nb)
    (hv : v < 2 ^ nb) :
    entry h.maxcode nb = .ok (maxcodeOf lens nb) ∧
      (ofNat v ≤ maxcodeOf lens nb ↔ v < limit (cnt lens) nb) := by
  have hM := T.le_16
  have hsmall : limit (cnt lens) nb ≤ 2 ^ 16 :=
    (T.fits nb hnb).trans (Nat.pow_le_pow_right (by decide) (by omega))
  have hv16 : 2 ^ nb ≤ 2 ^ 16 := Nat.pow_le_pow_right (by decide) (by omega)
  refine ⟨?_, ?_⟩
  · rw [entry, T.maxcode nb hnb]
    rfl
  · rw [le_iff_toNat_le, maxcodeOf_toNat hpos hsmall,
      toNat_ofNat_of_lt' (by rw [UInt64.size]; omega)]
    omega

omit T in
theorem Input.stream_congr {inp' : Input} (hbits : inp'.bits = inp.bits) :
    inp'.stream = inp.stream := by
  unfold stream
  rw [hbits]

/-- One round of the loop of `hdecsym`. -/
theorem Table.hdecLoop_succ (hok : inp.Ok) (hnb : nb ≤ M) (hlen : nb ≤ inp.bits.length)
    (hpos : 0 < limit (cnt lens) nb) :
    ∃ inp', inp'.bits = inp.bits ∧ inp'.Ok ∧ nb ≤ inp'.nbits ∧
      hdecLoop h (k + 1) nb inp =
        if value inp.stream nb < limit (cnt lens) nb then do
          let sym ← entry h.decode (lastOf lens nb - .ofNat (value inp.stream nb)).toNat
          return (sym.toNat, inp'.drop nb)
        else hdecLoop h k (nb + 1) inp' := by
  have hM := T.le_16
  obtain ⟨inp', hfill, hbits, hok', hge, -⟩ := hok.fill (show nb ≤ 16 by omega) hlen
  refine ⟨inp', hbits, hok', hge, ?_⟩
  have hvalue : value inp'.sreg.testBit nb = value inp.stream nb := by
    rw [← hok'.cut_stream, value_cut_of_le _ hge, stream_congr hbits]
  obtain ⟨hentry, hiff⟩ := T.maxcode_le hnb hpos (value_lt inp.stream nb)
  have hlast : entry h.last nb = .ok (lastOf lens nb) := by
    rw [entry, T.last nb hnb]
    rfl
  rw [hdecLoop, hfill]
  simp only [bind, Except.bind, reversed_eq_value (show nb ≤ 16 by omega), hvalue, hentry, hiff,
    hlast]

/-- The symbol whose code begins the bits is found, from any length that is not too long. -/
theorem Table.hdecLoop_finds (hi : lens[i]? = some L) (hFL : F < L) (hi64 : i < 2 ^ 64)
    (hok : inp.Ok) (hlen : L ≤ inp.bits.length) (hcode : value inp.stream L = code lens i)
    (hnb : nb ≤ L) (hk : k = M + 1 - nb) (hpos : 0 < limit (cnt lens) nb) :
    ∃ inp', hdecLoop h k nb inp = .ok (i, inp') ∧ inp'.bits = inp.bits.drop L ∧ inp'.Ok := by
  have hLM := T.longest L (mem_of_getElem? hi)
  have hhas := has_of_code hi (by omega) hcode
  induction k generalizing nb inp with
  | zero => omega
  | succ k ih =>
    obtain ⟨inp1, hbits, hok1, hge, hround⟩ :=
      T.hdecLoop_succ (k := k) hok (show nb ≤ M by omega) (by omega) hpos
    rcases lt_or_ge nb L with hlt | hge'
    · have hpast := limit_le_value_of_first_le hhas.1 hlt
      have hstream := stream_congr hbits
      rw [if_neg (by omega)] at hround
      rw [hround, ← hbits]
      refine ih hok1 (by rwa [hbits]) (by rwa [hstream]) (by omega) (by omega)
        (limit_pos_of_le _ (le_succ nb) hpos) (by rwa [hstream])
    · obtain rfl : nb = L := by omega
      have hslot : entry h.decode (lastOf lens nb - .ofNat (code lens i)).toNat =
          .ok (.ofNat i) := by
        rw [lastOf_sub_code T.le_16 T.fits hi (by omega) hLM, entry, T.decode i nb hi hFL]
        rfl
      rw [if_pos hhas.2, hcode, hslot] at hround
      refine ⟨inp1.drop nb, ?_, ?_, hok1.drop hge⟩
      · rw [hround]
        simp only [bind, Except.bind, pure, Except.pure,
          toNat_ofNat_of_lt' (show i < UInt64.size from hi64)]
      · rw [bits_drop inp1 hge, hbits]

/-- Where no code begins the bits, the loop runs to its end, or to the end of the input. -/
theorem Table.hdecLoop_fails (hnone : ∀ b ≤ M, b ≤ inp.bits.length → ¬ Has (cnt lens) inp.stream b)
    (hok : inp.Ok) (hk : k = M + 1 - nb) (hpos : 0 < limit (cnt lens) nb) :
    hdecLoop h k nb inp = .error .corrupted ∨
      inp.bits.length < M ∧ hdecLoop h k nb inp = .error .inputFail := by
  have hM := T.le_16
  induction k generalizing nb inp with
  | zero => exact .inl rfl
  | succ k ih =>
    rcases lt_or_ge inp.bits.length nb with hshort | hlen
    · right
      refine ⟨by omega, ?_⟩
      rw [hdecLoop, hok.fill_error (by omega) hshort]
      rfl
    · obtain ⟨inp1, hbits, hok1, hge, hround⟩ :=
        T.hdecLoop_succ (k := k) hok (show nb ≤ M by omega) hlen hpos
      have hpast : ¬ value inp.stream nb < limit (cnt lens) nb := by
        intro hlt
        obtain ⟨b', hb', hhas⟩ := exists_has hlt
        exact hnone b' (by omega) (by omega) hhas
      rw [if_neg hpast] at hround
      rw [hround, ← hbits]
      exact ih (by rwa [stream_congr hbits, hbits]) hok1 (by omega)
        (limit_pos_of_le _ (le_succ nb) hpos)

end Slow

/-! ## Looking ahead with zeros -/

section Ahead

theorem Covers.value_eq (hcov : Covers lens F (value σ F) i b) : value σ b = code lens i := by
  have hdiv := value_div σ b (F - b)
  rwa [Nat.add_sub_cancel' hcov.2.2.1, hcov.2.2.2, eq_comm] at hdiv

/-- A short code that the zeros lead to is not longer than the code that is there. -/
theorem le_of_covers (hcov : Covers lens F (value (cut σ k) F) i b)
    (hhas : Has (cnt lens) σ L) : b ≤ L := by
  by_contra hlt
  have hle := value_cut_le σ k L
  have hbefore := value_lt_first_of_lt_limit (hle.trans_lt hhas.2) (Nat.lt_of_not_le hlt)
  rw [hcov.value_eq, code_eq hcov.1] at hbefore
  omega

/-- Neither is the least length that the zeros hit. -/
theorem le_of_hits {b0 : Nat} (hFb : F < b0) (hhits : Hits lens F (value (cut σ k) F) b0)
    (hleast : ∀ b, F < b → b ≤ M → Hits lens F (value (cut σ k) F) b → b0 ≤ b)
    (hLM : L ≤ M) (hhas : Has (cnt lens) σ L) : F < L ∧ b0 ≤ L := by
  have hbefore : value (cut σ k) L < limit (cnt lens) L :=
    Nat.lt_of_le_of_lt (value_cut_le σ k L) hhas.2
  rcases Nat.lt_or_ge F L with hFL | hLF
  · refine ⟨hFL, ?_⟩
    by_contra hlt
    -- L does not hit, so its codes begin behind the prefix, and those of b0 even more
    have hno : ¬ Hits lens F (value (cut σ k) F) L := fun hL => hlt (hleast L hFL hLM hL)
    have hprefix := value_div (cut σ k) F (L - F)
    rw [Nat.add_sub_cancel' (Nat.le_of_lt hFL)] at hprefix
    have hle : value (cut σ k) F ≤ (limit (cnt lens) L - 1) / 2 ^ (L - F) := by
      rw [← hprefix]
      exact Nat.div_le_div_right (by omega)
    have hgt : value (cut σ k) F < first (cnt lens) L / 2 ^ (L - F) := by
      by_contra hge
      exact hno ⟨by omega, Nat.le_of_not_lt hge, hle⟩
    have hmono : first (cnt lens) L / 2 ^ (L - F) ≤ first (cnt lens) b0 / 2 ^ (b0 - F) := by
      rw [Nat.le_div_iff_mul_le (Nat.two_pow_pos _), show b0 - F = (L - F) + (b0 - L) by omega,
        Nat.pow_add, ← Nat.mul_assoc]
      calc first (cnt lens) L / 2 ^ (L - F) * 2 ^ (L - F) * 2 ^ (b0 - L)
          ≤ first (cnt lens) L * 2 ^ (b0 - L) := Nat.mul_le_mul_right _ (div_mul_le_self _ _)
        _ ≤ first (cnt lens) b0 := by
            have := mul_first_le (cnt lens) L (b0 - L)
            rwa [Nat.add_sub_cancel' (by omega), Nat.mul_comm] at this
    have := hhits.2.1
    omega
  · exfalso
    have hlt : value (cut σ k) F < 2 ^ (F - L) * limit (cnt lens) L := by
      have hspan := value_lt_mul (cut σ k) L (F - L)
      rw [Nat.add_sub_cancel' hLF] at hspan
      exact hspan.trans_le (Nat.mul_le_mul_left _ hbefore)
    have hmono : 2 ^ (F - L) * limit (cnt lens) L ≤ first (cnt lens) b0 / 2 ^ (b0 - F) := by
      rw [Nat.le_div_iff_mul_le (Nat.two_pow_pos _)]
      have hmul := mul_limit_le_first (cnt lens) L (b0 - L - 1)
      rw [show L + (b0 - L - 1) + 1 = b0 by omega,
        show b0 - L - 1 + 1 = (F - L) + (b0 - F) by omega,
        Nat.pow_add, Nat.mul_right_comm] at hmul
      exact hmul
    have := hhits.2.1
    omega

/-- The bits lead to a code, and the zeros to one that is not behind it. -/
theorem exists_covers_or_hits (T : Table lens F M h) (hreach : Reaches lens F σ) (k : Nat) :
    (∃ i b, Covers lens F (value (cut σ k) F) i b) ∨
      ∃ b, F < b ∧ b ≤ M ∧ Hits lens F (value (cut σ k) F) b := by
  obtain ⟨j, hne, hagree⟩ := hreach
  obtain ⟨b, hj, hb⟩ := canon_ne_nil.mp hne
  have hbM := T.longest b (mem_of_getElem? hj)
  have hvalue := T.value_code hj hb
  have hbits : ∀ k < F, k < b → withPrefix b (code lens j) k = σ k := fun k hk hkb =>
    hagree k hk _ (getElem?_canon hj hkb)
  obtain ⟨τ, hτ⟩ : ∃ τ, τ = cut (cut σ k) F := ⟨_, rfl⟩
  -- the string with zeros behind its first F bits is before the end of the code
  have hbefore : value τ b < limit (cnt lens) b := by
    refine Nat.lt_of_le_of_lt ?_ (code_lt_limit hj hb)
    rcases le_or_gt b F with hle | hlt
    · rw [← hvalue, value_congr fun k hk => hbits k (by omega) hk, hτ]
      exact (value_cut_le _ _ _).trans (value_cut_le _ _ _)
    have hsplit := value_cut_add (cut σ k) F (b - F)
    rw [Nat.add_sub_cancel' hlt.le, ← hτ] at hsplit
    have hmul := mul_value_le (withPrefix b (code lens j)) F (b - F)
    rw [Nat.add_sub_cancel' hlt.le, hvalue, value_congr fun k hk => hbits k hk (by omega)] at hmul
    rw [hsplit]
    exact (Nat.mul_le_mul_left _ (value_cut_le σ k F)).trans hmul
  obtain ⟨b', hb', hhas⟩ := exists_has hbefore
  obtain ⟨hpos, i, hi, hσ⟩ := exists_code hhas
  have hF : value τ F = value (cut σ k) F := by rw [hτ, value_cut_of_le _ le_rfl]
  rcases le_or_gt b' F with hle | hlt
  · left
    refine ⟨i, b', hi, hpos, hle, ?_⟩
    have hdiv := value_div τ b' (F - b')
    rw [Nat.add_sub_cancel' hle] at hdiv
    rw [← hF, hdiv, hσ]
  · right
    have hdiv := value_div τ F (b' - F)
    rw [Nat.add_sub_cancel' hlt.le, hF] at hdiv
    obtain ⟨hlo, hhi⟩ := hhas
    refine ⟨b', hlt, by omega, by omega, ?_, ?_⟩
    · rw [← hdiv]
      exact Nat.div_le_div_right hlo
    · rw [← hdiv]
      exact Nat.div_le_div_right (by omega)

/-- What is filled in of `flat`: the entries of the first bits that lead to a code. -/
theorem Table.reaches_iff (T : Table lens F M h) : Reaches lens F σ ↔
    (∃ i b, Covers lens F (value σ F) i b) ∨
      ∃ b, F < b ∧ b ≤ M ∧ Hits lens F (value σ F) b := by
  constructor
  · intro hreach
    have hcut := exists_covers_or_hits T hreach F
    rwa [value_cut_of_le _ le_rfl] at hcut
  · rintro (⟨i, b, hcov⟩ | ⟨b, hFb, hbM, hpos, -, hle⟩)
    · exact T.reaches_of_code hcov.1 hcov.2.1 hcov.value_eq
    -- with zeros behind them the bits are before the end of the codes of length b
    have hlt : value (cut σ F) b < limit (cnt lens) b := by
      have hsplit := value_cut_add σ F (b - F)
      rw [Nat.add_sub_cancel' hFb.le] at hsplit
      rw [hsplit]
      have := (Nat.le_div_iff_mul_le (Nat.two_pow_pos _)).mp hle
      rw [Nat.mul_comm]
      omega
    obtain ⟨b', hb', hhas⟩ := exists_has hlt
    obtain ⟨hb'pos, i, hi, hcode⟩ := exists_code hhas
    obtain ⟨j, hj, hagree⟩ := T.reaches_of_code hi hb'pos hcode
    exact ⟨j, hj, fun k hk x hx => (hagree k hk x hx).trans (if_pos hk)⟩

theorem Table.reaches_cut (T : Table lens F M h) (hreach : Reaches lens F σ) (k : Nat) :
    Reaches lens F (cut σ k) :=
  T.reaches_iff.mpr (exists_covers_or_hits T hreach k)

end Ahead

/-! ## The fast path -/

/-- An entry of `flat` as an `int`, and its parts. -/
theorem int_entry {x y : Nat} (hx : x < 2 ^ 23) (hy : y < 256) :
    let c : Int := (ofNat ((x <<< 8) ||| y)).toUInt32.toInt32.toInt
    (c % 256).toNat = y ∧ c % 256 = y ∧ c / 256 = x := by
  have hor : (x <<< 8) ||| y = x * 256 + y := by
    rw [← shiftLeft_add_eq_or_of_lt hy, shiftLeft_eq]
  have hc : (ofNat ((x <<< 8) ||| y)).toUInt32.toInt32.toInt = ((x * 256 + y : Nat) : Int) := by
    obtain ⟨u, hu⟩ : ∃ u, u = (ofNat ((x <<< 8) ||| y)).toUInt32 := ⟨_, rfl⟩
    have hnat : u.toNat = x * 256 + y := by
      rw [hu, toNat_toUInt32, hor, toNat_ofNat_of_lt' (by rw [UInt64.size]; omega)]
      omega
    rw [← hu, ← hnat]
    change u.toBitVec.toInt = _
    rw [BitVec.toInt_eq_toNat_cond, if_pos]
    · rfl
    · change 2 * u.toNat < 2 ^ 32
      omega
  intro c
  have hc' : c = ((x * 256 + y : Nat) : Int) := hc
  rw [hc']
  omega

section Fast

variable (T : Table lens F M h) {fuel : Nat}

include T

theorem Table.flat_entry (hok : inp.Ok) {x : UInt64}
    (hx : flatAt h.flat F (value (cut inp.stream inp.nbits) F) = some (some x)) :
    entry h.flat (inp.sreg &&& h.flatmask) = .ok x := by
  have hF : F ≤ 16 := T.le.trans T.le_16
  rw [T.flatmask, and_mask_eq_revcode _ hF, ← hok.cut_stream, entry]
  rw [flatAt] at hx
  rw [hx]
  rfl

/-- One round of the loop that decodes a symbol: a short code is found, which may need more bits, or
the slow path is taken, or the entry of `flat` is `~0`. -/
theorem Table.decsymLoop_succ (fuel nb : Nat) (hsmall : lens.length ≤ 2 ^ 23)
    (hok : inp.Ok) (hnb : nb ≤ 16) (hlen : nb ≤ inp.bits.length) :
    ∃ inp1, (if inp.nbits < nb then sregfill inp nb else .ok inp) = .ok inp1 ∧
      inp1.bits = inp.bits ∧ inp1.Ok ∧ nb ≤ inp1.nbits ∧
      ((∃ i b, Covers lens F (value (cut inp.stream inp1.nbits) F) i b ∧
        decsymLoop h (fuel + 1) nb inp =
          if b > inp1.nbits then decsymLoop h fuel b inp1 else .ok (i, inp1.drop b)) ∨
      (∃ b0, F < b0 ∧ b0 ≤ M ∧ Hits lens F (value (cut inp.stream inp1.nbits) F) b0 ∧
        (∀ b, F < b → b ≤ M → Hits lens F (value (cut inp.stream inp1.nbits) F) b → b0 ≤ b) ∧
        (∀ i b, ¬ Covers lens F (value (cut inp.stream inp1.nbits) F) i b) ∧
        decsymLoop h (fuel + 1) nb inp = hdecLoop h (M + 1 - b0) b0 inp1) ∨
      ¬ Reaches lens F (cut inp.stream inp1.nbits) ∧
        decsymLoop h (fuel + 1) nb inp = .error .wild) := by
  have hM := T.le_16
  have hF : F ≤ 16 := T.le.trans hM
  obtain ⟨inp1, hfill, hbits, hok1, hge, -⟩ := hok.fill hnb hlen
  refine ⟨inp1, hfill, hbits, hok1, hge, ?_⟩
  have hstream := stream_congr hbits
  obtain ⟨P, hP⟩ : ∃ P, P = value (cut inp.stream inp1.nbits) F := ⟨_, rfl⟩
  have hPlt : P < 2 ^ F := hP ▸ value_lt _ F
  have hentry : ∀ {x}, flatAt h.flat F P = some (some x) →
      entry h.flat (inp1.sreg &&& h.flatmask) = .ok x := by
    intro x hx
    refine T.flat_entry hok1 ?_
    rwa [hstream, ← hP]
  rw [T.reaches_iff, decsymLoop, hfill, ← hP]
  simp only [bind, Except.bind]
  have hnbits := hok1.nbits_le
  by_cases hcov : ∃ i b, Covers lens F P i b
  · left
    obtain ⟨i, b, hcov⟩ := hcov
    refine ⟨i, b, hcov, ?_⟩
    have hb : b ≤ 16 := hcov.2.2.1.trans hF
    have hi : i < 2 ^ 23 := by
      have := (List.getElem?_eq_some_iff.mp hcov.1).1
      omega
    rw [hentry (T.short i b P hPlt hcov)]
    obtain ⟨hmod, -, hdiv⟩ := int_entry hi (show b < 256 by omega)
    simp only [hmod, hdiv, pure, Except.pure, Int.toNat_natCast]
    split_ifs with hgt hff
    · rfl
    · omega
    · rfl
  · right
    have hno : ∀ i b, ¬ Covers lens F P i b := fun i b hc => hcov ⟨i, b, hc⟩
    rcases T.long P hPlt hno with ⟨b0, hFb, hbM, hhits, hleast, hx⟩ | ⟨hnohit, hx⟩
    · refine .inl ⟨b0, hFb, hbM, hhits, hleast, hno, ?_⟩
      rw [hentry hx]
      obtain ⟨hmod, hmod', hdiv⟩ := int_entry (x := b0) (y := 0xff) (by omega) (by decide)
      simp only [hmod]
      rw [if_pos (by omega), if_neg (by simp), hdecsym]
      have hff : ((0xff : Nat) : Int) = 0xff := rfl
      simp only [hmod', hdiv, hff, if_true]
      rw [if_neg (by omega), T.maxbits, Int.toNat_natCast]
    · refine .inr ⟨?_, ?_⟩
      · rintro (hc | ⟨b, hFb, hbM, hb⟩)
        · exact hcov hc
        · exact hnohit b hFb hbM hb
      · -- `~0` is the length 0xff, and then the length -1 for `hdecsym`
        have hc : (-1 : UInt64).toUInt32.toInt32.toInt = -1 := by decide
        rw [hentry hx]
        simp only [hc]
        rw [if_pos (by simp; omega), if_neg (by decide)]
        rfl

/-- **Decoding finds the symbol** whose code begins the bits. -/
theorem Table.decsymLoop_finds (hsmall : lens.length ≤ 2 ^ 23) (hi : lens[i]? = some L) (hL : 0 < L)
    (hok : inp.Ok) (hlen : L ≤ inp.bits.length) (hcode : value inp.stream L = code lens i)
    (hnb : nb ≤ L) (hfuel : 16 < nb + fuel) :
    ∃ inp', decsymLoop h fuel nb inp = .ok (i, inp') ∧ inp'.bits = inp.bits.drop L ∧ inp'.Ok := by
  have hM := T.le_16
  have hLM := T.longest L (List.mem_of_getElem? hi)
  have hhas := has_of_code hi hL hcode
  have hreach := T.reaches_of_code hi hL hcode
  induction fuel generalizing nb inp with
  | zero => omega
  | succ fuel ih =>
    obtain ⟨inp1, -, hbits, hok1, hge, hround⟩ :=
      T.decsymLoop_succ fuel nb hsmall hok (by omega) (by omega)
    have hstream := stream_congr hbits
    rcases hround with ⟨j, b, hcov, hround⟩ | ⟨b0, hFb, hbM, hhits, hleast, -, hround⟩ | ⟨hnot, -⟩
    · have hbL := le_of_covers hcov hhas
      split_ifs at hround with hgt
      · rw [hround, ← hbits]
        exact ih hok1 (by rwa [hbits]) (by rwa [hstream]) hbL (by omega) (by rwa [hstream])
          (by rwa [hstream])
      -- the code is all there, so it is the one that begins the bits
      have hjcode := hcov.value_eq
      rw [value_cut_of_le _ (by omega)] at hjcode
      obtain ⟨hj, hb, hbF, -⟩ := hcov
      obtain rfl := code_inj hj hi hb hL hjcode hcode
      obtain rfl : b = L := Option.some.inj (hj.symm.trans hi)
      refine ⟨inp1.drop b, hround, ?_, hok1.drop (by omega)⟩
      rw [bits_drop inp1 (by omega), hbits]
    · obtain ⟨hFL, hbL⟩ := le_of_hits hFb hhits hleast hLM hhas
      have hi64 : i < 2 ^ 64 := by
        have := (List.getElem?_eq_some_iff.mp hi).1
        omega
      rw [hround, ← hbits]
      exact T.hdecLoop_finds hi hFL hi64 hok1 (by rwa [hbits]) (by rwa [hstream]) hbL rfl hhits.1
    · exact absurd (T.reaches_cut hreach inp1.nbits) hnot

/-- **Decoding fails** where no code begins the bits, but all looks lead to one. -/
theorem Table.decsymLoop_fails (hsmall : lens.length ≤ 2 ^ 23)
    (hnone : ∀ b ≤ M, b ≤ inp.bits.length → ¬ Has (cnt lens) inp.stream b)
    (hlook : ∀ inp', Look lens F nb inp inp' → Reaches lens F (cut inp.stream inp'.nbits))
    (hok : inp.Ok) (hnb : nb ≤ M) (hfuel : 16 < nb + fuel) :
    decsymLoop h fuel nb inp = .error .corrupted ∨
      inp.bits.length < M ∧ decsymLoop h fuel nb inp = .error .inputFail := by
  have hM := T.le_16
  induction fuel generalizing nb inp with
  | zero => omega
  | succ fuel ih =>
    rcases lt_or_ge inp.bits.length nb with hshort | hlen
    · right
      refine ⟨by omega, ?_⟩
      rw [decsymLoop, hok.fill_error (by omega) hshort]
      rfl
    obtain ⟨inp1, hfill, hbits, hok1, hge, hround⟩ :=
      T.decsymLoop_succ fuel nb hsmall hok (by omega) hlen
    have hstream := stream_congr hbits
    rcases hround with ⟨j, b, hcov, hround⟩ | ⟨b0, hFb, hbM, hhits, hleast, -, hround⟩ | ⟨hnot, -⟩
    · split_ifs at hround with hgt
      · rw [hround, ← hbits]
        refine ih (by rwa [hstream, hbits]) (fun inp' hnext => ?_) hok1
          (T.longest b (mem_of_getElem? hcov.1)) (by omega)
        rw [hstream]
        exact hlook inp' (.again hfill hcov hgt hnext)
      have hjcode := hcov.value_eq
      rw [value_cut_of_le _ (by omega)] at hjcode
      obtain ⟨hj, hb, hbF, -⟩ := hcov
      have hthere : b ≤ inp.bits.length := by
        rw [← hbits, length_bits]
        omega
      exact absurd (has_of_code hj hb hjcode)
        (hnone b (T.longest b (mem_of_getElem? hj)) hthere)
    · rw [hround, ← hbits]
      exact T.hdecLoop_fails (by rwa [hstream, hbits]) hok1 rfl hhits.1
    · exact absurd (hlook inp1 (.now hfill)) hnot

/-- **Decoding goes astray** at a look that leads to no code. -/
theorem Table.decsymLoop_wild (hsmall : lens.length ≤ 2 ^ 23) {inp' : Input}
    (hlook : Look lens F nb inp inp') (hnot : ¬ Reaches lens F (cut inp.stream inp'.nbits))
    (hok : inp.Ok) (hnb : nb ≤ 16) (hfuel : 16 < nb + fuel) :
    decsymLoop h fuel nb inp = .error .wild := by
  have hM := T.le_16
  -- what is there when a look succeeds
  have hthere : ∀ {nb inp inp'}, Ok inp → nb ≤ 16 →
      (if inp.nbits < nb then sregfill inp nb else .ok inp) = .ok inp' →
      nb ≤ inp.bits.length := fun hok hnb hfill => by
    by_contra hshort
    cases (hok.fill_error hnb (Nat.lt_of_not_le hshort)).symm.trans hfill
  obtain ⟨fuel, rfl⟩ : ∃ fuel', fuel = fuel' + 1 := ⟨fuel - 1, by omega⟩
  induction hlook generalizing fuel with
  | @now nb inp inp' hfill =>
    obtain ⟨inp1, hfill1, -, -, -, hround⟩ :=
      T.decsymLoop_succ fuel nb hsmall hok hnb (hthere hok hnb hfill)
    obtain rfl := Except.ok.inj (hfill1.symm.trans hfill)
    rw [T.reaches_iff] at hnot
    rcases hround with ⟨j, b, hcov, -⟩ | ⟨b0, hFb, hbM, hhits, -⟩ | ⟨-, hwild⟩
    · exact absurd (.inl ⟨j, b, hcov⟩) hnot
    · exact absurd (.inr ⟨b0, hFb, hbM, hhits⟩) hnot
    · exact hwild
  | @again nb i b inp inp' inp'' hfill hcov hgt hnext ih =>
    obtain ⟨inp1, hfill1, hbits, hok1, hge, hround⟩ :=
      T.decsymLoop_succ fuel nb hsmall hok hnb (hthere hok hnb hfill)
    obtain rfl := Except.ok.inj (hfill1.symm.trans hfill)
    have hb : b ≤ 16 := (T.longest b (mem_of_getElem? hcov.1)).trans hM
    rcases hround with ⟨j, b', hcov', hround⟩ | ⟨b0, -, -, -, -, hno, -⟩ | ⟨hnot', -⟩
    · obtain rfl := hcov.inj (value_lt _ F) hcov'
      obtain rfl : b = b' := Option.some.inj (hcov.1.symm.trans hcov'.1)
      obtain ⟨fuel, rfl⟩ : ∃ fuel', fuel = fuel' + 1 := ⟨fuel - 1, by omega⟩
      rw [hround, if_pos hgt]
      rw [← stream_congr hbits] at hnot
      exact ih hnot hok1 hb fuel (by omega)
    · exact absurd hcov (hno i b)
    · exact absurd (T.reaches_iff.mpr (.inl ⟨i, b, hcov⟩)) hnot'

end Fast

/-! ## The decoder -/

/-- Decoding as it should be: the symbol whose code begins the bits is decoded, no other one could
be, and exactly its code is consumed; if there is none, decoding fails, for the bits or because they
end. Nothing outside of what `hufftab` has filled in is used: the result would be `wild`. -/
structure Decodes (lens : List Nat) (h : Huff) (inp : Input) : Prop where
  finds : ∀ i, canon lens i ≠ [] → canon lens i <+: inp.bits →
    (∃ inp', decsym h inp = .ok (i, inp') ∧ inp'.bits = inp.bits.drop (canon lens i).length ∧
      inp'.Ok) ∧
    ∀ j, canon lens j ≠ [] → canon lens j <+: inp.bits → j = i
  fails : (∀ i, canon lens i ≠ [] → ¬ canon lens i <+: inp.bits) →
    decsym h inp = .error .corrupted ∨
      inp.bits.length < h.maxbits ∧ decsym h inp = .error .inputFail

/-- Lengths that are all zero make no tables. -/
theorem hufftab_zero {hb : List Int} {flatbits : Nat} (hacc : hufftab hb flatbits = .ok h)
    (hzero : ∀ x ∈ hb, x = 0) : h = Huff.blank := by
  obtain ⟨t, ht, hrun⟩ := bind_eq_ok hacc
  have hmax : t.maxbits ≤ 0 := by
    rcases (tally_spec ht).max with hmax | ⟨hpos, hmem⟩
    · omega
    · rw [hzero _ hmem] at hpos
      omega
  rw [if_pos hmax] at hrun
  cases hrun
  rfl

/-- **Symbols are decoded exactly**, by the tables that `hufftab` makes, if a code begins the bits
or if all looks at `flat` lead to one; and only then. -/
theorem decsym_spec {hb : List Int} {flatbits : Nat} (hacc : hufftab hb flatbits = .ok h)
    (hsmall : hb.length ≤ 2 ^ 23) (hok : inp.Ok) :
    Decodes (hb.map Int.toNat) h inp ↔
      (∃ i, canon (hb.map Int.toNat) i ≠ [] ∧ canon (hb.map Int.toNat) i <+: inp.bits) ∨
      ∀ inp', Look (hb.map Int.toNat) (min flatbits h.maxbits) h.minbits inp inp' →
        Reaches (hb.map Int.toNat) (min flatbits h.maxbits) (cut inp.stream inp'.nbits) := by
  by_cases hne : ∃ x ∈ hb, x ≠ 0
  · obtain ⟨M, T⟩ := hufftab_spec hacc hne
    have hlens : (hb.map Int.toNat).length ≤ 2 ^ 23 := by rwa [length_map]
    have hmin := T.minbits_le.trans T.le
    have hM := T.le_16
    rw [T.maxbits]
    obtain ⟨lens, hdef⟩ : ∃ lens, lens = hb.map Int.toNat := ⟨_, rfl⟩
    rw [← hdef] at T hlens ⊢
    constructor
    · intro hdec
      by_contra hno
      simp only [not_or, not_exists, not_and, not_forall] at hno
      obtain ⟨hnone, inp', hlook, hnot⟩ := hno
      have hwild := T.decsymLoop_wild hlens hlook hnot hok (by omega)
        (by omega : 16 < h.minbits + 256)
      rcases hdec.fails hnone with hfail | ⟨-, hfail⟩
      · exact absurd (hwild.symm.trans hfail) (by simp)
      · exact absurd (hwild.symm.trans hfail) (by simp)
    · intro hcond
      constructor
      · intro i hcan hpre
        obtain ⟨L, hi, hL⟩ := canon_ne_nil.mp hcan
        obtain ⟨hlen, hcode⟩ := (T.canon_isPrefix hi hL).mp hpre
        constructor
        · rw [length_canon hi]
          exact T.decsymLoop_finds hlens hi hL hok hlen hcode
            (T.minbits L (mem_of_getElem? hi) (by omega)) (by omega)
        · intro j hjcan hjpre
          obtain ⟨L', hj, hL'⟩ := canon_ne_nil.mp hjcan
          obtain ⟨-, hjcode⟩ := (T.canon_isPrefix hj hL').mp hjpre
          exact code_inj hj hi hL' hL hjcode hcode
      · intro hnone
        have hlook := hcond.resolve_left fun ⟨i, hi, hpre⟩ => hnone i hi hpre
        rw [T.maxbits]
        refine T.decsymLoop_fails hlens ?_ hlook hok hmin (by omega)
        intro b hb hlen hhas
        obtain ⟨hpos, i, hi, hσ⟩ := exists_code hhas
        exact hnone i (canon_ne_nil.mpr ⟨b, hi, hpos⟩)
          ((T.canon_isPrefix hi hpos).mpr ⟨hlen, hσ⟩)
  · -- without a code there is nothing to find, and nothing in the tables
    have hzero : ∀ x ∈ hb, x = 0 := fun x hx => not_not.mp fun h0 => hne ⟨x, hx, h0⟩
    obtain rfl := hufftab_zero hacc hzero
    have hnone : ∀ i, ¬ canon (hb.map Int.toNat) i ≠ [] := by
      intro i hi
      obtain ⟨b, hib, hb0⟩ := canon_ne_nil.mp hi
      obtain ⟨x, hx, rfl⟩ := mem_map.mp (mem_of_getElem? hib)
      rw [hzero x hx] at hb0
      exact absurd hb0 (by decide)
    refine iff_of_false (fun hdec => ?_) ?_
    · have hentry : entry Huff.blank.flat (inp.sreg &&& Huff.blank.flatmask) = .error .wild := by
        rw [show Huff.blank.flatmask = 0 from rfl, Nat.and_zero]
        rfl
      have hwild : decsym Huff.blank inp = .error .wild := by
        change decsymLoop Huff.blank (255 + 1) 0 inp = _
        rw [decsymLoop, if_neg (Nat.not_lt_zero _)]
        simp only [bind, Except.bind, hentry]
      rcases hdec.fails fun i hi => absurd hi (hnone i) with hfail | ⟨-, hfail⟩
      · exact absurd (hwild.symm.trans hfail) (by simp)
      · exact absurd (hwild.symm.trans hfail) (by simp)
    · rintro (⟨i, hi, -⟩ | hlook)
      · exact hnone i hi
      · obtain ⟨i, hi, -⟩ := hlook inp (.now (if_neg (Nat.not_lt_zero _)))
        exact hnone i hi

/-- The result of `hufftab`, when running it shows that there is one. -/
theorem exists_hufftab (hb : List Int) (flatbits : Nat) (p : Huff → Prop) [DecidablePred p]
    (hrun : (hufftab hb flatbits).toOption.any (fun h => decide (p h)) = true) :
    ∃ h, hufftab hb flatbits = .ok h ∧ p h := by
  rcases hacc : hufftab hb flatbits with e | h
  · rw [hacc] at hrun
    cases hrun
  · rw [hacc] at hrun
    exact ⟨h, rfl, of_decide_eq_true hrun⟩

/-- Three codes of three bits, and tables for two bits: the last code is decoded, and the next one,
which is not a code, is rejected. -/
theorem decsym_spec_three : ∃ h, hufftab [3, 3, 3] 2 = .ok h ∧
    (∃ inp', decsym h ⟨[2], 0, 0⟩ = .ok (2, inp') ∧
      inp'.bits = [false, false, false, false, false]) ∧
    decsym h ⟨[6], 0, 0⟩ = .error .corrupted := by
  obtain ⟨h, hacc, hmax, hmin⟩ := exists_hufftab [3, 3, 3] 2
    (fun h => h.maxbits = 3 ∧ h.minbits = 2) (by decide +kernel)
  refine ⟨h, hacc, ?_, ?_⟩
  · have hok : (mk [2] 0 0).Ok := ⟨by decide, by decide⟩
    have hdec := (decsym_spec hacc (by decide) hok).mpr (.inl ⟨2, by decide, by decide⟩)
    obtain ⟨⟨inp', hrun, hbits, -⟩, -⟩ := hdec.finds 2 (by decide) (by decide)
    exact ⟨inp', hrun, hbits⟩
  · have hok : (mk [6] 0 0).Ok := ⟨by decide, by decide⟩
    have hnone : ∀ i, canon [3, 3, 3] i ≠ [] → ¬ canon [3, 3, 3] i <+: (mk [6] 0 0).bits := by
      intro i hi
      obtain ⟨b, hib, -⟩ := canon_ne_nil.mp hi
      have hlt : i < 3 := (List.getElem?_eq_some_iff.mp hib).1
      exact (by decide : ∀ i < 3, ¬ canon [3, 3, 3] i <+: (mk [6] 0 0).bits) i hlt
    have hlook : ∀ inp', Look [3, 3, 3] 2 2 (mk [6] 0 0) inp' →
        Reaches [3, 3, 3] 2 (cut (mk [6] 0 0).stream inp'.nbits) := by
      intro inp' hlook
      cases hlook with
      | now hfill =>
        -- the last code begins with the same two bits
        obtain rfl : mk [] 6 8 = inp' := Except.ok.inj hfill
        exact ⟨2, by decide, by decide⟩
      | again hfill hcov hgt hnext =>
        have hb : ∀ b ∈ [3, 3, 3], b = 3 := by decide
        have := hb _ (mem_of_getElem? hcov.1)
        have := hcov.2.2.1
        omega
    have hdec := decsym_spec hacc (by decide) hok
    rw [hmax, hmin] at hdec
    have hfails := (hdec.mpr (.inr hlook)).fails hnone
    rw [hmax] at hfails
    obtain hcorrupt | ⟨hshort, -⟩ := hfails
    · exact hcorrupt
    · exact absurd hshort (by decide)

/-- One code, of one bit: the tables are accepted, and the other bit makes the decoder look at
`maxcode[-1]`. With no code at all it looks at an entry of `flat` that is not filled in. -/
theorem decsym_wild : (∃ h, hufftab [1] 6 = .ok h ∧ decsym h ⟨[1], 0, 0⟩ = .error .wild) ∧
    ∃ h, hufftab [0] 6 = .ok h ∧ decsym h ⟨[1], 0, 0⟩ = .error .wild :=
  ⟨exists_hufftab _ _ _ (by decide +kernel), exists_hufftab _ _ _ (by decide +kernel)⟩

end Plan9Port.Flate
