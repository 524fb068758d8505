import Plan9Port.Utf.Rune

/-!
# Streams of runes

Repeated `chartorune` over a byte string, as the loops of `lib9/utf` run it.

## Main results

* `chartorunes_flatMap_runetochar`: an encoded list of runes is read back
* `chartorunes_terminated`: every terminated byte string is consumed exactly, in pieces that are
  bad bytes or encodings
* `rune_streams`: the two together
-/

namespace Plan9Port.Utf

open List

/-- `while(n > 0){ k = chartorune(&r, str); str += k; n -= k; }`, for at most `fuel` turns. It
fails when a turn reads outside `str` or takes more bytes than are left. -/
def chartorunes : Nat → List UInt8 → Nat → Option (List (Rune × Nat))
  | _, _, 0 => some []
  | 0, _, _ + 1 => none
  | fuel + 1, str, n + 1 => do
    let (r, k) ← chartorune str
    if k ≤ n + 1 then
      let rs ← chartorunes fuel (str.drop k) (n + 1 - k)
      return (r, k) :: rs
    else
      none

/-- The number of runes in the first `m` bytes of `s`, up to a NUL or an incomplete rune. -/
def utfnlen : Nat → List UInt8 → Nat → Option Nat
  | _, _, 0 => some 0
  | 0, _, _ + 1 => none
  | fuel + 1, s, m + 1 => do
    let c ← uchar s 0
    if c < Runeself then
      if c = 0 then return 0
      else return (← utfnlen fuel (s.drop 1) m) + 1
    else if !(← fullrune s (m + 1)) then return 0
    else
      let (_, k) ← chartorune s
      return (← utfnlen fuel (s.drop k) (m + 1 - k)) + 1

variable {fuel : Nat} {rs : List Rune} {r : Rune}

/-- One turn of the loop. -/
theorem chartorunes_step {n : Nat} {str : List UInt8} {k : Nat} (h : chartorune str = some (r, k))
    (hk : k ≤ n) (hf : n ≤ fuel + 1) :
    chartorunes (fuel + 1) str n = (chartorunes fuel (str.drop k) (n - k)).map ((r, k) :: ·) := by
  obtain ⟨hpos, -⟩ := chartorune_len h
  cases n with
  | zero => omega
  | succ n =>
    simp only [chartorunes, h, Lib.some_bind, if_pos hk]
    exact Option.map_eq_bind.symm

/-- Decoding recovers the list of runes that was encoded, taking from each its own bytes. -/
theorem chartorunes_flatMap_runetochar (hrs : ∀ r ∈ rs, r.toNat ≤ Runemax) (t : List UInt8)
    (hf : runenlen rs ≤ fuel) :
    chartorunes fuel (rs.flatMap runetochar ++ t) (runenlen rs) =
      some (rs.map fun r => (r, runelen r)) := by
  induction rs generalizing fuel with
  | nil => simp [runenlen, chartorunes]
  | cons r rs ih =>
    have hr : r.toNat ≤ Runemax := hrs r (by simp)
    have hlen : runenlen (r :: rs) = runelen r + runenlen rs := runenlen_cons hr rs
    have hstep : chartorune ((r :: rs).flatMap runetochar ++ t) = some (r, runelen r) := by
      rw [flatMap_cons, append_assoc]
      exact chartorune_runetochar hr _
    have hpos := (chartorune_len hstep).1
    obtain _ | fuel := fuel
    · omega
    rw [chartorunes_step hstep (by omega) hf, hlen, Nat.add_sub_cancel_left]
    simp only [runelen, flatMap_cons, append_assoc, drop_left]
    rw [ih (fun r hr => hrs r (.tail _ hr)) (by omega)]
    rfl

/-- `utfnlen` counts the runes of an encoded list without NUL. -/
theorem utfnlen_flatMap_runetochar (hrs : ∀ r ∈ rs, r.toNat ≤ Runemax ∧ r ≠ 0) (t : List UInt8)
    (hf : runenlen rs ≤ fuel) :
    utfnlen fuel (rs.flatMap runetochar ++ t) (runenlen rs) = some rs.length := by
  induction rs generalizing fuel with
  | nil => simp [runenlen, utfnlen]
  | cons r rs ih =>
    obtain ⟨hr, h0⟩ := hrs r (by simp)
    have ih : ∀ {fuel}, runenlen rs ≤ fuel →
        utfnlen fuel (rs.flatMap runetochar ++ t) (runenlen rs) = some rs.length :=
      ih fun r hr => hrs r (.tail _ hr)
    have hlen := runenlen_cons hr rs
    have hstep := chartorune_runetochar hr (rs.flatMap runetochar ++ t)
    have hfull := fullrune_runetochar hr (rs.flatMap runetochar ++ t)
      (Nat.le_add_right _ (runenlen rs))
    have hpos := (chartorune_len hstep).1
    obtain _ | fuel := fuel
    · omega
    obtain ⟨m, hm⟩ : ∃ m, (runetochar r).length + runenlen rs = m + 1 :=
      ⟨(runetochar r).length + runenlen rs - 1, by omega⟩
    rw [hlen, flatMap_cons, append_assoc]
    rw [hm] at hfull ⊢
    obtain ⟨b, bs, hb⟩ := exists_cons_of_length_pos hpos
    rw [hb, cons_append] at hstep hfull ⊢
    rcases lt_or_ge b.toNat 0x80 with h1 | h1
    · -- a one byte rune, which is not NUL
      rw [chartorune_one h1] at hstep
      obtain ⟨rfl, hlen1⟩ := Prod.mk.inj (Option.some.inj hstep)
      have hz : b.toNat ≠ 0 := fun hz => h0 (by rw [hz]; rfl)
      rw [hb, ← hlen1] at hm
      have hm' : m = runenlen rs := by omega
      obtain rfl : bs = [] := by simpa using hlen1
      simp only [utfnlen, uchar, getElem?_cons_zero, Option.map_some, Lib.some_bind,
        if_pos (show b.toNat < Runeself from h1), if_neg hz, drop_succ_cons, drop_zero, nil_append]
      rw [hm', ih (by omega)]
      rfl
    · simp only [utfnlen, uchar, getElem?_cons_zero, Option.map_some, Lib.some_bind,
        if_neg (show ¬ b.toNat < Runeself from Nat.not_lt_of_le h1), hfull, Bool.not_true,
        Bool.false_eq_true, if_false, hstep]
      rw [← cons_append, ← hb, drop_left,
        show m + 1 - (runetochar r).length = runenlen rs by omega, ih (by omega)]
      rfl

theorem utfnlen_flatMap_runetochar_two :
    utfnlen 3 ([0x61, 0x3B1].flatMap runetochar ++ [0]) 3 = some 2 :=
  utfnlen_flatMap_runetochar (by simp [Runemax]) _ (by decide)

/-- A piece of the input and the turn that took it: the encoding of the rune, or a single bad
byte that `Runeerror` replaces. -/
def Piece (x : Rune × Nat) (bytes : List UInt8) : Prop :=
  0 < x.2 ∧ bytes.length = x.2 ∧ (x ≠ bad → bytes = runetochar x.1)

theorem piece_of_chartorune {s : List UInt8} {x : Rune × Nat} (h : chartorune s = some x) :
    Piece x (s.take x.2) := by
  refine ⟨(chartorune_len h).1, by simpa using (chartorune_len h).2, fun hbad => ?_⟩
  rcases chartorune_cases h with hb | ⟨htake, -⟩
  · exact absurd hb hbad
  · exact htake.symm

/-- The turns of a run take as many bytes as their pieces have. -/
theorem sum_of_pieces {xs : List (Rune × Nat)} {pieces : List (List UInt8)}
    (h : Forall₂ Piece xs pieces) :
    (∀ x ∈ xs, 0 < x.2) ∧ (xs.map Prod.snd).sum = pieces.flatten.length := by
  induction h with
  | nil => simp
  | cons hx _ ih =>
    refine ⟨forall_mem_cons.mpr ⟨hx.1, ih.1⟩, ?_⟩
    rw [map_cons, sum_cons, flatten_cons, length_append, ih.2, hx.2.1]

theorem cont_tx_or (x : Nat) : Cont (.ofNat (Tx ||| (x &&& Maskx))) := by
  rw [and_maskx, tx_or (Nat.mod_lt _ (by decide))]
  simp only [Cont, UInt8.toNat_ofNat']
  omega

/-- Every byte of an encoding after the first is a continuation byte. -/
theorem cont_of_mem_tail_runetochar {b : UInt8} (h : b ∈ (runetochar r).tail) : Cont b := by
  simp only [runetochar] at h
  split_ifs at h <;> simp only [tail_cons, mem_cons, not_mem_nil, or_false] at h
  · exact h ▸ cont_tx_or _
  · rcases h with rfl | rfl <;> exact cont_tx_or _
  · rcases h with rfl | rfl | rfl <;> exact cont_tx_or _
  · rcases h with rfl | rfl <;> exact cont_tx_or _
  · rcases h with rfl | rfl | rfl <;> exact cont_tx_or _

theorem not_cont_zero : ¬ Cont 0 := by decide

/-- A terminated string always decides `chartorune`: the terminator is no continuation byte. -/
theorem chartorune_terminated_some (a : UInt8) (bs t : List UInt8) :
    ∃ x, chartorune (a :: bs ++ 0 :: t) = some x :=
  chartorune_of_mem_zero (by simp)

/-- The terminator is never taken: `chartorune` stays inside a nonempty terminated string. -/
theorem chartorune_terminated (a : UInt8) (bs t : List UInt8) :
    ∃ x, chartorune (a :: bs ++ 0 :: t) = some x ∧ x.2 ≤ (a :: bs).length := by
  obtain ⟨⟨r, k⟩, h⟩ := chartorune_terminated_some a bs t
  refine ⟨_, h, ?_⟩
  rcases chartorune_cases h with hbad | ⟨htake, hk⟩
  · simp [(Prod.mk.inj hbad).2]
  by_contra hlt
  have hlt : bs.length + 1 < k := by simpa using hlt
  -- the terminator would be a byte of the encoding after its first
  have hmem : (0 : UInt8) ∈ (runetochar r).tail := by
    rw [htake]
    obtain _ | k := k
    · omega
    refine mem_of_getElem? (i := bs.length) ?_
    simp [show bs.length < k by omega]
  exact not_cont_zero (cont_of_mem_tail_runetochar hmem)

/-- Every terminated byte string is consumed exactly, piece by piece. -/
theorem chartorunes_terminated (bs t : List UInt8) (hf : bs.length ≤ fuel) :
    ∃ xs pieces, chartorunes fuel (bs ++ 0 :: t) bs.length = some xs ∧
      pieces.flatten = bs ∧ Forall₂ Piece xs pieces := by
  induction fuel generalizing bs with
  | zero =>
    obtain rfl : bs = [] := length_eq_zero_iff.mp (Nat.le_zero.mp hf)
    exact ⟨[], [], by simp [chartorunes]⟩
  | succ fuel ih =>
    rcases bs with _ | ⟨a, bs⟩
    · exact ⟨[], [], by simp [chartorunes]⟩
    obtain ⟨⟨r, k⟩, h, hk⟩ := chartorune_terminated a bs t
    have hpos := (chartorune_len h).1
    have hdrop : (a :: bs ++ 0 :: t).drop k = (a :: bs).drop k ++ 0 :: t :=
      drop_append_of_le_length hk
    have htake : (a :: bs ++ 0 :: t).take k = (a :: bs).take k := take_append_of_le_length hk
    obtain ⟨xs, pieces, hxs, hflat, hall⟩ := ih ((a :: bs).drop k) (by
      simp only [length_drop]
      omega)
    refine ⟨(r, k) :: xs, (a :: bs).take k :: pieces, ?_, ?_, ?_⟩
    · rw [chartorunes_step h hk hf, hdrop, ← length_drop, hxs]
      rfl
    · rw [flatten_cons, hflat, take_append_drop]
    · exact .cons (htake ▸ piece_of_chartorune h) hall

/-- **Streams of runes.** Runes encoded one after the other take `runenlen` bytes and are read
back by repeated `chartorune`; a terminated byte string, whatever its bytes, is consumed exactly,
in pieces that are the encodings of their runes except where `Runeerror` replaces a bad byte; and
`chartorune` reads nothing past a prefix that `fullrune` calls full. -/
theorem rune_streams :
    (∀ (rs : List Rune) (t : List UInt8), (∀ r ∈ rs, r.toNat ≤ Runemax) →
      (rs.flatMap runetochar).length = runenlen rs ∧
      chartorunes (runenlen rs) (rs.flatMap runetochar ++ t) (runenlen rs) =
        some (rs.map fun r => (r, runelen r))) ∧
    (∀ bs t : List UInt8, ∃ xs pieces,
      chartorunes bs.length (bs ++ 0 :: t) bs.length = some xs ∧ (∀ x ∈ xs, 0 < x.2) ∧
      (xs.map Prod.snd).sum = bs.length ∧ pieces.flatten = bs ∧ List.Forall₂ Piece xs pieces) ∧
    (∀ (s : List UInt8) (n : Nat), n ≤ s.length → fullrune s n = some true →
      ∃ x, ∀ t, chartorune (s.take n ++ t) = some x) := by
  refine ⟨fun rs t hrs => ⟨(runenlen_eq hrs).symm, ?_⟩, fun bs t => ?_, fun s n hn h => ?_⟩
  · exact chartorunes_flatMap_runetochar hrs t le_rfl
  · obtain ⟨xs, pieces, hxs, hflat, hall⟩ := chartorunes_terminated bs t le_rfl
    obtain ⟨hpos, hsum⟩ := sum_of_pieces hall
    exact ⟨xs, pieces, hxs, hpos, hflat ▸ hsum, hflat, hall⟩
  · obtain ⟨x, hx⟩ := chartorune_take_of_fullrune hn h
    exact ⟨x, chartorune_append hx⟩

/-- A surrogate half and the last rune. -/
theorem rune_streams_surrogate :
    chartorunes 7 ([0xD800, 0x10FFFF].flatMap runetochar ++ []) 7 =
      some [(0xD800, 3), (0x10FFFF, 4)] :=
  (rune_streams.1 [0xD800, 0x10FFFF] [] (by simp only [List.forall_mem_cons]; simp; decide)).2

end Plan9Port.Utf
