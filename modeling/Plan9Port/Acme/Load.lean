import Plan9Port.Acme.Flat
import Plan9Port.Utf.Stream

/-!
# Loading a file

`loadfile` (`acme/buff.c`) reads a file block by block and turns the bytes into runes with
`cvttorunes` (`acme/util.c`). A rune may begin in one block and end in the next. So the last
`UTFmax` bytes are held back until the file ends, and `cvttorunes` may take bytes past its limit,
to the end of a rune that begins before it.

A list of blocks is what `read` returns, before it returns 0. Bytes and runes go into buffers of a
fixed size; a store past their end, like a read past the bytes, ends the call.
-/

namespace Plan9Port.Acme

open Utf List

/-- Only what is not ASCII goes to `chartorune`. -/
def nextRune (q : List UInt8) : Option (Rune × Nat) := do
  let c ← uchar q 0
  if c < Runeself then some (.ofNat c, 1) else chartorune q

/-- The runes that are kept, how many bytes they and the NULs took, and whether there was a NUL.
There is room for `room` runes at `r`; a NUL is stored, and then overwritten. -/
def cvttorunes : Nat → Nat → List UInt8 → Nat → Option (List Rune × Nat × Bool)
  | _, _, _, 0 => some ([], 0, false)
  | 0, _, _, _ + 1 => none
  | _ + 1, 0, _, _ + 1 => none
  | fuel + 1, room + 1, q, n + 1 => do
    let (s, w) ← nextRune q
    if s ≠ 0 then
      let (rs, nb, nulls) ← cvttorunes fuel room (q.drop w) (n + 1 - w)
      some (s :: rs, w + nb, nulls)
    else
      let (rs, nb, _) ← cvttorunes fuel (room + 1) (q.drop w) (n + 1 - w)
      some (rs, w + nb, true)

/-- The loop of `loadfile`, with the bytes left over in `p`: what the callback gets, call by call. A
limit `l` below 0 is as good as 0. -/
def loadLoop : List (List UInt8) → List UInt8 → Option (List (List Rune) × Bool)
  | [], p => do
    let (rs, _, nulls) ← cvttorunes p.length Maxblock (p ++ [0]) p.length
    some ([rs], nulls)
  | block :: blocks, p => do
    let p := p ++ block
    -- `p[m] = 0`
    if p.length < Maxblock + UTFmax + 1 then
      let (rs, nb, nulls) ← cvttorunes p.length Maxblock (p ++ [0]) (p.length - UTFmax)
      let (rss, nulls') ← loadLoop blocks (p.drop nb)
      some (rs :: rss, nulls || nulls')
    else none

/-- The pieces, and if there were NULs. -/
def loadfile (blocks : List (List UInt8)) : Option (List (List Rune) × Bool) := loadLoop blocks []

/-- Repeated `chartorune` over a stream. -/
def decoding (bs : List UInt8) : List Rune :=
  ((chartorunes bs.length (bs ++ [0]) bs.length).getD []).map Prod.fst

theorem chartorunes_fuel {s : List UInt8} {f g n : Nat} (hf : n ≤ f) (hg : n ≤ g) :
    chartorunes f s n = chartorunes g s n := by
  induction f generalizing g s n with
  | zero =>
    obtain rfl : n = 0 := by omega
    simp [chartorunes]
  | succ f ih =>
    rcases n with _ | n
    · simp [chartorunes]
    obtain _ | g := g
    · omega
    rw [chartorunes, chartorunes]
    rcases h : chartorune s with _ | ⟨r, k⟩
    · rfl
    have hpos := (chartorune_len h).1
    simp only [Lib.some_bind, ih (show n + 1 - k ≤ f by omega) (show n + 1 - k ≤ g by omega)]

theorem decoding_cons {a : UInt8} {bs : List UInt8} {r : Rune} {w : Nat}
    (h : chartorune (a :: bs ++ [0]) = some (r, w)) (hw : w ≤ (a :: bs).length) :
    decoding (a :: bs) = r :: decoding ((a :: bs).drop w) := by
  have hpos := (chartorune_len h).1
  have hstep := chartorunes_step h hw (show _ ≤ bs.length + 1 from le_rfl)
  rw [drop_append_of_le_length hw, ← length_drop,
    chartorunes_fuel (g := ((a :: bs).drop w).length) (by simp; omega) le_rfl] at hstep
  obtain ⟨xs, -, hxs, -⟩ := chartorunes_terminated ((a :: bs).drop w) [] le_rfl
  rw [hxs] at hstep
  simp only [decoding, length_cons, hxs] at hstep ⊢
  rw [hstep]
  rfl

theorem nextRune_eq (q : List UInt8) : nextRune q = chartorune q := by
  rcases q with _ | ⟨a, q⟩
  · rfl
  · simp only [nextRune, uchar, getElem?_cons_zero, Option.map_some, Lib.some_bind]
    split_ifs with ha
    · exact (chartorune_one ha).symm
    · rfl

/-- What is decoded of the first bytes does not depend on what comes after the next three. -/
theorem cvttorunes_spec {fuel n : Nat} {p : List UInt8} (t : List UInt8) (hf : n ≤ fuel)
    (hn : n ≤ p.length) (ht : n = 0 ∨ n + 3 ≤ p.length ∨ t = []) :
    ∃ xs nb, (∀ room, xs.length ≤ room → cvttorunes fuel room (p ++ [0]) n =
        some (xs.filter (· ≠ 0), nb, decide (0 ∈ xs))) ∧ xs.length ≤ n ∧
      n ≤ nb ∧ nb ≤ p.length ∧ decoding (p ++ t) = xs ++ decoding (p.drop nb ++ t) := by
  induction fuel generalizing n p with
  | zero =>
    obtain rfl : n = 0 := by omega
    exact ⟨[], 0, by simp [cvttorunes]⟩
  | succ fuel ih =>
    rcases n with _ | n
    · exact ⟨[], 0, by simp [cvttorunes]⟩
    rcases p with _ | ⟨a, p⟩
    · simp at hn
    obtain ⟨⟨s, w⟩, h, hw⟩ := chartorune_terminated a p []
    have hpos := (chartorune_len h).1
    have ht' : n + 1 - w = 0 ∨ n + 1 - w + 3 ≤ ((a :: p).drop w).length ∨ t = [] := by
      rw [length_drop]
      rcases ht with ht | ht | ht
      · omega
      · omega
      · exact .inr (.inr ht)
    obtain ⟨xs, nb, hxs, hlen, hle, hnb, hdec⟩ := ih (by omega)
      (by rw [length_drop]; omega) ht'
    rw [length_drop] at hnb
    refine ⟨s :: xs, w + nb, fun room hroom => ?_, by rw [length_cons]; omega, by omega,
      by omega, ?_⟩
    · rw [length_cons] at hroom
      obtain _ | room := room
      · omega
      simp only [cvttorunes, nextRune_eq, h, Lib.some_bind, drop_append_of_le_length hw,
        hxs room (by omega), hxs (room + 1) (by omega)]
      by_cases hs : s = 0
      · simp [hs]
      · simp [hs, Ne.symm hs]
    · have hfull : chartorune (a :: (p ++ t) ++ [0]) = some (s, w) := by
        rcases ht with h0 | hlen | rfl
        · omega
        · -- four bytes decide a rune
          obtain ⟨v, hv⟩ := chartorune_take_of_fullrune (s := a :: p) (n := UTFmax)
            (by simp only [length_cons, UTFmax] at hlen ⊢; omega)
            (by simp [fullrune, uchar, UTFmax])
          rw [← take_append_drop UTFmax (a :: p), append_assoc, chartorune_append hv] at h
          rw [← cons_append, ← take_append_drop UTFmax (a :: p), append_assoc,
            append_assoc, chartorune_append hv, h]
        · rwa [append_nil]
      rw [cons_append, decoding_cons hfull (by simp at hw ⊢; omega), ← cons_append,
        drop_append_of_le_length hw, hdec, drop_drop]
      rfl

/-- All of a string. -/
theorem cvttorunes_all (p : List UInt8) : (decoding p).length ≤ p.length ∧
    ∀ room, (decoding p).length ≤ room → cvttorunes p.length room (p ++ [0]) p.length =
      some ((decoding p).filter (· ≠ 0), p.length, decide (0 ∈ decoding p)) := by
  obtain ⟨xs, nb, hxs, hlen, hle, hnb, hdec⟩ := cvttorunes_spec (p := p) [] le_rfl le_rfl
    (.inr (.inr rfl))
  obtain rfl := Nat.le_antisymm hnb hle
  have hdec : decoding p = xs := by simpa [decoding, chartorunes] using hdec
  rw [hdec]
  exact ⟨hlen, hxs⟩

theorem loadLoop_spec {blocks : List (List UInt8)} {p : List UInt8} (hp : p.length ≤ UTFmax)
    (hb : ∀ block ∈ blocks, block.length ≤ Maxblock) :
    ∃ rss, loadLoop blocks p = some (rss, decide (0 ∈ decoding (p ++ blocks.flatten))) ∧
      rss.flatten = (decoding (p ++ blocks.flatten)).filter (· ≠ 0) := by
  induction blocks generalizing p with
  | nil =>
    obtain ⟨hlen, hall⟩ := cvttorunes_all p
    have hcvt := hall Maxblock (hlen.trans (hp.trans (by decide)))
    exact ⟨[(decoding p).filter (· ≠ 0)], by simp [loadLoop, hcvt], by simp⟩
  | cons block blocks ih =>
    have hblock := hb block (.head _)
    obtain ⟨xs, nb, hxs, hlen, hle, hnb, hdec⟩ := cvttorunes_spec blocks.flatten
      (Nat.sub_le (p ++ block).length UTFmax) (Nat.sub_le _ _) (by simp only [UTFmax]; omega)
    obtain ⟨rss, hrss, hflat⟩ := ih (p := (p ++ block).drop nb) (by rw [length_drop]; omega)
      fun block h => hb block (.tail _ h)
    rw [flatten_cons, ← append_assoc, hdec]
    refine ⟨xs.filter (· ≠ 0) :: rss, ?_, ?_⟩
    · rw [loadLoop, if_pos (by simp; omega)]
      simp only [hxs Maxblock (by simp at hlen; omega), hrss, Lib.some_bind, mem_append,
        Bool.decide_or]
    · simp [hflat]

/-- **Loading.** However the stream is cut into blocks, the callback gets its runes without the
NULs, and `nulls` says if there were any. -/
theorem loadfile_spec (blocks : List (List UInt8))
    (hb : ∀ block ∈ blocks, 1 ≤ block.length ∧ block.length ≤ Maxblock) :
    ∃ rss, loadfile blocks = some (rss, decide (0 ∈ decoding blocks.flatten)) ∧
      rss.flatten = (decoding blocks.flatten).filter (· ≠ 0) :=
  loadLoop_spec (p := []) (by decide) fun block h => (hb block h).2

/-- The two bytes of a rune in two blocks, and a NUL. -/
theorem loadfile_spec_split : ∃ rss, loadfile [[0xc3], [0xa9, 0]] = some (rss, true) ∧
    rss.flatten = [0xe9] :=
  loadfile_spec [[0xc3], [0xa9, 0]] (by decide)

end Plan9Port.Acme
