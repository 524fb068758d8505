import Mathlib.Tactic.Ring
import Plan9Port.Flate.Huffman
import Plan9Port.Lib.Except

/-!
# The tables of `hufftab`

A vector of code lengths stands for a canonical code: the symbols of one length have consecutive
codes, in their order. `Table` says what `hufftab` makes of it.

## Main definitions

* `cnt`, `rank`, `code`: the canonical code of a vector of lengths
* `Table`: what is in the tables

## Main results

* `exists_code`, `code_inj`: a word of the code is the code of one symbol
* `hufftab_spec`: `hufftab` fills in a `Table`
-/

namespace Plan9Port.Flate

open Canonical Lib List Option Nat

/-! ## The code of a vector of lengths -/

/-- The number of symbols with codes of length `b`. -/
def cnt (lens : List Nat) (b : Nat) : Nat := if b = 0 then 0 else lens.count b

/-- How many symbols before `i` have codes of the same length. -/
def rank (lens : List Nat) (i : Nat) : Nat := (lens.take i).count (lens.getD i 0)

/-- The code of the symbol `i`, as a number. -/
def code (lens : List Nat) (i : Nat) : Nat := first (cnt lens) (lens.getD i 0) + rank lens i

/-- The number of symbols with codes that are shorter than `b`. -/
def cum (lens : List Nat) (b : Nat) : Nat := ((List.range b).map (cnt lens)).sum

variable {lens : List Nat} {i j b : Nat}

section

variable (h : lens[i]? = some b)
include h

theorem getD_of_getElem? : lens.getD i 0 = b := by
  rw [getD_eq_getElem?_getD, h, getD_some]

theorem rank_eq : rank lens i = (lens.take i).count b := by
  rw [rank, getD_of_getElem? h]

theorem code_eq : code lens i = first (cnt lens) b + rank lens i := by
  rw [code, getD_of_getElem? h]

theorem count_take_succ : (lens.take (i + 1)).count b = (lens.take i).count b + 1 := by
  rw [take_add_one, h, count_append]
  simp

theorem rank_lt : rank lens i < lens.count b := by
  have hsub : (lens.take (i + 1)).count b ≤ lens.count b := (take_sublist (i + 1) lens).count_le b
  rw [rank_eq h]
  have := count_take_succ h
  omega

end

theorem rank_lt_rank (hi : lens[i]? = some b) (hj : lens[j]? = some b) (hlt : i < j) :
    rank lens i < rank lens j := by
  have hsub : (lens.take (i + 1)).count b ≤ (lens.take j).count b :=
    (take_sublist_take_left (succ_le_of_lt hlt)).count_le b
  rw [rank_eq hi, rank_eq hj]
  have := count_take_succ hi
  omega

theorem rank_inj (hi : lens[i]? = some b) (hj : lens[j]? = some b)
    (h : rank lens i = rank lens j) : i = j := by
  rcases lt_trichotomy i j with hlt | heq | hlt
  · have := rank_lt_rank hi hj hlt
    omega
  · exact heq
  · have := rank_lt_rank hj hi hlt
    omega

variable {k : Nat}

theorem exists_rank (h : k < lens.count b) : ∃ i, lens[i]? = some b ∧ rank lens i = k := by
  induction lens generalizing k with
  | nil => simp at h
  | cons x lens ih =>
    by_cases hx : x = b
    · subst hx
      rcases k with _ | k
      · exact ⟨0, rfl, rfl⟩
      · rw [count_cons_self] at h
        obtain ⟨i, hi, hrank⟩ := ih (k := k) (by omega)
        refine ⟨i + 1, hi, ?_⟩
        have hi' : (x :: lens)[i + 1]? = some x := hi
        rw [rank_eq hi', take_succ_cons, count_cons_self, ← rank_eq hi, hrank]
    · rw [count_cons_of_ne hx] at h
      obtain ⟨i, hi, hrank⟩ := ih h
      refine ⟨i + 1, hi, ?_⟩
      have hi' : (x :: lens)[i + 1]? = some b := hi
      rw [rank_eq hi', take_succ_cons, count_cons_of_ne hx, ← rank_eq hi, hrank]

theorem cnt_of_pos (h : 0 < b) : cnt lens b = lens.count b := if_neg (by omega)

theorem code_lt_limit (h : lens[i]? = some b) (hb : 0 < b) : code lens i < limit (cnt lens) b := by
  have := rank_lt h
  rw [code_eq h, limit, cnt_of_pos hb]
  omega

variable {σ : Nat → Bool}

/-- A word that begins a string is the code of a symbol. -/
theorem exists_code (h : Has (cnt lens) σ b) :
    0 < b ∧ ∃ i, lens[i]? = some b ∧ value σ b = code lens i := by
  have hb : 0 < b := by
    rcases Nat.eq_zero_or_pos b with rfl | hpos
    · exact absurd h.2 (by simp [limit, first, cnt])
    · exact hpos
  obtain ⟨hlo, hhi⟩ := h
  rw [limit, cnt_of_pos hb] at hhi
  have hk : value σ b - first (cnt lens) b < lens.count b := by omega
  obtain ⟨i, hi, hrank⟩ := exists_rank hk
  refine ⟨hb, i, hi, ?_⟩
  rw [code_eq hi, hrank]
  omega

theorem has_of_code (h : lens[i]? = some b) (hb : 0 < b) (hσ : value σ b = code lens i) :
    Has (cnt lens) σ b := by
  refine ⟨?_, ?_⟩
  · rw [hσ, code_eq h]
    omega
  · rw [hσ]
    exact code_lt_limit h hb

variable {b' : Nat}

/-- The code that begins a string is that of one symbol. -/
theorem code_inj (hi : lens[i]? = some b) (hj : lens[j]? = some b') (hb : 0 < b) (hb' : 0 < b')
    (hσi : value σ b = code lens i) (hσj : value σ b' = code lens j) : i = j := by
  obtain rfl := (has_of_code hi hb hσi).unique (has_of_code hj hb' hσj)
  refine rank_inj hi hj ?_
  rw [hσi, code_eq hi, code_eq hj] at hσj
  omega

/-! ## Counting -/

theorem put_eq_ok {xs ys : List (Option UInt64)} {x : UInt64} (h : put xs k x = .ok ys) :
    k < xs.length ∧ ys = xs.set k (some x) := by
  rw [put] at h
  split_ifs at h with hk
  exact ⟨hk, (Except.ok.inj h).symm⟩

/-- What has been counted of `hb`. -/
structure Tallied (hb : List Int) (t : Tally) : Prop where
  range : ∀ x ∈ hb, 0 ≤ x ∧ x < MaxHuffBits
  length : t.bitcount.length = MaxHuffBits
  count : ∀ b < MaxHuffBits, t.bitcount.getD b 0 = cnt (hb.map Int.toNat) b
  le_max : ∀ x ∈ hb, x ≠ 0 → x ≤ t.maxbits
  max : t.maxbits = -1 ∨ 0 < t.maxbits ∧ t.maxbits ∈ hb
  min_le : ∀ x ∈ hb, x ≠ 0 → t.minbits ≤ x
  min_pos : 0 < t.minbits

variable {x : Int}

theorem cnt_append_singleton (hb : List Int) (hx : 0 ≤ x) (b : Nat) :
    cnt ((hb ++ [x]).map Int.toNat) b =
      cnt (hb.map Int.toNat) b + if x ≠ 0 ∧ x.toNat = b then 1 else 0 := by
  rw [cnt, cnt]
  by_cases hb0 : b = 0
  · have hno : ¬ (x ≠ 0 ∧ x.toNat = b) := by omega
    rw [if_pos hb0, if_pos hb0, if_neg hno]
  rw [if_neg hb0, if_neg hb0, map_append, count_append]
  by_cases hxb : x.toNat = b
  · have hyes : x ≠ 0 ∧ x.toNat = b := by omega
    rw [if_pos hyes, ← hxb]
    simp
  · rw [if_neg (by omega)]
    simp [hxb]

variable {hb : List Int}

theorem Tallied.add {t t' : Tally} {b : Int} (h : Tallied hb t) (hadd : t.add b = .ok t') :
    Tallied (hb ++ [b]) t' := by
  have hmem : ∀ {P : Int → Prop}, (∀ x ∈ hb, P x) → P b → ∀ x ∈ hb ++ [b], P x := by
    intro P hP hb x hx
    rcases mem_append.mp hx with hx | hx
    · exact hP x hx
    · rwa [mem_singleton.mp hx]
  rw [Tally.add] at hadd
  by_cases h0 : b = 0
  · rw [if_pos h0] at hadd
    cases hadd
    refine ⟨hmem h.range (by rw [h0]; decide), h.length, ?_, hmem h.le_max (by simp [h0]), ?_,
      hmem h.min_le (by simp [h0]), h.min_pos⟩
    · intro k hk
      rw [h.count k hk, cnt_append_singleton hb (by omega), if_neg (by omega), add_zero]
    · exact h.max.imp_right fun hmax => ⟨hmax.1, mem_append_left _ hmax.2⟩
  · rw [if_neg h0] at hadd
    split at hadd
    · next hrange =>
      cases hadd
      refine ⟨hmem h.range hrange, ?_, ?_, hmem ?_ ?_, Or.inr ?_, hmem ?_ ?_, ?_⟩
      · simp only [length_modify, h.length]
      · intro k hk
        have hlen := h.length
        have hcount := h.count k hk
        obtain ⟨x, hx⟩ : ∃ x, t.bitcount[k]? = some x := ⟨_, getElem?_eq_getElem (by omega)⟩
        rw [cnt_append_singleton hb hrange.1, ← hcount]
        simp only [getD_eq_getElem?_getD, getElem?_modify, hx]
        split_ifs <;> first | rfl | omega
      · intro x hx hne
        have := h.le_max x hx hne
        simp only
        split_ifs <;> omega
      · simp only
        split_ifs <;> omega
      · simp only
        split_ifs with hgt
        · exact ⟨by omega, by simp⟩
        · rcases h.max with hmax | ⟨hpos, hmem⟩
          · omega
          · exact ⟨hpos, mem_append_left _ hmem⟩
      · intro x hx hne
        have := h.min_le x hx hne
        simp only
        split_ifs <;> omega
      · simp only
        split_ifs <;> omega
      · have := h.min_pos
        simp only
        split_ifs <;> omega
    · cases hadd

theorem tally_spec {t : Tally} (h : tally hb = .ok t) : Tallied hb t := by
  refine foldlM_induct (fun pre t => Tallied pre t) h ?_ ?_
  · refine ⟨by simp, by simp, ?_, by simp, Or.inl rfl, by simp, by decide⟩
    intro b hb
    simp only [getD_eq_getElem?_getD, getElem?_replicate, hb, if_true, getD_some]
    simp [cnt]
  · intro pre x post s s' _ hs hadd
    exact hs.add hadd

/-! ## The ranges of codes -/

theorem eq_length_of_range {n x : Nat} {pre post : List Nat} (h : range n = pre ++ x :: post) :
    x = pre.length ∧ x < n := by
  have hx : (range n)[pre.length]? = some x := by
    rw [h, getElem?_append_right le_rfl, Nat.sub_self]
    rfl
  have hlt : pre.length < n := by
    have := congrArg length h
    simp only [length_range, length_append, length_cons] at this
    omega
  rw [getElem?_range hlt] at hx
  cases hx
  exact ⟨rfl, hlt⟩

/-- The largest code of a length, and what the symbols of a length are counted from in `decode`. -/
def maxcodeOf (lens : List Nat) (b : Nat) : UInt64 := .ofNat (limit (cnt lens) b) - 1

/-- `last[b]` -/
def lastOf (lens : List Nat) (b : Nat) : UInt64 := .ofNat (cum lens b) + maxcodeOf lens b

/-- The lengths below `k` are done. -/
structure Ranged (lens : List Nat) (k : Nat) (r : Ranges) : Prop where
  code : 2 * r.code = first (cnt lens) k
  c : r.c = cum lens k
  nc : r.nc = (List.range k).map (first (cnt lens))
  fits : ∀ b < k, limit (cnt lens) b ≤ 2 ^ b
  maxcode : ∀ b < k, r.maxcode[b]? = some (some (maxcodeOf lens b))
  last : ∀ b < k, r.last[b]? = some (some (lastOf lens b))

theorem cum_succ (lens : List Nat) (b : Nat) : cum lens (b + 1) = cum lens b + cnt lens b := by
  simp [cum, range_succ]

/-- One more entry of a table, after those that are filled in. -/
theorem filled_put {xs ys : List (Option UInt64)} {f : Nat → UInt64}
    (h : ∀ b < k, xs[b]? = some (some (f b))) (hput : put xs k (f k) = .ok ys) :
    ∀ b < k + 1, ys[b]? = some (some (f b)) := by
  obtain ⟨hk, rfl⟩ := put_eq_ok hput
  intro b hb
  rcases Nat.lt_succ_iff_lt_or_eq.mp hb with hlt | rfl
  · rw [getElem?_set_ne (by omega)]
    exact h b hlt
  · exact getElem?_set_self hk

variable {bitcount : List Nat} {flat flat₀ flat' : List (Option UInt64)}

theorem Ranged.add {r r' : Ranges} (h : Ranged lens k r) (hcount : bitcount.getD k 0 = cnt lens k)
    (hadd : r.add bitcount k = .ok r') : Ranged lens (k + 1) r' := by
  rw [Ranges.add] at hadd
  have hmin : r.code <<< 1 = first (cnt lens) k := by
    rw [shiftLeft_eq, ← h.code]
    omega
  simp only [hmin, hcount, ← limit.eq_1] at hadd
  split_ifs at hadd with hfits
  obtain ⟨maxcode, hmax, hadd⟩ := bind_eq_ok hadd
  obtain ⟨last, hlast, hadd⟩ := bind_eq_ok hadd
  cases hadd
  rw [h.c] at hlast
  refine ⟨?_, ?_, ?_, ?_, filled_put h.maxcode hmax, filled_put h.last hlast⟩
  · rw [first_succ]
  · rw [cum_succ, h.c]
  · simp only [h.nc, range_succ, map_append, map_singleton]
  · intro b hb
    rcases Nat.lt_succ_iff_lt_or_eq.mp hb with hlt | rfl
    · exact h.fits b hlt
    · rw [shiftLeft_eq, one_mul] at hfits
      omega

theorem ranges_spec {maxbits : Nat} {r : Ranges}
    (hcount : ∀ b ≤ maxbits, bitcount.getD b 0 = cnt lens b) (h : ranges bitcount maxbits = .ok r) :
    Ranged lens (maxbits + 1) r := by
  have hrun := foldlM_induct (fun pre r => Ranged lens pre.length r) h ?_ ?_
  · simpa using hrun
  · exact ⟨rfl, rfl, rfl, by simp, by simp, by simp⟩
  · intro pre x post s s' hl hs hadd
    obtain ⟨rfl, hlt⟩ := eq_length_of_range hl
    rw [length_append]
    exact hs.add (hcount _ (by omega)) hadd

/-! ## The flat table -/

/-- The entry of `flat` for the prefix `P`. -/
def flatAt (flat : List (Option UInt64)) (F P : Nat) : Option (Option UInt64) :=
  flat[revcode P F]?

theorem fill_spec {F lo : Nat} {x : UInt64} (hF : F ≤ 16) (hhi : lo + k ≤ 2 ^ F)
    (h : fill F x flat lo k = .ok flat') {P : Nat} (hP : P < 2 ^ F) :
    flatAt flat' F P = if lo ≤ P ∧ P < lo + k then some (some x) else flatAt flat F P := by
  induction k generalizing lo flat with
  | zero =>
    obtain rfl : flat = flat' := Except.ok.inj h
    rw [if_neg (by omega)]
  | succ k ih =>
    rw [fill, range'_succ, foldlM_cons] at h
    obtain ⟨flat1, hput, hrest⟩ := bind_eq_ok h
    rw [ih (by omega) hrest]
    obtain ⟨hlt, rfl⟩ := put_eq_ok hput
    by_cases hlo : P = lo
    · subst hlo
      rw [if_neg (by omega), if_pos (by omega), flatAt, getElem?_set_self hlt]
    have hne : revcode lo F ≠ revcode P F := fun heq =>
      hlo (revcode_inj (by omega) hP hF heq).symm
    have hset : flatAt (flat.set (revcode lo F) (some x)) F P = flatAt flat F P :=
      getElem?_set_ne hne
    rw [hset]
    split_ifs <;> first | rfl | omega

/-- Some code of length `b`, if there are any so far, has the prefix `P`, or begins right behind
it. -/
def Hits (lens : List Nat) (F P b : Nat) : Prop :=
  0 < limit (cnt lens) b ∧ first (cnt lens) b / 2 ^ (b - F) ≤ P ∧
    P ≤ (limit (cnt lens) b - 1) / 2 ^ (b - F)

/-- The lengths from `M` down to `B` are entered: the entry is the least length that hits. -/
def Hinted (lens : List Nat) (F M B : Nat) (flat : List (Option UInt64)) : Prop :=
  ∀ P < 2 ^ F,
    (∃ b₀, B < b₀ ∧ b₀ ≤ M ∧ Hits lens F P b₀ ∧ (∀ b, B < b → b ≤ M → Hits lens F P b → b₀ ≤ b) ∧
      flatAt flat F P = some (some (.ofNat ((b₀ <<< 8) ||| 0xff)))) ∨
    (∀ b, B < b → b ≤ M → ¬ Hits lens F P b) ∧ flatAt flat F P = some (some (-1))

theorem maxcodeOf_eq (h : 0 < limit (cnt lens) b) :
    maxcodeOf lens b = .ofNat (limit (cnt lens) b - 1) := by
  rw [maxcodeOf, UInt64.ofNat_sub h]
  rfl

section

variable (h : 0 < limit (cnt lens) b) (hfits : limit (cnt lens) b ≤ 2 ^ 16)
include h hfits

theorem maxcodeOf_toNat : (maxcodeOf lens b).toNat = limit (cnt lens) b - 1 := by
  rw [maxcodeOf_eq h, UInt64.toNat_ofNat_of_lt' (by rw [UInt64.size]; omega)]

theorem maxcodeOf_ne : maxcodeOf lens b ≠ -1 := by
  intro heq
  have := maxcodeOf_toNat h hfits
  rw [heq, show ((-1 : UInt64)).toNat = 2 ^ 64 - 1 from rfl] at this
  omega

end

/-- The bounds of the prefixes that the codes of a length have. -/
theorem prefix_bounds {F : Nat} (hF : F ≤ b) (hfits : limit (cnt lens) b ≤ 2 ^ b)
    (hpos : 0 < limit (cnt lens) b) :
    (limit (cnt lens) b - 1) / 2 ^ (b - F) < 2 ^ F ∧
      first (cnt lens) b / 2 ^ (b - F) ≤ (limit (cnt lens) b - 1) / 2 ^ (b - F) + 1 := by
  constructor
  · rw [Nat.div_lt_iff_lt_mul (Nat.two_pow_pos _), ← pow_add, Nat.add_sub_cancel' hF]
    omega
  · have hs := Nat.two_pow_pos (b - F)
    rw [← add_div_right _ hs]
    refine Nat.div_le_div_right ?_
    have := first_le_limit (cnt lens) b
    omega

theorem hints_spec {maxcode : List (Option UInt64)} {F M : Nat} (hM : M ≤ 16)
    (hcount : ∀ b ≤ M, bitcount.getD b 0 = cnt lens b)
    (hmax : ∀ b ≤ M, maxcode[b]? = some (some (maxcodeOf lens b)))
    (hfits : ∀ b ≤ M, limit (cnt lens) b ≤ 2 ^ b) (B : Nat) (hB : B ≤ M) (hFB : F ≤ B)
    (hflat : Hinted lens F M B flat) (h : hints bitcount maxcode F B flat = .ok flat') :
    Hinted lens F M F flat' := by
  induction B generalizing flat with
  | zero =>
    obtain rfl : flat = flat' := Except.ok.inj h
    obtain rfl : F = 0 := by omega
    exact hflat
  | succ b ih =>
    rw [hints] at h
    by_cases hlt : b + 1 > F
    · have hsmall : limit (cnt lens) (b + 1) ≤ 2 ^ 16 :=
        (hfits _ hB).trans (Nat.pow_le_pow_right (by decide) (by omega))
      rw [if_pos hlt, hmax _ hB] at h
      simp only [join_some] at h
      rcases Nat.eq_zero_or_pos (limit (cnt lens) (b + 1)) with hzero | hpos
      · -- there are no codes up to this length
        rw [if_pos (by rw [maxcodeOf, hzero]; rfl)] at h
        obtain rfl : flat = flat' := Except.ok.inj h
        have hnone : ∀ P b', b' ≤ b + 1 → ¬ Hits lens F P b' := by
          rintro P b' hb' ⟨hpos, -, -⟩
          have := limit_pos_of_le (cnt lens) hb' hpos
          omega
        intro P hP
        rcases hflat P hP with ⟨b₀, hlt0, hle0, hhits, hleast, hentry⟩ | ⟨hno, hentry⟩
        · refine Or.inl ⟨b₀, by omega, hle0, hhits, fun b' _ hle' hhits' => ?_, hentry⟩
          rcases lt_or_ge (b + 1) b' with hgt | hle
          · exact hleast b' hgt hle' hhits'
          · exact absurd hhits' (hnone P b' hle)
        · refine Or.inr ⟨fun b' _ hle' hhits' => ?_, hentry⟩
          rcases lt_or_ge (b + 1) b' with hgt | hle
          · exact hno b' hgt hle' hhits'
          · exact hnone P b' hle hhits'
      · rw [if_neg (maxcodeOf_ne hpos hsmall)] at h
        obtain ⟨flat1, hfill, hrest⟩ := bind_eq_ok h
        have hmin : (maxcodeOf lens (b + 1) + 1 - UInt64.ofNat (bitcount.getD (b + 1) 0)).toNat =
            first (cnt lens) (b + 1) := by
          have hle : cnt lens (b + 1) ≤ limit (cnt lens) (b + 1) := Nat.le_add_left _ _
          rw [hcount _ hB, maxcodeOf, UInt64.sub_add_cancel, ← UInt64.ofNat_sub hle,
            UInt64.toNat_ofNat_of_lt']
          · rw [limit, Nat.add_sub_cancel]
          · rw [UInt64.size]
            omega
        obtain ⟨hhi, hlo⟩ := prefix_bounds hlt.le (hfits _ hB) hpos
        rw [hmin, maxcodeOf_toNat hpos hsmall, shiftRight_eq_div_pow,
          shiftRight_eq_div_pow] at hfill
        refine ih (by omega) (by omega) ?_ hrest
        intro P hP
        have hentry := fill_spec (by omega) (by omega) hfill hP
        by_cases hhits : Hits lens F P (b + 1)
        · rw [if_pos ⟨hhits.2.1, by have := hhits.2.2; omega⟩] at hentry
          exact Or.inl ⟨b + 1, by omega, hB, hhits, fun b' hb' _ _ => hb', hentry⟩
        have hout : ¬ (first (cnt lens) (b + 1) / 2 ^ (b + 1 - F) ≤ P ∧
            P < first (cnt lens) (b + 1) / 2 ^ (b + 1 - F) +
              ((limit (cnt lens) (b + 1) - 1) / 2 ^ (b + 1 - F) + 1 -
                first (cnt lens) (b + 1) / 2 ^ (b + 1 - F))) := by
          rintro ⟨h1, h2⟩
          exact hhits ⟨hpos, h1, by omega⟩
        rw [if_neg hout] at hentry
        have hstep : ∀ b', b < b' → Hits lens F P b' → b + 1 < b' := by
          intro b' hb' hhits'
          rcases lt_or_ge (b + 1) b' with hgt | hle
          · exact hgt
          · obtain rfl : b' = b + 1 := by omega
            exact absurd hhits' hhits
        rw [hentry]
        rcases hflat P hP with ⟨b₀, hlt0, hle0, hhits0, hleast, hentry0⟩ | ⟨hno, hentry0⟩
        · exact Or.inl ⟨b₀, by omega, hle0, hhits0,
            fun b' hb' hle' hhits' => hleast b' (hstep b' hb' hhits') hle' hhits', hentry0⟩
        · exact Or.inr ⟨fun b' hb' hle' hhits' => hno b' (hstep b' hb' hhits') hle' hhits', hentry0⟩
    · rw [if_neg hlt] at h
      obtain rfl : flat = flat' := Except.ok.inj h
      obtain rfl : F = b + 1 := by omega
      exact hflat

/-! ## The symbols -/

/-- The strings that begin with the prefix `P` of `F` bits. -/
def withPrefix (F P : Nat) : Nat → Bool := fun k => P.testBit (F - 1 - k)

theorem value_withPrefix {F P : Nat} (hP : P < 2 ^ F) (hb : b ≤ F) :
    value (withPrefix F P) b = P / 2 ^ (F - b) := by
  have hall : value (withPrefix F P) F = P := value_testBit hP
  have hdiv := value_div (withPrefix F P) b (F - b)
  rw [Nat.add_sub_cancel' hb, hall] at hdiv
  exact hdiv.symm

/-- A short code is the beginning of `P`. -/
def Covers (lens : List Nat) (F P i b : Nat) : Prop :=
  lens[i]? = some b ∧ 0 < b ∧ b ≤ F ∧ P / 2 ^ (F - b) = code lens i

theorem Covers.inj {F P : Nat} (hP : P < 2 ^ F) (h : Covers lens F P i b)
    (h' : Covers lens F P j b') : i = j := by
  obtain ⟨hi, hb, hbF, hcode⟩ := h
  obtain ⟨hj, hb', hbF', hcode'⟩ := h'
  exact code_inj hi hj hb hb' ((value_withPrefix hP hbF).trans hcode)
    ((value_withPrefix hP hbF').trans hcode')

/-- Where `decode` has a symbol: those of one length are in reverse order. -/
def slot (lens : List Nat) (i : Nat) : Nat :=
  cum lens (lens.getD i 0) + (cnt lens (lens.getD i 0) - 1 - rank lens i)

theorem slot_eq (h : lens[i]? = some b) :
    slot lens i = cum lens b + (cnt lens b - 1 - rank lens i) := by
  rw [slot, getD_of_getElem? h]

theorem cum_mono {b : Nat} (h : b ≤ b') : cum lens b ≤ cum lens b' := by
  induction h with
  | refl => exact le_rfl
  | step _ ih =>
    rw [cum_succ]
    omega

theorem slot_inj (hi : lens[i]? = some b) (hj : lens[j]? = some b') (hb : 0 < b) (hb' : 0 < b')
    (h : slot lens i = slot lens j) : i = j := by
  have hri := rank_lt hi
  have hrj := rank_lt hj
  rw [slot_eq hi, slot_eq hj] at h
  rw [← cnt_of_pos hb] at hri
  rw [← cnt_of_pos hb'] at hrj
  have hsi := cum_succ lens b
  have hsj := cum_succ lens b'
  rcases lt_trichotomy b b' with hlt | rfl | hlt
  · have : cum lens (b + 1) ≤ cum lens b' := cum_mono hlt
    omega
  · exact rank_inj hi hj (by omega)
  · have : cum lens (b' + 1) ≤ cum lens b := cum_mono hlt
    omega

/-- The symbols before `m` are entered. -/
structure Entered (lens : List Nat) (F M minbits : Nat) (flat₀ : List (Option UInt64)) (m : Nat)
    (e : Entries) : Prop where
  length : e.nc.length = M + 1
  nc : ∀ b, 0 < b → b ≤ M → e.nc.getD b 0 = first (cnt lens) b + (lens.take m).count b
  short : ∀ i < m, ∀ b, ∀ P < 2 ^ F, Covers lens F P i b →
    flatAt e.flat F P = some (some (.ofNat ((i <<< 8) ||| b)))
  rest : ∀ P < 2 ^ F, (∀ i < m, ∀ b, ¬ Covers lens F P i b) → flatAt e.flat F P = flatAt flat₀ F P
  decode : ∀ i < m, ∀ b, lens[i]? = some b → minbits < b →
    e.decode[slot lens i]? = some (some (.ofNat i))

section

variable {M : Nat} (hM : M ≤ 16) (hfits : ∀ b ≤ M, limit (cnt lens) b ≤ 2 ^ b)
include hM hfits

theorem cum_le (hb : b ≤ M) : cum lens b ≤ b * 2 ^ 16 := by
  induction b with
  | zero => exact Nat.zero_le _
  | succ b ih =>
    have hcnt : cnt lens b ≤ limit (cnt lens) b := Nat.le_add_left _ _
    have hpow : 2 ^ b ≤ 2 ^ 16 := Nat.pow_le_pow_right (by decide) (by omega)
    have := hfits b (by omega)
    rw [cum_succ]
    omega

/-- The index that is computed for a symbol is its slot. -/
theorem lastOf_sub_code (hi : lens[i]? = some b) (hb : 0 < b) (hbM : b ≤ M) :
    (lastOf lens b - .ofNat (code lens i)).toNat = slot lens i := by
  have hlt := code_lt_limit hi hb
  have hcum := cum_le hM hfits hbM
  have hlimit := (hfits b hbM).trans (Nat.pow_le_pow_right (by decide) (show b ≤ 16 by omega))
  have hslot : slot lens i = cum lens b + (limit (cnt lens) b - 1) - code lens i := by
    have hrank := rank_lt hi
    rw [← cnt_of_pos hb] at hrank
    rw [slot_eq hi, code_eq hi, limit]
    omega
  rw [lastOf, maxcodeOf_eq (by omega), ← UInt64.ofNat_add, ← UInt64.ofNat_sub (by omega),
    UInt64.toNat_ofNat_of_lt' (by rw [UInt64.size]; omega), hslot]

end

section Entering

variable {F M minbits m : Nat} {e e' : Entries}

/-- A symbol without a code changes nothing. -/
theorem Entered.skip (h : Entered lens F M minbits flat₀ m e) (hm : lens[m]? = some 0) :
    Entered lens F M minbits flat₀ (m + 1) e := by
  have hlt : ∀ i < m + 1, ∀ b, lens[i]? = some b → 0 < b → i < m := by
    intro i hi b hb hpos
    rcases Nat.lt_succ_iff_lt_or_eq.mp hi with hlt | rfl
    · exact hlt
    · rw [hm] at hb
      cases hb
      omega
  refine ⟨h.length, ?_, ?_, ?_, ?_⟩
  · intro b hb hbM
    rw [h.nc b hb hbM, take_add_one, hm, count_append]
    simp [show 0 ≠ b by omega]
  · intro i hi b P hP hcov
    exact h.short i (hlt i hi b hcov.1 hcov.2.1) b P hP hcov
  · intro P hP hno
    exact h.rest P hP fun i hi b hcov => hno i (by omega) b hcov
  · intro i hi b hb hmin
    exact h.decode i (hlt i hi b hb (by omega)) b hb hmin

/-- The codes of the flat table: the prefixes that `m` covers are filled. -/
theorem fillFlat_spec (hF : F ≤ 16) (hm : lens[m]? = some b) (hb : 0 < b)
    (hrun : (if b ≤ F then
        let ec := (code lens m + 1) <<< (F - b)
        if ec > 1 <<< F then .error .rejected
        else
          let lo := code lens m <<< (F - b)
          fill F (.ofNat ((m <<< 8) ||| b)) e.flat lo (ec - lo)
      else (.ok e.flat : Except Stop _)) = .ok flat) :
    ∀ P < 2 ^ F, (Covers lens F P m b ∧ flatAt flat F P = some (some (.ofNat ((m <<< 8) ||| b)))) ∨
      ¬ Covers lens F P m b ∧ flatAt flat F P = flatAt e.flat F P := by
  intro P hP
  obtain ⟨x, hx⟩ : ∃ x, x = UInt64.ofNat ((m <<< 8) ||| b) := ⟨_, rfl⟩
  rw [← hx] at hrun ⊢
  by_cases hbF : b ≤ F
  · rw [if_pos hbF] at hrun
    simp only [shiftLeft_eq, one_mul] at hrun
    split_ifs at hrun with hec
    have hpos := Nat.two_pow_pos (F - b)
    have hspan : (code lens m + 1) * 2 ^ (F - b) = code lens m * 2 ^ (F - b) + 2 ^ (F - b) :=
      succ_mul _ _
    have hentry := fill_spec hF (by omega) hrun hP
    have hiff : Covers lens F P m b ↔ code lens m * 2 ^ (F - b) ≤ P ∧
        P < code lens m * 2 ^ (F - b) + ((code lens m + 1) * 2 ^ (F - b) -
          code lens m * 2 ^ (F - b)) := by
      rw [Covers, Nat.div_eq_iff hpos]
      constructor
      · rintro ⟨-, -, -, h1⟩
        omega
      · intro h1
        exact ⟨hm, hb, hbF, by omega⟩
    by_cases hcov : Covers lens F P m b
    · rw [if_pos (hiff.mp hcov)] at hentry
      exact Or.inl ⟨hcov, hentry⟩
    · rw [if_neg fun hin => hcov (hiff.mpr hin)] at hentry
      exact Or.inr ⟨hcov, hentry⟩
  · rw [if_neg hbF] at hrun
    cases hrun
    exact Or.inr ⟨fun hcov => hbF hcov.2.2.1, rfl⟩

/-- **One symbol is entered.** -/
theorem Entered.add {last : List (Option UInt64)} {maxleaf : Nat} (hF : F ≤ 16) (hM : M ≤ 16)
    (hfits : ∀ b ≤ M, limit (cnt lens) b ≤ 2 ^ b)
    (hlast : ∀ b ≤ M, last[b]? = some (some (lastOf lens b)))
    (h : Entered lens F M minbits flat₀ m e) (hx : 0 ≤ x) (hxM : x.toNat ≤ M)
    (hm : lens[m]? = some x.toNat) (hadd : e.add last maxleaf F minbits (m, x) = .ok e') :
    Entered lens F M minbits flat₀ (m + 1) e' := by
  rw [Entries.add] at hadd
  simp only at hadd
  by_cases hx0 : x ≤ 0
  · rw [if_pos hx0] at hadd
    cases hadd
    obtain rfl : x = 0 := by omega
    exact h.skip hm
  · rw [if_neg hx0] at hadd
    obtain ⟨b, hb⟩ : ∃ b, b = x.toNat := ⟨_, rfl⟩
    have hpos : 0 < b := by omega
    rw [← hb] at hadd hm hxM
    have hc : e.nc.getD b 0 = code lens m := by rw [h.nc b hpos hxM, code_eq hm, rank_eq hm]
    rw [hc] at hadd
    obtain ⟨flat, hflat, hadd⟩ := bind_eq_ok hadd
    have hfilled := fillFlat_spec hF hm hpos hflat
    have hnc : ∀ b', 0 < b' → b' ≤ M → (e.nc.modify b (· + 1)).getD b' 0 =
        first (cnt lens) b' + (lens.take (m + 1)).count b' := by
      intro b' hb' hbM'
      have hold := h.nc b' hb' hbM'
      have hlen := h.length
      obtain ⟨y, hy⟩ : ∃ y, e.nc[b']? = some y := ⟨_, getElem?_eq_getElem (by omega)⟩
      rw [getD_eq_getElem?_getD, hy, getD_some] at hold
      rw [getD_eq_getElem?_getD, getElem?_modify, hy, take_add_one, hm, count_append]
      by_cases heq : b = b'
      · simp [heq, hold, add_assoc]
      · simp [heq, hold]
    have hshort : ∀ i < m + 1, ∀ b', ∀ P < 2 ^ F, Covers lens F P i b' →
        flatAt flat F P = some (some (.ofNat ((i <<< 8) ||| b'))) := by
      intro i hi b' P hP hcov
      rcases Nat.lt_succ_iff_lt_or_eq.mp hi with hlt | rfl
      · rcases hfilled P hP with ⟨hcovm, -⟩ | ⟨-, hentry⟩
        · exact absurd (hcov.inj hP hcovm) (by omega)
        · rw [hentry]
          exact h.short i hlt b' P hP hcov
      · obtain rfl : b = b' := some.inj (hm.symm.trans hcov.1)
        rcases hfilled P hP with ⟨-, hentry⟩ | ⟨hno, -⟩
        · exact hentry
        · exact absurd hcov hno
    have hrest : ∀ P < 2 ^ F, (∀ i < m + 1, ∀ b', ¬ Covers lens F P i b') →
        flatAt flat F P = flatAt flat₀ F P := by
      intro P hP hno
      rcases hfilled P hP with ⟨hcov, -⟩ | ⟨-, hentry⟩
      · exact absurd hcov (hno m (by omega) b)
      · rw [hentry]
        exact h.rest P hP fun i hi b' hcov => hno i (by omega) b' hcov
    have hlength : (e.nc.modify b (· + 1)).length = M + 1 := by rw [length_modify, h.length]
    by_cases hmin : b > minbits
    · rw [if_pos hmin, hlast b hxM] at hadd
      simp only [join_some] at hadd
      split_ifs at hadd with hleaf
      obtain ⟨decode, hput, hadd⟩ := bind_eq_ok hadd
      cases hadd
      rw [lastOf_sub_code hM hfits hm hpos hxM] at hput
      obtain ⟨hlt, rfl⟩ := put_eq_ok hput
      refine ⟨hlength, hnc, hshort, hrest, ?_⟩
      intro i hi b' hb' hmin'
      rcases Nat.lt_succ_iff_lt_or_eq.mp hi with hlt' | rfl
      · have hne : slot lens m ≠ slot lens i := fun heq =>
          absurd (slot_inj hm hb' hpos (by omega) heq) (by omega)
        rw [getElem?_set_ne hne]
        exact h.decode i hlt' b' hb' hmin'
      · exact getElem?_set_self hlt
    · rw [if_neg hmin] at hadd
      cases hadd
      refine ⟨hlength, hnc, hshort, hrest, ?_⟩
      intro i hi b' hb' hmin'
      rcases Nat.lt_succ_iff_lt_or_eq.mp hi with hlt' | rfl
      · exact h.decode i hlt' b' hb' hmin'
      · obtain rfl : b = b' := some.inj (hm.symm.trans hb')
        omega

end Entering

/-! ## All of it -/

/-- What `hufftab` makes of the lengths `lens`, of which `M` is the greatest: `flat` is indexed by
`F` bits. -/
structure Table (lens : List Nat) (F M : Nat) (h : Huff) : Prop where
  le : F ≤ M
  le_16 : M ≤ 16
  longest : ∀ b ∈ lens, b ≤ M
  fits : ∀ b ≤ M, limit (cnt lens) b ≤ 2 ^ b
  nonempty : 0 < limit (cnt lens) M
  maxbits : h.maxbits = M
  flatmask : h.flatmask = 2 ^ F - 1
  minbits_le : h.minbits ≤ F
  minbits : ∀ b ∈ lens, b ≠ 0 → h.minbits ≤ b
  maxcode : ∀ b ≤ M, h.maxcode[b]? = some (some (maxcodeOf lens b))
  last : ∀ b ≤ M, h.last[b]? = some (some (lastOf lens b))
  short : ∀ i b, ∀ P < 2 ^ F, Covers lens F P i b →
    flatAt h.flat F P = some (some (.ofNat ((i <<< 8) ||| b)))
  long : ∀ P < 2 ^ F, (∀ i b, ¬ Covers lens F P i b) →
    (∃ b₀, F < b₀ ∧ b₀ ≤ M ∧ Hits lens F P b₀ ∧ (∀ b, F < b → b ≤ M → Hits lens F P b → b₀ ≤ b) ∧
      flatAt h.flat F P = some (some (.ofNat ((b₀ <<< 8) ||| 0xff)))) ∨
    (∀ b, F < b → b ≤ M → ¬ Hits lens F P b) ∧ flatAt h.flat F P = some (some (-1))
  decode : ∀ i b, lens[i]? = some b → F < b → h.decode[slot lens i]? = some (some (.ofNat i))

theorem clear_spec {n : Nat}
    (h : (range n).foldlM (fun flat i => put flat i (-1)) flat₀ = .ok flat) :
    ∀ i < n, flat[i]? = some (some (-1)) := by
  have hrun := foldlM_induct
    (fun pre (flat : List (Option UInt64)) => ∀ i < pre.length, flat[i]? = some (some (-1))) h ?_ ?_
  · simpa using hrun
  · simp
  · intro pre x post s s' hl hs hput
    obtain ⟨rfl, -⟩ := eq_length_of_range hl
    rw [length_append]
    exact filled_put hs hput

theorem swapped_getElem? {pre post : List (Nat × Int)} {i : Nat}
    (h : hb.zipIdx.map Prod.swap = pre ++ (i, x) :: post) : i = pre.length ∧ hb[i]? = some x := by
  have hget : (hb.zipIdx.map Prod.swap)[pre.length]? = some (i, x) := by
    rw [h, getElem?_append_right le_rfl, Nat.sub_self]
    rfl
  rw [getElem?_map, getElem?_zipIdx, Option.map_map, Option.map_eq_some_iff] at hget
  obtain ⟨y, hy, heq⟩ := hget
  simp only [Function.comp, Prod.swap_prod_mk, Prod.mk.injEq, zero_add] at heq
  obtain ⟨rfl, rfl⟩ := heq
  exact ⟨rfl, hy⟩

/-- **`hufftab` builds the tables.** -/
theorem hufftab_spec {flatbits : Nat} {h : Huff} (hrun : hufftab hb flatbits = .ok h)
    (hne : ∃ x ∈ hb, x ≠ 0) : ∃ M, Table (hb.map Int.toNat) (min flatbits M) M h := by
  obtain ⟨lens, hlens⟩ : ∃ lens, lens = hb.map Int.toNat := ⟨_, rfl⟩
  obtain ⟨t, ht, hrun⟩ := bind_eq_ok hrun
  have tallied := tally_spec ht
  rw [← hlens]
  obtain ⟨x, hx, hx0⟩ := hne
  have hxrange := tallied.range x hx
  have hxmax := tallied.le_max x hx hx0
  have hmaxmem : 0 < t.maxbits ∧ t.maxbits ∈ hb := by
    rcases tallied.max with hmax | hmax
    · omega
    · exact hmax
  rw [if_neg (by omega)] at hrun
  obtain ⟨M, hM⟩ : ∃ M, M = t.maxbits.toNat := ⟨_, rfl⟩
  have hM16 : M ≤ 16 := by
    have := (tallied.range _ hmaxmem.2).2
    rw [MaxHuffBits] at this
    omega
  rw [← hM] at hrun
  obtain ⟨r, hr, hrun⟩ := bind_eq_ok hrun
  have hcount : ∀ b ≤ M, t.bitcount.getD b 0 = cnt lens b := by
    intro b hb
    rw [hlens]
    exact tallied.count b (by rw [MaxHuffBits]; omega)
  have ranged := ranges_spec hcount hr
  have hfits : ∀ b ≤ M, limit (cnt lens) b ≤ 2 ^ b := fun b hb => ranged.fits b (by omega)
  have hF : (if flatbits > M then M else flatbits) = min flatbits M := by
    split_ifs <;> omega
  obtain ⟨F, hFdef⟩ : ∃ F, F = min flatbits M := ⟨_, rfl⟩
  rw [hF, ← hFdef] at hrun
  refine ⟨M, ?_⟩
  rw [← hFdef]
  obtain ⟨flat1, hclear, hrun⟩ := bind_eq_ok hrun
  obtain ⟨flat2, hhints, hrun⟩ := bind_eq_ok hrun
  obtain ⟨e, hentries, hrun⟩ := bind_eq_ok hrun
  cases hrun
  have hstart : Hinted lens F M M flat1 := by
    intro P hP
    refine Or.inr ⟨fun b hb hbM => absurd hbM (by omega), ?_⟩
    rw [shiftLeft_eq, one_mul] at hclear
    exact clear_spec hclear _ (revcode_lt hP (by omega))
  have hinted := hints_spec hM16 hcount (fun b hb => ranged.maxcode b (by omega)) hfits M
    le_rfl (by omega) hstart hhints
  have hlongest : ∀ b ∈ lens, b ≤ M := by
    intro b hb
    rw [hlens] at hb
    obtain ⟨y, hy, rfl⟩ := List.mem_map.mp hb
    by_cases hy0 : y = 0
    · rw [hy0]
      exact Nat.zero_le _
    · have := tallied.le_max y hy hy0
      omega
  have entered := foldlM_induct (fun pre e => Entered lens F M
    (if t.minbits.toNat > F then F else t.minbits.toNat) flat2 pre.length e) hentries ?_ ?_
  · have hlen : (hb.zipIdx.map Prod.swap).length = lens.length := by simp [hlens]
    rw [hlen] at entered
    have hbound : ∀ i b, lens[i]? = some b → i < lens.length := fun i b hi =>
      (List.getElem?_eq_some_iff.mp hi).1
    have hmemM : M ∈ lens := by
      rw [hlens, hM]
      exact List.mem_map_of_mem hmaxmem.2
    refine
      { le := by omega, le_16 := hM16, longest := hlongest, fits := hfits, nonempty := ?_,
        maxbits := rfl, flatmask := ?_, minbits_le := ?_, minbits := ?_,
        maxcode := fun b hb => ranged.maxcode b (by omega),
        last := fun b hb => ranged.last b (by omega),
        short := fun i b P hP hcov => entered.short i (hbound i b hcov.1) b P hP hcov,
        long := ?_, decode := ?_ }
    · have hcnt : 0 < cnt lens M := by
        rw [cnt_of_pos (by omega)]
        exact List.count_pos_iff.mpr hmemM
      rw [limit]
      omega
    · simp only [shiftLeft_eq, one_mul]
    · simp only
      split_ifs <;> omega
    · intro b hb hb0
      rw [hlens] at hb
      obtain ⟨y, hy, rfl⟩ := List.mem_map.mp hb
      have := tallied.min_le y hy (by rintro rfl; exact hb0 rfl)
      simp only
      split_ifs <;> omega
    · intro P hP hno
      simp only [entered.rest P hP fun i _ b hcov => hno i b hcov]
      exact hinted P hP
    · intro i b hi hFb
      refine entered.decode i (hbound i b hi) b hi ?_
      split_ifs <;> omega
  · refine ⟨?_, ?_, ?_, fun P hP _ => rfl, ?_⟩
    · simp [ranged.nc]
    · intro b hb hbM
      simp [ranged.nc, List.getD_eq_getElem?_getD, List.getElem?_range (show b < M + 1 by omega)]
    · intro i hi
      simp at hi
    · intro i hi
      simp at hi
  · rintro pre ⟨i, x⟩ post s s' hl hs hadd
    obtain ⟨rfl, hget⟩ := swapped_getElem? hl
    have hxmem := List.mem_of_getElem? hget
    have hi : lens[pre.length]? = some x.toNat := by
      rw [hlens, List.getElem?_map, hget]
      rfl
    rw [List.length_append]
    exact hs.add (by omega) hM16 hfits (fun b hb => ranged.last b (by omega))
      (tallied.range x hxmem).1 (hlongest _ (List.mem_of_getElem? hi)) hi hadd

end Plan9Port.Flate
