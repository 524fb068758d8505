import Mathlib.Data.List.Nodup
import Plan9Port.Diff.Stone
import Plan9Port.Lib.Lcs

/-!
# The match vector

The candidates for the first lines of the first file tell which lengths the common subsequences
have, for all beginnings of the second one. The last candidate stands for a longest one, and with
the equal ends of the files it is the match vector.

## Main definitions

* `Matching`: what a match vector is
* `Longest`: the invariant of the outer loop of `stone`

## Main results

* `stone_spec`: the candidates stand for longest common subsequences
* `Unraveled.matching`: what `unravel` makes is a match vector
* `matched_lcs`: it matches as many lines as a longest common subsequence has
-/

namespace Plan9Port.Diff

open Lib List
open Function

/-! ## The outer loop of stone -/

section Stone

variable {as bs : List Int} {m : Nat} {s : Klist}

/-- The line `y` of the second file has the hash of the line `x` of the first one. -/
def Mates (as bs : List Int) (x y : Nat) : Prop := 1 ≤ y ∧ y ≤ bs.length ∧ bs[y - 1]? = as[x - 1]?

/-- The candidates stand for the longest common subsequences of the lines before `i`. -/
structure Longest (as bs : List Int) (i : Nat) (s : Klist) : Prop where
  cands : Candidates (Mates as bs) i s
  common : ∀ l Y : Nat, 1 ≤ l → (l ≤ s.k ∧ s.y l ≤ Y ↔ Common (as.take (i - 1)) (bs.take Y) l)

theorem Longest.init (as bs : List Int) : Longest as bs 1 Klist.init := by
  have hpath : Path (Mates as bs) 1 Klist.init 0 :=
    ⟨[], .nil rfl, rfl, Pairwise.nil, fun p hp => by cases hp⟩
  refine ⟨⟨rfl, fun l hl => absurd hl (Nat.not_lt_zero l), fun l hl => ?_, by decide⟩,
    fun l Y hl => ?_⟩
  · obtain rfl : l = 0 := Nat.le_zero.mp hl
    exact hpath
  refine iff_of_false (fun h => ?_) fun h => ?_
  · have : l ≤ 0 := h.1
    omega
  · have := h.le_length
    simp at this
    omega

/-- A line for which the candidates are compared with all its mates. -/
theorem Longest.line {i : Nat} {s' : Klist} (h : Longest as bs i s) {v : Int} (hi : 1 ≤ i)
    (hv : as[i - 1]? = some v) (hs' : Candidates (Mates as bs) (i + 1) s') (ys : List Nat)
    (hys : ∀ y, y ∈ ys ↔ Mates as bs i y)
    (hreached : ∀ l (Y : Int), 1 ≤ l → (l ≤ s'.k ∧ s'.y l ≤ Y ↔ Reached s ys l Y)) :
    Longest as bs (i + 1) s' := by
  refine ⟨hs', fun l Y hl => ?_⟩
  obtain _ | l := l
  · omega
  obtain _ | i := i
  · omega
  have hcommon := h.common
  simp only [Nat.add_sub_cancel] at hv hcommon ⊢
  rw [hreached _ _ hl, common_take_succ hv, ← hcommon _ _ hl]
  -- the length before can be reached with nothing, or by a candidate
  have hbefore : ∀ y : Nat, l ≤ s.k ∧ s.y l ≤ y ↔ Common (as.take i) (bs.take y) l := by
    intro y
    rcases Nat.eq_zero_or_pos l with rfl | hpos
    · refine iff_of_true ⟨Nat.zero_le _, ?_⟩ (common_zero _ _)
      rw [h.cands.zero]
      exact_mod_cast Nat.zero_le y
    · exact hcommon l y hpos
  refine or_congr Iff.rfl ?_
  constructor
  · rintro ⟨y, hy, hyY, hlk, hlt⟩
    obtain ⟨hpos, hle, heq⟩ := (hys y).mp hy
    rw [Nat.add_sub_cancel, hv] at heq
    refine ⟨y - 1, by omega, heq, (hbefore _).mp ⟨hlk, ?_⟩⟩
    simp only [Nat.add_sub_cancel] at hlt
    omega
  · rintro ⟨y, hyY, heq, hcommon⟩
    obtain ⟨hlk, hle⟩ := (hbefore y).mpr hcommon
    have hlen := (List.getElem?_eq_some_iff.mp heq).1
    refine ⟨y + 1, (hys _).mpr ⟨by omega, by omega, ?_⟩, by omega, hlk, ?_⟩
    · rw [Nat.add_sub_cancel, Nat.add_sub_cancel, heq, hv]
    · simp only [Nat.add_sub_cancel]
      push_cast
      omega

theorem stone_spec {a b : Nat → Int} {w : Nat → Int}
    (hw : ∀ y, 1 ≤ y → y ≤ bs.length → bs[y - 1]? = some (w y))
    (hclass : ∀ x v, 1 ≤ x → as[x - 1]? = some v → IsClass w bs.length b v (a x)) (count : Nat)
    {i : Nat} (hi : 1 ≤ i) (hcount : i + count ≤ as.length + 1) (h : Longest as bs i s) :
    Longest as bs (i + count) (stone a bs.length b count i s) := by
  induction count generalizing i s with
  | zero => exact h
  | succ count ih =>
    obtain ⟨v, hv⟩ : ∃ v, as[i - 1]? = some v :=
      ⟨_, getElem?_eq_getElem (by omega : i - 1 < as.length)⟩
    have hmates : ∀ y, Mates as bs i y ↔ 1 ≤ y ∧ y ≤ bs.length ∧ w y = v := by
      intro y
      refine and_congr_right fun hy => and_congr_right fun hyl => ?_
      rw [hw y hy hyl, hv, Option.some_inj]
    rw [stone, ← Nat.add_assoc, Nat.add_right_comm]
    refine ih (by omega) (by omega) ?_
    rcases hclass i v hi hv with ⟨hzero, hno⟩ | ⟨t, ht, hat, y, ys, hb, hreads, hsorted, hlen, hmem⟩
    · rw [if_pos hzero]
      refine h.line hi hv ⟨h.cands.zero, h.cands.incr,
        fun l hl => (h.cands.paths l hl).mono (Nat.le_succ i), h.cands.bound⟩ []
        (fun y => ?_) fun l Y _ => ?_
      · rw [hmates]
        refine iff_of_false (fun h => by cases h) fun h => hno y h.1 h.2.1 h.2.2
      · simp [Reached]
    · have hne : a i ≠ 0 := by omega
      have hat' : (a i).toNat = t := by omega
      have hpos : 0 < y := ((hmem y).mp (.head _)).1
      rw [if_neg hne, hat', hb, Int.neg_neg]
      obtain ⟨hcands, hreached⟩ := h.cands.stoneLine (bs.length + 1) hi hpos hreads hsorted
        (fun y' hy' => (hmates y').mpr ((hmem y').mp hy')) (by omega)
      exact h.line hi hv hcands _ (fun y' => (hmem y').trans (hmates y').symm) hreached

/-- The last candidate stands for a longest common subsequence. -/
theorem Longest.isLcs (h : Longest as bs (as.length + 1) s) : IsLcs as bs s.k := by
  have hcommon := h.common
  rw [Nat.add_sub_cancel, take_length] at hcommon
  refine ⟨?_, fun l hl => ?_⟩
  · rcases Nat.eq_zero_or_pos s.k with hk | hk
    · rw [hk]
      exact common_zero _ _
    · have hreach := (hcommon s.k (s.y s.k).toNat hk).mp ⟨le_rfl, Int.self_le_toNat _⟩
      exact hreach.mono (Sublist.refl _) (take_sublist _ _)
  · rcases Nat.eq_zero_or_pos l with rfl | hpos
    · exact Nat.zero_le _
    · rw [← take_length (l := bs)] at hl
      exact ((hcommon l bs.length hpos).mpr hl).1

end Stone

/-! ## unravel -/

variable {ps : List (Nat × Nat)} {hashes : List Int}

theorem unravel_spec {clist : List Cand} (pref : Nat) {p : Nat} (hchain : Chain clist p ps)
    (hps : ps.Pairwise fun p q => q.1 < p.1 ∧ q.2 < p.2) (fuel : Nat) (hfuel : ps.length ≤ fuel)
    (J : Nat → Int) :
    (∀ q ∈ ps, unravel clist pref fuel p J (q.1 + pref) = q.2 + pref) ∧
      ∀ x, (∀ q ∈ ps, q.1 + pref ≠ x) → unravel clist pref fuel p J x = J x := by
  induction fuel generalizing p ps J with
  | zero =>
    obtain rfl : ps = [] := length_eq_zero_iff.mp (Nat.le_zero.mp hfuel)
    exact ⟨fun q hq => absurd hq not_mem_nil, fun x _ => rfl⟩
  | succ fuel ih =>
    rw [unravel]
    cases hchain with
    | nil hp =>
      have hcand : cand clist p = ⟨0, 0, 0⟩ := by
        rw [cand, getD_eq_getElem?_getD, hp]
        rfl
      rw [hcand]
      exact ⟨fun q hq => absurd hq not_mem_nil, fun x _ => rfl⟩
    | @cons _ pred x y ps hp hy hrest =>
      have hcand : cand clist p = ⟨x, y, pred⟩ := by
        rw [cand, getD_eq_getElem?_getD, hp]
        rfl
      obtain ⟨hbefore, hps'⟩ := pairwise_cons.mp hps
      rw [hcand]
      dsimp only
      rw [if_pos (by exact_mod_cast hy.ne')]
      obtain ⟨hin, hout⟩ := ih hrest hps' (by simpa using hfuel) (update J (x + pref) (y + pref))
      refine ⟨fun q hq => ?_, fun x' hx' => ?_⟩
      · rcases mem_cons.mp hq with rfl | hmem
        · rw [hout, update_self]
          intro q hq'
          have := (hbefore q hq').1
          dsimp only at this
          omega
        · exact hin q hmem
      · rw [hout x' fun q hq => hx' q (.tail _ hq), update_of_ne (hx' _ (.head _)).symm]

/-- Of two pairs, the one with the smaller line of the first file has the smaller one of the
second. -/
theorem pairs_lt (hps : ps.Pairwise fun p q => q.1 < p.1 ∧ q.2 < p.2) {p q : Nat × Nat}
    (hp : p ∈ ps) (hq : q ∈ ps) (hlt : p.1 < q.1) : p.2 < q.2 := by
  induction ps with
  | nil => cases hp
  | cons r ps ih =>
    obtain ⟨hbefore, hps'⟩ := pairwise_cons.mp hps
    rcases mem_cons.mp hp with rfl | hp' <;> rcases mem_cons.mp hq with rfl | hq'
    · exact absurd hlt (Nat.lt_irrefl _)
    · exact absurd hlt (Nat.lt_asymm (hbefore q hq').1)
    · exact (hbefore p hp').2
    · exact ih hps' hp' hq'

/-! ## The match vector -/

/-- The lines between equal ends. -/
def middle (hashes : List Int) (p q : Nat) : List Int :=
  (hashes.drop p).take (hashes.length - p - q)

theorem length_middle (hashes : List Int) (p q : Nat) :
    (middle hashes p q).length = hashes.length - p - q := by
  rw [middle, length_take, length_drop, Nat.min_eq_left (Nat.sub_le _ _)]

theorem getElem?_middle {p q x : Nat} (hx : 1 ≤ x) (hxn : x ≤ hashes.length - p - q) :
    (middle hashes p q)[x - 1]? = hashes[p + x - 1]? := by
  rw [middle, getElem?_take_of_lt (by omega), getElem?_drop]
  congr 1
  omega

theorem getElem?_file {i : Nat} (hi : 1 ≤ i) (hil : i ≤ hashes.length) :
    hashes[i - 1]? = some (file hashes i) := by
  have hlt : i - 1 < hashes.length := by omega
  rw [file, getD_eq_getElem?_getD, getElem?_eq_getElem hlt]
  rfl

/-- What a match vector is: the lines that it matches are equal, and in the same order. -/
structure Matching {α : Type} (lines lines' : List α) (J : Nat → Int) : Prop where
  increasing : ∀ i i', 1 ≤ i → i < i' → i' ≤ lines.length → J i ≠ 0 → J i' ≠ 0 → J i < J i'
  equal : ∀ i, 1 ≤ i → i ≤ lines.length → J i ≠ 0 → ∃ j : Nat, J i = j ∧ 1 ≤ j ∧
    j ≤ lines'.length ∧ lines[i - 1]? = lines'[j - 1]?

/-- How the match vector is made of the equal ends and of a chain of candidates. -/
structure Unraveled (hashes hashes' : List Int) (p q : Nat) (ps : List (Nat × Nat))
    (J : Nat → Int) : Prop where
  le : p + q ≤ hashes.length
  le' : p + q ≤ hashes'.length
  prefix_eq : ∀ i, 1 ≤ i → i ≤ p → hashes[i - 1]? = hashes'[i - 1]?
  suffix_eq : ∀ i, i < q → hashes[hashes.length - i - 1]? = hashes'[hashes'.length - i - 1]?
  lcs : IsLcs (middle hashes p q) (middle hashes' p q) ps.length
  pairs : ps.Pairwise fun r r' => r'.1 < r.1 ∧ r'.2 < r.2
  mates : ∀ r ∈ ps, (1 ≤ r.1 ∧ r.1 ≤ hashes.length - p - q) ∧
    (1 ≤ r.2 ∧ r.2 ≤ hashes'.length - p - q) ∧ hashes'[p + r.2 - 1]? = hashes[p + r.1 - 1]?
  first : ∀ i, i ≤ p → J i = i
  last : ∀ i, hashes.length - q < i → J i = i + hashes'.length - hashes.length
  matched : ∀ r ∈ ps, J (r.1 + p) = r.2 + p
  unmatched : ∀ i, p < i → i ≤ hashes.length - q → (∀ r ∈ ps, r.1 + p ≠ i) → J i = 0

theorem matched_unraveled (hashes hashes' : List Int) (hne : ∀ h ∈ hashes', h ≠ 0) :
    ∃ p q ps, Unraveled hashes hashes' p q ps (matched hashes hashes') := by
  obtain ⟨p, q, hprune, hle, hle', hpre, hsuf⟩ :=
    prune_spec (file hashes) (file hashes') hashes.length hashes'.length
  have hlen := length_middle hashes p q
  have hlen' := length_middle hashes' p q
  -- the files without their equal ends
  have hv : ∀ x, 1 ≤ x → x ≤ hashes.length - p - q →
      (middle hashes p q)[x - 1]? = some (file hashes (p + x)) := by
    intro x hx hxn
    rw [getElem?_middle hx hxn, getElem?_file (by omega) (by omega)]
  have hw : ∀ y, 1 ≤ y → y ≤ (middle hashes' p q).length →
      (middle hashes' p q)[y - 1]? = some (file hashes' (p + y)) := by
    intro y hy hym
    rw [getElem?_middle hy (by omega), getElem?_file (by omega) (by omega)]
  have hnonzero : ∀ y, 1 ≤ y → y ≤ hashes'.length - p - q → file hashes' (p + y) ≠ 0 := by
    intro y hy hym
    exact hne _ (List.mem_of_getElem? (getElem?_file (by omega) (by omega)))
  rw [matched, hprune]
  dsimp only
  obtain ⟨b, hb⟩ : ∃ b, b = sort (sfile (file hashes') p) (hashes'.length - p - q) := ⟨_, rfl⟩
  obtain ⟨a, ha⟩ : ∃ a, a = equiv (hashes.length - p - q) (hashes'.length - p - q) b
    (hashes.length - p - q + (hashes'.length - p - q)) 1 1
    (sort (sfile (file hashes) p) (hashes.length - p - q)) := ⟨_, rfl⟩
  obtain ⟨c, hc⟩ : ∃ c, c = member (hashes'.length - p - q)
    (update b (hashes'.length - p - q + 1) { b (hashes'.length - p - q + 1) with value := 0 })
    (hashes'.length - p - q + 1) 1 fun _ => 0 := ⟨_, rfl⟩
  obtain ⟨cls, hcls⟩ : ∃ cls, cls = unsort a (hashes.length - p - q) 1 fun _ => 0 := ⟨_, rfl⟩
  rw [← hb, ← ha, ← hc, ← hcls]
  have hclass : ∀ x v, 1 ≤ x → (middle hashes p q)[x - 1]? = some v →
      IsClass (fun y => file hashes' (p + y)) (middle hashes' p q).length c v (cls x) := by
    intro x v hx hxv
    have hxn : x ≤ hashes.length - p - q := by
      have := (List.getElem?_eq_some_iff.mp hxv).1
      omega
    obtain rfl := Option.some.inj ((hv x hx hxn).symm.trans hxv)
    rw [hlen']
    exact classes_spec (fun x => file hashes (p + x)) (fun y => file hashes' (p + y)) _ _ hnonzero
      hb ha hc hcls hx hxn
  have hstone := stone_spec hw hclass (hashes.length - p - q) le_rfl (by omega)
    (Longest.init _ _)
  rw [hlen', Nat.add_comm 1] at hstone
  obtain ⟨s, hs⟩ : ∃ s, s = stone cls (hashes'.length - p - q) c (hashes.length - p - q) 1
    Klist.init := ⟨_, rfl⟩
  rw [← hs] at hstone ⊢
  obtain ⟨ps, hchain, hk, hpairs, hmates⟩ := hstone.cands.paths s.k le_rfl
  obtain ⟨hin, hout⟩ := unravel_spec p hchain hpairs s.clist.length
    (by rw [hk]; exact hstone.cands.bound.le) (ends hashes.length hashes'.length p q)
  have hmates' : ∀ r ∈ ps, (1 ≤ r.1 ∧ r.1 ≤ hashes.length - p - q) ∧
      (1 ≤ r.2 ∧ r.2 ≤ hashes'.length - p - q) ∧
      hashes'[p + r.2 - 1]? = hashes[p + r.1 - 1]? := by
    intro r hr
    obtain ⟨hx, hxn, -, hy, hym, heq⟩ := hmates r hr
    rw [getElem?_middle hy (by omega), getElem?_middle hx (by omega)] at heq
    exact ⟨⟨hx, by omega⟩, ⟨hy, by omega⟩, heq⟩
  refine ⟨p, q, ps, hle, hle', fun i hi hip => ?_, fun i hi => ?_, ?_, hpairs, hmates',
    fun i hi => ?_, fun i hi => ?_, hin, fun i hi hi' hno => ?_⟩
  · rw [getElem?_file hi (by omega), getElem?_file hi (by omega)]
    have := hpre (i - 1) (by omega)
    rw [Nat.sub_add_cancel hi] at this
    rw [this]
  · rw [getElem?_file (by omega) (by omega), getElem?_file (by omega) (by omega), hsuf i hi]
  · rw [hk]
    rw [← hlen] at hstone
    exact hstone.isLcs
  · rw [hout i fun r hr => by have := (hmates' r hr).1; omega, ends, if_pos hi]
  · rw [hout i fun r hr => by have := (hmates' r hr).1; omega, ends, if_neg (by omega), if_pos hi]
  · rw [hout i hno, ends, if_neg (by omega), if_neg (by omega)]

section Unraveled

variable {hashes' : List Int} {p q : Nat} {J : Nat → Int}

/-- A line is in one of the equal ends, or it is matched by the chain, or it is not matched. -/
theorem Unraveled.cases (h : Unraveled hashes hashes' p q ps J) {i : Nat} (hJ : J i ≠ 0) :
    (i ≤ p ∧ J i = i) ∨ (hashes.length - q < i ∧ J i = i + hashes'.length - hashes.length) ∨
      ∃ r ∈ ps, i = r.1 + p ∧ J i = r.2 + p := by
  by_cases hp : i ≤ p
  · exact .inl ⟨hp, h.first i hp⟩
  by_cases hq : hashes.length - q < i
  · exact .inr (.inl ⟨hq, h.last i hq⟩)
  by_cases hr : ∃ r ∈ ps, r.1 + p = i
  · obtain ⟨r, hr, rfl⟩ := hr
    exact .inr (.inr ⟨r, hr, rfl, h.matched r hr⟩)
  · have hno : ∀ r ∈ ps, r.1 + p ≠ i := fun r hr' heq => hr ⟨r, hr', heq⟩
    exact absurd (h.unmatched i (by omega) (by omega) hno) hJ

theorem Unraveled.matching (h : Unraveled hashes hashes' p q ps J) : Matching hashes hashes' J := by
  have hle := h.le
  have hle' := h.le'
  refine ⟨fun i i' hi hlt hi' hJ hJ' => ?_, fun i hi hil hJ => ?_⟩
  · rcases h.cases hJ with ⟨hip, hJi⟩ | ⟨hiq, hJi⟩ | ⟨r, hr, rfl, hJi⟩
    · rcases h.cases hJ' with ⟨hip', hJi'⟩ | ⟨hiq', hJi'⟩ | ⟨r', hr', rfl, hJi'⟩
      · omega
      · omega
      · have := h.mates r' hr'
        omega
    · rcases h.cases hJ' with ⟨hip', hJi'⟩ | ⟨hiq', hJi'⟩ | ⟨r', hr', rfl, hJi'⟩
      · omega
      · omega
      · have := h.mates r' hr'
        omega
    · have hm := h.mates r hr
      rcases h.cases hJ' with ⟨hip', hJi'⟩ | ⟨hiq', hJi'⟩ | ⟨r', hr', rfl, hJi'⟩
      · omega
      · omega
      · have := pairs_lt h.pairs hr hr' (by omega)
        omega
  · rcases h.cases hJ with ⟨hip, hJi⟩ | ⟨hiq, hJi⟩ | ⟨r, hr, rfl, hJi⟩
    · exact ⟨i, hJi, hi, by omega, h.prefix_eq i hi hip⟩
    · refine ⟨i + hashes'.length - hashes.length, by omega, by omega, by omega, ?_⟩
      have := h.suffix_eq (hashes.length - i) (by omega)
      have h1 : hashes.length - (hashes.length - i) - 1 = i - 1 := by omega
      have h2 : hashes'.length - (hashes.length - i) - 1 =
          i + hashes'.length - hashes.length - 1 := by omega
      rwa [h1, h2] at this
    · obtain ⟨hx, hy, heq⟩ := h.mates r hr
      refine ⟨r.2 + p, by exact_mod_cast hJi, by omega, by omega, ?_⟩
      rw [Nat.add_comm r.1, Nat.add_comm r.2]
      exact heq.symm

/-- The number of the lines that are matched. -/
def nmatched (len : Nat) (J : Nat → Int) : Nat := (List.range' 1 len).countP (J · ≠ 0)

theorem Unraveled.nmatched_eq (h : Unraveled hashes hashes' p q ps J) :
    nmatched hashes.length J = p + (q + ps.length) := by
  have hle := h.le
  have hle' := h.le'
  have hsplit : range' 1 hashes.length = range' 1 p ++
      (range' (p + 1) (hashes.length - p - q) ++ range' (p + 1 + (hashes.length - p - q)) q) := by
    rw [range'_append_1, Nat.add_comm p 1, range'_append_1]
    congr 1
    omega
  have hfirst : (range' 1 p).countP (J · ≠ 0) = p := by
    refine (countP_eq_length.mpr fun i hi => ?_).trans length_range'
    rw [mem_range'_1] at hi
    have := h.first i (by omega)
    simp only [ne_eq, decide_not, Bool.not_eq_eq_eq_not, Bool.not_true, decide_eq_false_iff_not]
    omega
  have hlast : (range' (p + 1 + (hashes.length - p - q)) q).countP (J · ≠ 0) = q := by
    refine (countP_eq_length.mpr fun i hi => ?_).trans length_range'
    rw [mem_range'_1] at hi
    have := h.last i (by omega)
    simp only [ne_eq, decide_not, Bool.not_eq_eq_eq_not, Bool.not_true, decide_eq_false_iff_not]
    omega
  have hmiddle : (range' (p + 1) (hashes.length - p - q)).countP (J · ≠ 0) = ps.length := by
    have hperm : ((range' (p + 1) (hashes.length - p - q)).filter (J · ≠ 0)).Perm
        (ps.map fun r => r.1 + p) := by
      refine (perm_ext_iff_of_nodup (Nodup.filter _ nodup_range') ?_).mpr fun i => ?_
      · rw [Nodup, pairwise_map]
        exact h.pairs.imp fun {r r'} hr => by omega
      rw [mem_filter, mem_range'_1, mem_map]
      constructor
      · rintro ⟨hi, hJ⟩
        simp only [ne_eq, decide_not, Bool.not_eq_eq_eq_not, Bool.not_true,
          decide_eq_false_iff_not] at hJ
        by_contra hno
        exact hJ (h.unmatched i (by omega) (by omega) fun r hr heq => hno ⟨r, hr, heq⟩)
      · rintro ⟨r, hr, rfl⟩
        have hm := h.mates r hr
        refine ⟨by omega, ?_⟩
        rw [h.matched r hr]
        simp only [ne_eq, decide_not, Bool.not_eq_eq_eq_not, Bool.not_true, decide_eq_false_iff_not]
        omega
    rw [countP_eq_length_filter, hperm.length_eq, length_map]
  rw [nmatched, hsplit, countP_append, countP_append, hfirst, hmiddle, hlast]
  omega

theorem Unraveled.isLcs (h : Unraveled hashes hashes' p q ps J) :
    IsLcs hashes hashes' (nmatched hashes.length J) := by
  have hle := h.le
  have hle' := h.le'
  have hsplit : ∀ (l : List Int), p + q ≤ l.length →
      l = l.take p ++ (middle l p q ++ l.drop (l.length - q)) := by
    intro l hl
    have hdrop : l.drop (l.length - q) = (l.drop p).drop (l.length - p - q) := by
      rw [drop_drop]
      congr 1
      omega
    rw [hdrop, middle, take_append_drop, take_append_drop]
  have hpre : hashes.take p = hashes'.take p := by
    refine ext_getElem? fun i => ?_
    by_cases hi : i < p
    · rw [getElem?_take_of_lt hi, getElem?_take_of_lt hi]
      exact h.prefix_eq (i + 1) (by omega) hi
    · rw [getElem?_take, getElem?_take, if_neg hi, if_neg hi]
  have hsuf : hashes.drop (hashes.length - q) = hashes'.drop (hashes'.length - q) := by
    refine ext_getElem? fun i => ?_
    rw [getElem?_drop, getElem?_drop]
    by_cases hi : i < q
    · have := h.suffix_eq (q - i - 1) (by omega)
      have h1 : hashes.length - (q - i - 1) - 1 = hashes.length - q + i := by omega
      have h2 : hashes'.length - (q - i - 1) - 1 = hashes'.length - q + i := by omega
      rwa [h1, h2] at this
    · rw [getElem?_eq_none (by omega), getElem?_eq_none (by omega)]
  have hlcs := (h.lcs.append_right (hashes.drop (hashes.length - q))).append_left (hashes.take p)
  rw [length_drop, length_take, Nat.min_eq_left (by omega), Nat.sub_sub_self (by omega),
    ← h.nmatched_eq, ← hsplit _ hle, hpre, hsuf, ← hsplit _ hle'] at hlcs
  exact hlcs

end Unraveled

/-- The match vector matches as many lines as a longest common subsequence has. -/
theorem matched_lcs (hashes hashes' : List Int) (hne : ∀ h ∈ hashes', h ≠ 0) :
    Matching hashes hashes' (matched hashes hashes') ∧
      IsLcs hashes hashes' (nmatched hashes.length (matched hashes hashes')) := by
  obtain ⟨p, q, ps, h⟩ := matched_unraveled hashes hashes' hne
  exact ⟨h.matching, h.isLcs⟩

theorem matched_lcs_five :
    (List.range' 1 7).map (matched [7, 1, 2, 3, 1, 2, 9] [7, 2, 1, 3, 2, 9]) =
      [1, 0, 2, 0, 3, 5, 6] ∧
    IsLcs ([7, 1, 2, 3, 1, 2, 9] : List Int) [7, 2, 1, 3, 2, 9] 5 := by
  have hlcs := (matched_lcs [7, 1, 2, 3, 1, 2, 9] [7, 2, 1, 3, 2, 9] (by decide)).2
  have hn : nmatched ([7, 1, 2, 3, 1, 2, 9] : List Int).length
      (matched [7, 1, 2, 3, 1, 2, 9] [7, 2, 1, 3, 2, 9]) = 5 := by
    decide +kernel
  rw [hn] at hlcs
  exact ⟨by decide +kernel, hlcs⟩

end Plan9Port.Diff
