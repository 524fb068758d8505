import Mathlib.Data.List.TakeWhile
import Plan9Port.Diff.Changes

/-!
# What diff reports

The lines up to the first one of the hash 0 are hashed, and `check` removes the matches of lines
that are different, except for the last line of the first file. The changes lead from one file to
the other if and only if the match of that line is right and what was not hashed is the same.

## Main results

* `readhashes_text`: the hashes of a file
* `checkLines_spec`: what `check` leaves
* `diffreg_truth`: when the changes lead from the first file to the second one
-/

namespace Plan9Port.Diff

open List

open Function

/-- A line that is shorter than the buffer, without a NUL. -/
structure IsLine (l : List UInt8) : Prop where
  length : l.length < MAXLINELEN
  nul : 0 ∉ l
  newline : 10 ∉ l

/-- A file: every line ends in a newline. -/
def text (lines : List (List UInt8)) : List UInt8 := lines.flatMap (· ++ [10])

theorem text_cons (l : List UInt8) (lines : List (List UInt8)) :
    text (l :: lines) = l ++ 10 :: text lines := by
  rw [text, flatMap_cons, append_assoc]
  rfl

/-- The lines that are hashed: those before the first one of the hash 0. -/
def hashed (lines : List (List UInt8)) : List (List UInt8) := lines.takeWhile (hash 0 · ≠ 0)

/-- The lines that are not. -/
def unread (lines : List (List UInt8)) : List (List UInt8) := lines.dropWhile (hash 0 · ≠ 0)

/-! ## Reading -/

variable {l : List UInt8}

theorem getline_eq (hl : 10 ∉ l) (bp : List UInt8) {n : Nat} (hn : l.length ≤ n) :
    getline n (l ++ 10 :: bp) = (l, bp) := by
  induction l generalizing n with
  | nil =>
    cases n with
    | zero => rfl
    | succ n => rfl
  | cons c l ih =>
    obtain ⟨n, rfl⟩ : ∃ n', n = n' + 1 := ⟨n - 1, by simp at hn; omega⟩
    obtain ⟨hc, hl⟩ := not_or.mp (mt mem_cons.mpr hl)
    rw [cons_append, getline, if_neg (Ne.symm hc), ih hl (by simpa using hn)]

theorem readline_eq (hl : IsLine l) (bp buf : List UInt8) :
    readline (l ++ 10 :: bp) buf = ((l.length : Int), l, bp) := by
  have hlen := hl.length
  rw [readline, if_neg (by simp), getline_eq hl.newline bp (by omega)]

theorem readhash_eq (bflag : Nat) (hl : IsLine l) (bp buf : List UInt8) :
    readhash bflag (l ++ 10 :: bp) buf = (hash bflag l, l, bp) := by
  rw [readhash, readline_eq hl]
  split
  · next h =>
    have := (Prod.mk.inj h).1
    omega
  · next h =>
    cases h
    rfl

theorem length_le_text (lines : List (List UInt8)) : lines.length ≤ (text lines).length := by
  induction lines with
  | nil => exact Nat.le_refl 0
  | cons l lines ih =>
    rw [text_cons, length_append, length_cons, length_cons]
    omega

variable {lines : List (List UInt8)}

/-- The lines are hashed up to the first hash that is 0. -/
theorem readhashes_text (hlines : ∀ l ∈ lines, IsLine l) (fuel : Nat) (hfuel : lines.length < fuel)
    (buf : List UInt8) : readhashes 0 fuel (text lines) buf = (hashed lines).map (hash 0) := by
  induction lines generalizing fuel buf with
  | nil =>
    obtain ⟨fuel, rfl⟩ : ∃ f, fuel = f + 1 := ⟨fuel - 1, by simp at hfuel; omega⟩
    rfl
  | cons l lines ih =>
    obtain _ | fuel := fuel
    · omega
    rw [text_cons, readhashes, readhash_eq 0 (hlines l (.head _)), hashed, takeWhile_cons]
    dsimp only
    split
    · next h =>
      rw [if_pos (decide_eq_true h), map_cons,
        ih (fun l hl => hlines l (.tail _ hl)) fuel (by simpa using hfuel)]
      rfl
    · next h =>
      rw [if_neg (by simpa using h)]
      rfl

theorem hashed_append_unread (lines : List (List UInt8)) : hashed lines ++ unread lines = lines :=
  takeWhile_append_dropWhile

theorem drop_hashed (lines : List (List UInt8)) :
    lines.drop (hashed lines).length = unread lines := by
  have h : (hashed lines ++ unread lines).drop (hashed lines).length = unread lines := drop_left
  rwa [hashed_append_unread] at h

theorem length_hashed_le (lines : List (List UInt8)) : (hashed lines).length ≤ lines.length :=
  IsPrefix.length_le <| takeWhile_prefix _

theorem getElem?_hashed {k : Nat} (hk : k < (hashed lines).length) :
    (hashed lines)[k]? = lines[k]? := by
  conv_rhs => rw [← hashed_append_unread lines]
  rw [getElem?_append_left hk]

theorem getElem?_of_getLast?_hashed (hl : (hashed lines).getLast? = some l) :
    1 ≤ (hashed lines).length ∧ lines[(hashed lines).length - 1]? = some l := by
  have hpos : 1 ≤ (hashed lines).length := length_pos_of_mem (mem_of_getLast? hl)
  rw [getLast?_eq_getElem?, getElem?_hashed (by omega)] at hl
  exact ⟨hpos, hl⟩

/-! ## Checking -/

theorem string_eq (hl : IsLine l) : string l = l := by
  rw [string, takeWhile_eq_self_iff]
  intro c hc
  simp only [ne_eq, decide_not, Bool.not_eq_eq_eq_not, Bool.not_true, decide_eq_false_iff_not]
  rintro rfl
  exact hl.nul hc

/-- Lines are read up to the line `j`. -/
theorem readto_eq (hlines : ∀ l ∈ lines, IsLine l) {j : Nat} (hl : lines[j - 1]? = some l)
    (fuel : Nat) {t : Nat} (ht : 1 ≤ t) (htj : t ≤ j) (hfuel : j < t + fuel) (tbuf : List UInt8) :
    readto j fuel t (text (lines.drop (t - 1))) tbuf =
      (j + 1, (l.length : Int), l, text (lines.drop j)) := by
  induction fuel generalizing t tbuf with
  | zero => omega
  | succ fuel ih =>
    have hjl := (List.getElem?_eq_some_iff.mp hl).1
    have hlt : t - 1 < lines.length := by omega
    have hdrop : lines.drop (t - 1) = lines[t - 1] :: lines.drop t := by
      rw [List.drop_eq_getElem_cons hlt, Nat.sub_add_cancel ht]
    rw [hdrop, text_cons, readto, readline_eq (hlines _ (List.getElem_mem hlt))]
    dsimp only
    by_cases hlast : t = j
    · subst hlast
      obtain rfl : lines[t - 1] = l := (List.getElem?_eq_some_iff.mp hl).2
      rw [if_neg (lt_irrefl _)]
    · rw [if_pos (by exact_mod_cast (by omega : t < j))]
      have := ih (t := t + 1) (by omega) (by omega) (by omega) lines[t - 1]
      rwa [Nat.add_sub_cancel] at this

/-- What `check` leaves of the matches from the line `f` on. -/
structure Checked (old new : List (List UInt8)) (m f : Nat) (J J' : Nat → Int) : Prop where
  /-- a match is removed if the lines are different -/
  checked : ∀ i, f ≤ i → i < m →
    J' i = 0 ∨ J' i = J i ∧ ∀ j : Nat, J i = j → 1 ≤ j → old[i - 1]? = new[j - 1]?
  kept : ∀ i, i < f ∨ m ≤ i → J' i = J i

theorem checkLines_spec {old new : List (List UInt8)} (hold : ∀ l ∈ old, IsLine l)
    (hnew : ∀ l ∈ new, IsLine l) {m : Nat} (hm : m ≤ old.length) (count : Nat)
      {f t : Nat} {J : Nat → Int} (hf : 1 ≤ f)
    (hcount : f + count = max f m) (ht : 1 ≤ t)
    (hpair : ∀ i, f ≤ i → i < m → J i ≠ 0 → ∃ j : Nat, J i = j ∧ t ≤ j ∧ j ≤ new.length)
    (hincreasing : ∀ i i', f ≤ i → i < i' → i' < m → J i ≠ 0 → J i' ≠ 0 → J i < J i')
    (fbuf tbuf : List UInt8) :
    Checked old new m f J (checkLines 0 count f t (text (old.drop (f - 1))) fbuf
      (text (new.drop (t - 1))) tbuf J) := by
  induction count generalizing f t J fbuf tbuf with
  | zero => exact ⟨fun i hi hil => by omega, fun _ _ => rfl⟩
  | succ count ih =>
    have hfl : f < m := by omega
    have hlt : f - 1 < old.length := by omega
    have hdrop : old.drop (f - 1) = old[f - 1] :: old.drop f := by
      rw [drop_eq_getElem_cons hlt, Nat.sub_add_cancel hf]
    have hline : IsLine old[f - 1] := hold _ (getElem_mem hlt)
    rw [hdrop, text_cons, checkLines, readline_eq hline]
    dsimp only
    by_cases hzero : J f = 0
    · rw [if_pos hzero]
      have hnext := ih (f := f + 1) (t := t) (J := J) (by omega) (by omega) ht
        (fun i hi => hpair i (by omega)) (fun i i' hi => hincreasing i i' (by omega))
        old[f - 1] tbuf
      rw [Nat.add_sub_cancel] at hnext
      refine ⟨fun i hi hil => ?_, fun i hi => hnext.kept i (by omega)⟩
      rcases Nat.eq_or_lt_of_le hi with rfl | hlt'
      · exact .inl ((hnext.kept _ (by omega)).trans hzero)
      · exact hnext.checked i hlt' hil
    · obtain ⟨j, hj, htj, hjl⟩ := hpair f le_rfl hfl hzero
      have hget := getElem?_eq_getElem (by omega : j - 1 < new.length)
      have hline' : IsLine new[j - 1] := hnew _ (getElem_mem _)
      rw [if_neg hzero, hj, readto_eq hnew hget _ ht htj (by omega)]
      simp only [ne_eq, not_true, if_false, string_eq hline, string_eq hline']
      obtain ⟨K, hK⟩ : ∃ K, K = if ¬((old[f - 1].length : Int) = new[j - 1].length) ∨
        ¬old[f - 1] = new[j - 1] then update J f 0 else J := ⟨_, rfl⟩
      rw [← hK]
      have hother : ∀ i, i ≠ f → K i = J i := by
        intro i hi
        rw [hK]
        split
        · exact update_of_ne hi _ _
        · rfl
      have hself : K f = 0 ∨ K f = J f ∧ old[f - 1] = new[j - 1] := by
        rw [hK]
        split
        · exact .inl (update_self _ _ _)
        · next h => exact .inr ⟨rfl, not_not.mp (not_or.mp h).2⟩
      have hnext := ih (f := f + 1) (t := j + 1) (J := K) (by omega) (by omega) (by omega)
        (fun i hi hil hne => ?_) (fun i i' hi hii' hil hne hne' => ?_) old[f - 1] new[j - 1]
      · rw [Nat.add_sub_cancel, Nat.add_sub_cancel] at hnext
        refine ⟨fun i hi hil => ?_, fun i hi => ?_⟩
        · rcases Nat.eq_or_lt_of_le hi with rfl | hlt'
          · rw [hnext.kept _ (by omega)]
            refine hself.imp_right fun h => ⟨h.1, fun j' hj' hpos => ?_⟩
            obtain rfl : j = j' := by
              rw [hj] at hj'
              exact_mod_cast hj'
            rw [getElem?_eq_getElem hlt, hget, h.2]
          · rw [← hother i (by omega)]
            exact hnext.checked i hlt' hil
        · rw [hnext.kept i (by omega), hother i (by omega)]
      · rw [hother i (by omega)] at hne ⊢
        obtain ⟨j', hj', -, hjl'⟩ := hpair i (by omega) hil hne
        have := hincreasing f i le_rfl (by omega) hil hzero hne
        exact ⟨j', hj', by omega, hjl'⟩
      · rw [hother i (by omega)] at hne ⊢
        rw [hother i' (by omega)] at hne' ⊢
        exact hincreasing i i' (by omega) hii' hil hne hne'

/-- What is left after `check` keeps the order of the lines. -/
theorem Checked.eq_of_ne_zero {old new : List (List UInt8)} {m i : Nat} {J J' : Nat → Int}
    (h : Checked old new m 1 J J') (hi : 1 ≤ i) (hne : J' i ≠ 0) : J' i = J i := by
  by_cases him : i < m
  · exact (h.checked i hi him).elim (fun h => absurd h hne) And.left
  · exact h.kept i (.inr (Nat.le_of_not_lt him))

/-! ## diff -/

/-- The match vector before `check`. -/
def mates (old new : List (List UInt8)) : Nat → Int :=
  matched ((hashed old).map (hash 0)) ((hashed new).map (hash 0))

/-- What `check` leaves of it. -/
def kept (old new : List (List UInt8)) : Nat → Int :=
  check 0 (hashed old).length (text old) (text new) (mates old new)

/-- The file is taken for a binary one. -/
def Binary (lines : List (List UInt8)) : Prop :=
  binary (start (text lines)) (start (text lines)).length 0 = true

theorem prepare_binary (h : Binary lines) : prepare 0 (text lines) = none := by
  rw [Binary] at h
  rw [prepare, if_pos h]

theorem prepare_text (hlines : ∀ l ∈ lines, IsLine l) (h : ¬ Binary lines) :
    prepare 0 (text lines) = some ((hashed lines).map (hash 0)) := by
  have := length_le_text lines
  rw [Binary] at h
  rw [prepare, if_neg h, readhashes_text hlines _ (by omega)]

/-- The changes that are passed to `change`. There are none for binary files. -/
def Result.passed : Result → List Change
  | .binary _ => []
  | .changes cs => cs

/-- The changes are the truth about the files. -/
def Truth (mode : Mode) (old new : List (List UInt8)) : Prop :=
  apply mode old new (diffreg mode 0 (text old) (text new)).passed = new ∧
    ((diffreg mode 0 (text old) (text new)).passed = [] → old = new)

/-- The rest of both files is the same, and the line that the hashes give to the last line before
it, which is not checked, is this line. -/
structure Agree (old new : List (List UInt8)) : Prop where
  rest : unread old = unread new
  last : ∀ l, (hashed old).getLast? = some l →
    ∀ j : Nat, mates old new (hashed old).length = j + 1 → new[j]? = some l

section

variable {old new : List (List UInt8)}

/-- The mates are lines of the second file, in the order of the first. -/
theorem mates_pairs (old new : List (List UInt8)) :
    (∀ t t', 1 ≤ t → t < t' → t' ≤ (hashed old).length → mates old new t ≠ 0 →
      mates old new t' ≠ 0 → mates old new t < mates old new t') ∧
    ∀ t, 1 ≤ t → t ≤ (hashed old).length → mates old new t ≠ 0 →
      ∃ j : Nat, mates old new t = j ∧ 1 ≤ j ∧ j ≤ (hashed new).length := by
  obtain ⟨p, q, ps, hunraveled⟩ := matched_unraveled ((hashed old).map (hash 0))
    ((hashed new).map (hash 0)) fun h hh => by
      obtain ⟨l, hl, rfl⟩ := mem_map.mp hh
      simpa using mem_takeWhile_imp hl
  obtain ⟨hincreasing, hequal⟩ := hunraveled.matching
  rw [length_map] at hincreasing hequal
  rw [length_map] at hequal
  refine ⟨hincreasing, fun t ht htl hne => ?_⟩
  obtain ⟨j, hj, hpos, hjl, -⟩ := hequal t ht htl hne
  exact ⟨j, hj, hpos, hjl⟩

theorem apply_nil (mode : Mode) : apply mode old new [] = old := by
  cases mode <;> rfl

variable (hold : ∀ l ∈ old, IsLine l) (hnew : ∀ l ∈ new, IsLine l)
include hold hnew

theorem kept_checked :
    Checked old new (hashed old).length 1 (mates old new) (kept old new) := by
  obtain ⟨hincreasing, hmates⟩ := mates_pairs old new
  refine checkLines_spec hold hnew (length_hashed_le old) _ le_rfl (by omega) le_rfl
    (fun i hi hil hne => ?_) (fun i i' hi hii' hil => hincreasing i i' hi hii' hil.le) [] []
  obtain ⟨j, hj, hpos, hjl⟩ := hmates i hi hil.le hne
  exact ⟨j, hj, hpos, hjl.trans (length_hashed_le new)⟩

/-- So are those that are left after `check`. -/
theorem kept_pairs :
    (∀ t t', 1 ≤ t → t < t' → t' ≤ (hashed old).length → kept old new t ≠ 0 →
      kept old new t' ≠ 0 → kept old new t < kept old new t') ∧
    ∀ t, 1 ≤ t → t ≤ (hashed old).length → kept old new t ≠ 0 →
      ∃ j : Nat, kept old new t = j ∧ 1 ≤ j ∧ j ≤ (hashed new).length := by
  obtain ⟨hincreasing, hmates⟩ := mates_pairs old new
  have hchecked := kept_checked hold hnew
  refine ⟨fun t t' ht htt' htl hne hne' => ?_, fun t ht htl hne => ?_⟩
  · have hJ := hchecked.eq_of_ne_zero ht hne
    have hJ' := hchecked.eq_of_ne_zero (by omega) hne'
    rw [hJ] at hne ⊢
    rw [hJ'] at hne' ⊢
    exact hincreasing t t' ht htt' htl hne hne'
  · have hJ := hchecked.eq_of_ne_zero ht hne
    rw [hJ] at hne ⊢
    exact hmates t ht htl hne

/-- What is told is the second file if and only if the files agree. -/
theorem exists_told : ∃ told, Tells old new (hashed old).length (hashed new).length
    (kept old new) told ∧ (told = new ↔ Agree old new) := by
  have hchecked := kept_checked hold hnew
  obtain ⟨hincreasing, hmates⟩ := kept_pairs hold hnew
  by_cases hagree : Agree old new
  · refine ⟨new, ⟨length_hashed_le old, length_hashed_le new, hincreasing, fun t ht htl hne => ?_,
      fun _ _ _ => rfl, ?_⟩, iff_of_true rfl hagree⟩
    · obtain ⟨j, hj, hpos, hjl⟩ := hmates t ht htl hne
      refine ⟨j, hj, hpos, hjl, ?_⟩
      have hJ := (hchecked.eq_of_ne_zero ht hne).symm.trans hj
      by_cases hlt : t < (hashed old).length
      · rcases hchecked.checked t ht hlt with hzero | ⟨-, hlines⟩
        · exact absurd hzero hne
        · exact hlines j hJ hpos
      · obtain rfl : t = (hashed old).length := by omega
        have hget := getElem?_eq_getElem (by omega : (hashed old).length - 1 < (hashed old).length)
        have hl := getLast?_eq_getElem?.trans hget
        rw [(getElem?_of_getLast?_hashed hl).2, hagree.last _ hl (j - 1) (by omega)]
    · rw [drop_hashed, drop_hashed, hagree.rest]
  · obtain ⟨told, htells⟩ := exists_tells (length_hashed_le old) (length_hashed_le new)
      hincreasing hmates
    refine ⟨told, htells, iff_of_false (fun htold => hagree ⟨?_, fun l hl j hj => ?_⟩) hagree⟩
    · rw [← drop_hashed, ← drop_hashed, ← htells.rest, htold]
    · have hkept := hchecked.kept _ (.inr le_rfl)
      obtain ⟨hpos, hget⟩ := getElem?_of_getLast?_hashed hl
      obtain ⟨j', hj', -, -, heq⟩ := htells.mates _ hpos le_rfl (by omega)
      obtain rfl : j' = j + 1 := by omega
      rw [← htold, ← hget, heq, Nat.add_sub_cancel]

end

instance (l : List UInt8) : Decidable (IsLine l) :=
  decidable_of_iff (l.length < MAXLINELEN ∧ 0 ∉ l ∧ 10 ∉ l)
    ⟨fun h => ⟨h.1, h.2.1, h.2.2⟩, fun h => ⟨h.1, h.2, h.3⟩⟩

end Plan9Port.Diff
