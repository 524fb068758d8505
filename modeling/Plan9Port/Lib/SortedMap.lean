import Mathlib.Order.Lattice

/-!
# Sorted lists as maps

A list that is sorted by key, with no key twice, is a map from keys to entries. An entry is put in
its place, where it replaces the one with its key; a list of bounded length refuses an entry that
has no room. The place is found by bisection.

## Main results

* `upsert_of_split`, `upsert_of_mem`: the entry at its place, with and without one to replace
* `bisect_spec`
-/

namespace SortedMap

open List

section Maps

variable {α κ : Type*} [LinearOrder κ] (key : α → κ)

/-- The keys increase. -/
def Sorted (xs : List α) : Prop := xs.Pairwise (key · < key ·)

/-- The entry `e` in the place of its key. -/
def upsert (e : α) (xs : List α) : List α :=
  xs.filter (key · < key e) ++ e :: xs.filter (key e < key ·)

/-- The entry replaces another one, or there is room for it. -/
def Fits (max : Nat) (e : α) (xs : List α) : Prop := (∃ y ∈ xs, key y = key e) ∨ xs.length < max

instance (max : Nat) (e : α) (xs : List α) : Decidable (Fits key max e xs) :=
  inferInstanceAs (Decidable (_ ∨ _))

/-- The entry `e` in its place, if it fits. -/
def put (max : Nat) (e : α) (xs : List α) : List α :=
  if Fits key max e xs then upsert key e xs else xs

/-- Entries put into a list one after the other. -/
def puts (max : Nat) (es xs : List α) : List α := es.foldl (fun xs e => put key max e xs) xs

/-- One of the entries does not fit when its turn comes. -/
def Refuses (max : Nat) : List α → List α → Prop
  | [], _ => False
  | e :: es, xs => ¬ Fits key max e xs ∨ Refuses max es (put key max e xs)

variable {key}

theorem Sorted.upsert {xs : List α} (h : Sorted key xs) (e : α) : Sorted key (upsert key e xs) := by
  refine pairwise_append.mpr ⟨h.filter _, pairwise_cons.mpr ⟨fun z hz => ?_, h.filter _⟩,
    fun y hy z hz => ?_⟩
  · simpa using (mem_filter.mp hz).2
  · have hye : key y < key e := by simpa using (mem_filter.mp hy).2
    rcases mem_cons.mp hz with rfl | hz
    · exact hye
    · exact hye.trans (by simpa using (mem_filter.mp hz).2)

/-- Where a list is split by a key. -/
theorem upsert_of_split {l r : List α} {e : α} (hl : ∀ y ∈ l, key y < key e)
    (hr : ∀ y ∈ r, key e < key y) : upsert key e (l ++ r) = l ++ e :: r := by
  have hlt : (l ++ r).filter (key · < key e) = l := by
    rw [filter_append, filter_eq_self.mpr fun y hy => by simpa using hl y hy,
      filter_eq_nil_iff.mpr fun y hy => by simpa using (hr y hy).le, append_nil]
  have hgt : (l ++ r).filter (key e < key ·) = r := by
    rw [filter_append, filter_eq_nil_iff.mpr fun y hy => by simpa using (hl y hy).le,
      filter_eq_self.mpr fun y hy => by simpa using hr y hy, nil_append]
  rw [upsert, hlt, hgt]

theorem upsert_of_mem {l r : List α} {y e : α} (h : Sorted key (l ++ y :: r))
    (hy : key y = key e) : upsert key e (l ++ y :: r) = l ++ e :: r := by
  obtain ⟨-, hcons, hcross⟩ := pairwise_append.mp h
  have hskip : upsert key e (l ++ y :: r) = upsert key e (l ++ r) := by
    simp [upsert, filter_append, hy]
  rw [hskip]
  refine upsert_of_split (fun z hz => ?_) fun z hz => ?_
  · rw [← hy]
    exact hcross z hz y (.head _)
  · rw [← hy]
    exact (pairwise_cons.mp hcons).1 z hz

@[simp] theorem puts_nil (max : Nat) (xs : List α) : puts key max [] xs = xs := rfl

@[simp] theorem puts_cons (max : Nat) (e : α) (es xs : List α) :
    puts key max (e :: es) xs = puts key max es (put key max e xs) := rfl

theorem puts_append (max : Nat) (es es' xs : List α) :
    puts key max (es ++ es') xs = puts key max es' (puts key max es xs) :=
  foldl_append

theorem refuses_append (max : Nat) (es es' xs : List α) :
    Refuses key max (es ++ es') xs ↔
      Refuses key max es xs ∨ Refuses key max es' (puts key max es xs) := by
  induction es generalizing xs with
  | nil => simp [Refuses]
  | cons e es ih => simp only [cons_append, Refuses, ih, puts_cons, or_assoc]

end Maps

/-! ## Bisection -/

/-- The search between `l` and `r` for a place where `probe` is zero: the place and `true`, or the
place where the signs change and `false`. -/
def bisect (probe : Nat → Int) : Nat → Int → Int → Option (Nat × Bool)
  | 0, _, _ => none
  | fuel + 1, l, r =>
    if l ≤ r then
      let m := (r + l) / 2
      if probe m.toNat = 0 then some (m.toNat, true)
      else if probe m.toNat > 0 then bisect probe fuel (m + 1) r
      else bisect probe fuel l (m - 1)
    else some (l.toNat, false)

/-- The search ends at a zero or, if there is none, where the signs change. -/
theorem bisect_spec (probe : Nat → Int) {n : Nat}
    (hpos : ∀ i j, i < j → j < n → 0 < probe j → 0 < probe i)
    (hneg : ∀ i j, i < j → j < n → probe i < 0 → probe j < 0) (fuel : Nat) {l r : Int}
    (hl : 0 ≤ l) (hlr : l ≤ r + 1) (hr : r < n) (hleft : ∀ i : Nat, (i : Int) < l → 0 < probe i)
    (hright : ∀ i : Nat, r < i → i < n → probe i < 0) (hfuel : r + 1 - l < fuel) :
    ∃ i found, bisect probe fuel l r = some (i, found) ∧
      (found = true ∧ i < n ∧ probe i = 0 ∨
        found = false ∧ i ≤ n ∧ (∀ j < i, 0 < probe j) ∧ ∀ j, i ≤ j → j < n → probe j < 0) := by
  induction fuel generalizing l r with
  | zero => omega
  | succ fuel ih =>
    by_cases hle : l ≤ r
    · obtain ⟨m, hm⟩ : ∃ m : Nat, (m : Int) = (r + l) / 2 := ⟨((r + l) / 2).toNat, by omega⟩
      have hstep : bisect probe (fuel + 1) l r =
          if probe m = 0 then some (m, true)
          else if probe m > 0 then bisect probe fuel (m + 1) r
          else bisect probe fuel l (m - 1) := by
        simp only [bisect, if_pos hle, ← hm, Int.toNat_natCast]
      rw [hstep]
      rcases Int.lt_trichotomy (probe m) 0 with hlt | heq | hgt
      · rw [if_neg (by omega), if_neg (by omega)]
        refine ih hl (by omega) (by omega) hleft (fun i hi hin => ?_) (by omega)
        rcases Nat.lt_or_ge m i with hmi | him
        · exact hneg m i hmi hin hlt
        · obtain rfl : i = m := by omega
          exact hlt
      · rw [if_pos heq]
        exact ⟨m, true, rfl, Or.inl ⟨rfl, by omega, heq⟩⟩
      · rw [if_neg (by omega), if_pos hgt]
        refine ih (by omega) (by omega) hr (fun i hi => ?_) hright (by omega)
        rcases Nat.lt_or_ge i m with him | hmi
        · exact hpos i m him (by omega) hgt
        · obtain rfl : i = m := by omega
          exact hgt
    · refine ⟨l.toNat, false, by simp only [bisect, if_neg hle], Or.inr ⟨rfl, by omega, ?_, ?_⟩⟩
      · exact fun j hj => hleft j (by omega)
      · exact fun j hj hjn => hright j (by omega) hjn

end SortedMap
