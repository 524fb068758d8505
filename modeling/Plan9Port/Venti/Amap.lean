import Mathlib.Data.UInt

/-!
# From addresses to arenas

The index of venti maps the arenas into one space of addresses; `amapitoa` (`index.c`,
`cmd/venti/srv`) finds the arena of an address by bisection.

The map is searched from its second entry on, and the bound of the entry that was found is tested
with `>`. An address below all entries is taken for one of the first arena, and the first address
after an entry for one of that entry.
-/

namespace Plan9Port.Venti

/-- The most arenas that `parseamap` accepts. -/
def MaxAMap : Nat := 31 * 1024

/-- An entry of the map: the addresses from `start` on that are below `stop`. -/
structure AMap where
  start : UInt64
  stop : UInt64

/-- What `amapitoa` reads of an index. -/
structure ArenaMap (α : Type) where
  amap : List AMap
  arenas : List (Option α)
  same : arenas.length = amap.length
  small : amap.length ≤ MaxAMap

variable {α : Type} {amap : List AMap} {a : UInt64} {l r : Nat}

/-- The bisection, with `l` at least 1; `none` if the sum of the bounds does not fit an `int`. -/
def amapitoaLoop (amap : List AMap) (a : UInt64) : Nat → Nat → Nat → Option Nat
  | 0, _, _ => none
  | fuel + 1, l, r =>
    if l ≤ r then
      if r + l < 2 ^ 31 then do
        let m := (r + l) / 2
        let e ← amap[m]?
        if e.start ≤ a then amapitoaLoop amap a fuel (m + 1) r
        else amapitoaLoop amap a fuel l (m - 1)
      else none
    else some l

/-- `some none` is nil. -/
def amapitoa (ix : ArenaMap α) (a : UInt64) : Option (Option (α × UInt64)) := do
  let l ← amapitoaLoop ix.amap a ix.amap.length 1 (ix.amap.length - 1)
  let e ← ix.amap[l - 1]?
  let arena ← ix.arenas[l - 1]?
  if a > e.stop then some none else some (arena.map (·, a - e.start))

/-- Ranges that are not empty, in order and disjoint. -/
structure Ordered (amap : List AMap) : Prop where
  nonempty : ∀ e ∈ amap, e.start < e.stop
  disjoint : amap.Pairwise fun e f => e.stop ≤ f.start

/-- The entry at `i` and the one at a later `j`. -/
theorem Ordered.stop_le (ho : Ordered amap) {i j : Nat} {e f : AMap} (hij : i < j)
    (he : amap[i]? = some e) (hf : amap[j]? = some f) : e.stop ≤ f.start := by
  obtain ⟨hi, rfl⟩ := List.getElem?_eq_some_iff.mp he
  obtain ⟨hj, rfl⟩ := List.getElem?_eq_some_iff.mp hf
  exact List.pairwise_iff_getElem.mp ho.disjoint i j hi hj hij

theorem Ordered.start_le (ho : Ordered amap) {i j : Nat} {e f : AMap} (hij : i ≤ j)
    (he : amap[i]? = some e) (hf : amap[j]? = some f) : e.start ≤ f.start := by
  rcases Nat.lt_or_eq_of_le hij with h | rfl
  · have hlt := ho.nonempty e (List.mem_of_getElem? he)
    have hle := ho.stop_le h he hf
    grind
  · rw [he] at hf
    cases hf
    exact UInt64.le_refl _

/-- Everything before `l` but the first entry starts at or below `a`, and everything after `r` above
it. -/
structure Around (amap : List AMap) (a : UInt64) (l r : Nat) : Prop where
  pos : 1 ≤ l
  le : l ≤ r + 1
  lt : r < amap.length
  below : ∀ i e, amap[i]? = some e → 0 < i → i < l → e.start ≤ a
  above : ∀ i e, amap[i]? = some e → r < i → a < e.start

theorem amapitoaLoop_spec (ho : Ordered amap) (hn : amap.length ≤ MaxAMap) (fuel : Nat)
    (h : Around amap a l r) (hf : r + 1 - l < fuel) :
    ∃ k, amapitoaLoop amap a fuel l r = some (k + 1) ∧ Around amap a (k + 1) k := by
  rw [MaxAMap] at hn
  induction fuel generalizing l r with
  | zero => omega
  | succ fuel ih =>
    obtain ⟨hl, hlr, hr, hlo, hhi⟩ := h
    rw [amapitoaLoop]
    split
    · have hm : (r + l) / 2 < amap.length := by omega
      have hget := List.getElem?_eq_getElem hm
      rw [if_pos (by omega)]
      simp only [hget, Option.bind_eq_bind, Option.bind_some]
      split
      · rename_i hle
        refine ih ⟨by omega, by omega, hr, fun i e he _ hi => ?_, hhi⟩ (by omega)
        exact UInt64.le_trans (ho.start_le (by omega) he hget) hle
      · rename_i hgt
        refine ih ⟨hl, by omega, by omega, hlo, fun i e he hi => ?_⟩ (by omega)
        have hle := ho.start_le (by omega) hget he
        grind
    · obtain _ | k := l
      · omega
      obtain rfl : r = k := by omega
      exact ⟨r, rfl, hl, hlr, hr, hlo, hhi⟩

/-- The entry that is found is the last one that starts at or below the address, or the first. -/
theorem amapitoa_eq (ix : ArenaMap α) (a : UInt64) (ho : Ordered ix.amap) (hne : ix.amap ≠ []) :
    ∃ k e arena, ix.amap[k]? = some e ∧ ix.arenas[k]? = some arena ∧
      amapitoa ix a = some (if a > e.stop then none else arena.map (·, a - e.start)) ∧
      (∀ i f, ix.amap[i]? = some f → f.start ≤ a → i ≤ k) ∧ (k ≠ 0 → e.start ≤ a) := by
  have hlen : 0 < ix.amap.length := List.length_pos_iff.mpr hne
  have hstart : Around ix.amap a 1 (ix.amap.length - 1) := by
    refine ⟨Nat.le_refl 1, by omega, by omega, fun i e he h0 hi => by omega, fun i e he hi => ?_⟩
    have := (List.getElem?_eq_some_iff.mp he).1
    omega
  obtain ⟨k, hk, -, -, hkn, hbelow, habove⟩ :=
    amapitoaLoop_spec ho ix.small ix.amap.length hstart (by omega)
  have hek := List.getElem?_eq_getElem hkn
  have hak := List.getElem?_eq_getElem (ix.same ▸ hkn : k < ix.arenas.length)
  refine ⟨k, _, _, hek, hak, ?_, fun i f hf hle => ?_,
    fun h0 => hbelow k _ hek (by omega) (by omega)⟩
  · simp only [amapitoa, hk, hek, hak, Option.bind_eq_bind, Option.bind_some, Nat.add_sub_cancel]
    split <;> rfl
  · exact Nat.le_of_not_lt fun hlt => UInt64.not_le.mpr (habove i f hf hlt) hle

/-- What `amapitoa` is for: the arena of the range that holds the address, or nil if none does. -/
def Finds (ix : ArenaMap α) (a : UInt64) : Prop :=
  (∀ (i : Nat) e, ix.amap[i]? = some e → e.start ≤ a → a < e.stop →
    amapitoa ix a = ix.arenas[i]?.map fun arena => arena.map (·, a - e.start)) ∧
  ((∀ e ∈ ix.amap, ¬ (e.start ≤ a ∧ a < e.stop)) → amapitoa ix a = some none)

section Found

variable {ix : ArenaMap α} {k : Nat} {e : AMap} {arena : Option α} (ho : Ordered ix.amap)
  (hek : ix.amap[k]? = some e) (hak : ix.arenas[k]? = some arena)
  (hlast : ∀ i f, ix.amap[i]? = some f → f.start ≤ a → i ≤ k) (hle : k ≠ 0 → e.start ≤ a)
include ho hek hak hlast hle

/-- The entry that is found is not the right one if it does not hold the address, which is below it
or is its end, and is not refused. -/
theorem finds_iff
    (hrun : amapitoa ix a = some (if a > e.stop then none else arena.map (·, a - e.start))) :
    Finds ix a ↔ arena = none ∨ e.start ≤ a ∧ a ≠ e.stop := by
  have honly : ∀ i f, ix.amap[i]? = some f → f.start ≤ a → a < f.stop → i = k ∧ f = e := by
    intro i f hf hs ht
    rcases Nat.lt_or_eq_of_le (hlast i f hf hs) with hlt | rfl
    · have hge := UInt64.le_trans (ho.stop_le hlt hf hek) (hle (by omega))
      exact absurd ht (UInt64.not_lt.mpr hge)
    · exact ⟨rfl, Option.some.inj (hf.symm.trans hek)⟩
  rw [Finds, hrun]
  constructor
  · rintro ⟨-, hout⟩
    by_contra hwrong
    have hno : ∀ f ∈ ix.amap, ¬ (f.start ≤ a ∧ a < f.stop) := by
      rintro f hf ⟨hs, ht⟩
      obtain ⟨i, hi⟩ := List.getElem?_of_mem hf
      obtain ⟨-, rfl⟩ := honly i f hi hs ht
      grind
    have hlt := ho.nonempty e (List.mem_of_getElem? hek)
    cases arena <;> grind
  · intro h
    refine ⟨fun i f hf hs ht => ?_, fun hno => ?_⟩
    · obtain ⟨rfl, rfl⟩ := honly i f hf hs ht
      rw [if_neg (UInt64.lt_asymm ht), hak]
      rfl
    · rcases h with rfl | ⟨hs, hne⟩
      · simp
      · have hge := UInt64.not_lt.mp fun ht => hno e (List.mem_of_getElem? hek) ⟨hs, ht⟩
        rw [if_pos (UInt64.lt_of_le_of_ne hge hne.symm)]

/-- The same, without the entry that is found. -/
theorem outside_iff :
    ((∃ e, ix.amap[0]? = some e ∧ (e.start ≤ a ∨ ix.arenas[0]? = some none)) ∧
      ∀ (i : Nat) e, ix.amap[i]? = some e → e.stop = a →
        ix.arenas[i]? = some none ∨ ∃ f ∈ ix.amap, f.start = a) ↔
    arena = none ∨ e.start ≤ a ∧ a ≠ e.stop := by
  have hlt := ho.nonempty e (List.mem_of_getElem? hek)
  constructor
  · rintro ⟨⟨e0, he0, hfirst⟩, hstop⟩
    by_contra hwrong
    rw [not_or] at hwrong
    have hsome : ix.arenas[k]? ≠ some none := fun h => hwrong.1 (Option.some.inj (hak.symm.trans h))
    by_cases hs : e.start ≤ a
    · have heq : e.stop = a := by grind
      obtain h | ⟨f, hf, hfa⟩ := hstop k e hek heq
      · exact hsome h
      · obtain ⟨i, hi⟩ := List.getElem?_of_mem hf
        have hlt' := ho.nonempty f hf
        rcases Nat.lt_or_eq_of_le (hlast i f hi (by grind)) with hik | rfl
        · have := ho.stop_le hik hi hek
          grind
        · obtain rfl := Option.some.inj (hi.symm.trans hek)
          grind
    · obtain rfl : k = 0 := by_contra fun h0 => hs (hle h0)
      obtain rfl := Option.some.inj (he0.symm.trans hek)
      exact hfirst.elim hs hsome
  · intro h
    have hpos : 0 < ix.amap.length := Nat.zero_lt_of_lt (List.getElem?_eq_some_iff.mp hek).1
    refine ⟨⟨_, List.getElem?_eq_getElem hpos, ?_⟩, fun i f hf hstop => ?_⟩
    · by_cases h0 : k = 0
      · subst h0
        obtain rfl := Option.some.inj ((List.getElem?_eq_getElem hpos).symm.trans hek)
        exact h.symm.imp And.left fun h' => hak.trans (congrArg some h')
      · exact .inl (UInt64.le_trans
          (ho.start_le (Nat.zero_le k) (List.getElem?_eq_getElem hpos) hek)
          (hle h0))
    · have hlt' := ho.nonempty f (List.mem_of_getElem? hf)
      rcases Nat.lt_or_eq_of_le (hlast i f hf (by grind)) with hik | rfl
      · have hge := ho.stop_le hik hf hek
        have hs := hle (by omega)
        exact .inr ⟨e, List.mem_of_getElem? hek, by grind⟩
      · obtain rfl := Option.some.inj (hf.symm.trans hek)
        exact .inl (hak.trans (congrArg some (h.resolve_right fun h => h.2 hstop.symm)))

end Found

/-- **Addresses.** They are looked up right exactly if they are not below the first range, and are
the end of a range only where another one starts; an arena that is nil does no harm. -/
theorem amapitoa_spec (ix : ArenaMap α) (a : UInt64) (ho : Ordered ix.amap) :
    Finds ix a ↔ (∃ e, ix.amap[0]? = some e ∧ (e.start ≤ a ∨ ix.arenas[0]? = some none)) ∧
      ∀ (i : Nat) e, ix.amap[i]? = some e → e.stop = a →
        ix.arenas[i]? = some none ∨ ∃ f ∈ ix.amap, f.start = a := by
  by_cases hne : ix.amap = []
  · -- the first entry is read, and there is none
    have hnone : amapitoa ix a = none := by
      rw [amapitoa, hne]
      rfl
    simp [Finds, hne, hnone]
  obtain ⟨k, e, arena, hek, hak, hrun, hlast, hle⟩ := amapitoa_eq ix a ho hne
  rw [finds_iff ho hek hak hlast hle hrun, outside_iff ho hek hak hlast hle]

/-- Two arenas with a gap between them. -/
def twoArenas : ArenaMap Nat := ⟨[⟨16, 32⟩, ⟨48, 64⟩], [some 0, some 1], rfl, by decide⟩

theorem amapitoa_spec_gap : amapitoa twoArenas 50 = some (some (1, 2)) ∧
    amapitoa twoArenas 40 = some none := by
  have hfind : ∀ a, (∃ e, twoArenas.amap[0]? = some e ∧ e.start ≤ a) →
      (∀ e ∈ twoArenas.amap, e.stop ≠ a) → Finds twoArenas a := fun a ⟨e, he, hle⟩ hstop =>
    (amapitoa_spec twoArenas a ⟨by decide, by decide⟩).mpr
      ⟨⟨e, he, .inl hle⟩, fun i e he h => absurd h (hstop e (List.mem_of_getElem? he))⟩
  exact ⟨(hfind 50 ⟨_, rfl, by decide⟩ (by decide)).1 1 ⟨48, 64⟩ rfl (by decide) (by decide),
    (hfind 40 ⟨_, rfl, by decide⟩ (by decide)).2 (by decide)⟩

/-- The addresses 32 and 64 after the ranges, and 8 below the first one: the code finds arenas. -/
theorem amapitoa_outside : amapitoa twoArenas 32 = some (some (0, 16)) ∧
    amapitoa twoArenas 64 = some (some (1, 16)) ∧
    amapitoa twoArenas 8 = some (some (0, 2 ^ 64 - 8)) := by
  decide +kernel

end Plan9Port.Venti
