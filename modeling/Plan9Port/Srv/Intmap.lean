import Mathlib.Data.List.Nodup

/-!
# Maps from numbers

The maps of lib9p: lists by the last bits of the number, in which a number is only once.

## Main definitions

* `Intmap`
* `Intmap.lookupkey`, `Intmap.caninsertkey`, `Intmap.deletekey`

## Main results

* `lookupkey_insert`, `lookupkey_deletekey`: the map is a partial function
-/

namespace Plan9Port.Srv

open Function

variable {α : Type}

/-- The number of chains. -/
def NHASH : Nat := 128

/-- The chain of a key. -/
def hashid (id : Nat) : Nat := id % NHASH

/-- A map from numbers. -/
structure Intmap (α : Type) where
  hash : Nat → List (Nat × α)
  nodup : ∀ h, ((hash h).map Prod.fst).Nodup

namespace Intmap

/-- The empty map. -/
def allocmap : Intmap α := ⟨fun _ => [], fun _ => List.nodup_nil⟩

/-- `llookup`, in one of the lists. -/
def llookup (l : List (Nat × α)) (id : Nat) : Option α := (l.find? (·.1 = id)).map Prod.snd

/-- What a key stands for. -/
def lookupkey (map : Intmap α) (id : Nat) : Option α := llookup (map.hash (hashid id)) id

variable {l : List (Nat × α)} {id : Nat}

theorem llookup_eq_none : llookup l id = none ↔ id ∉ l.map Prod.fst := by
  rw [llookup, Option.map_eq_none_iff, List.find?_eq_none]
  constructor
  · intro h hmem
    obtain ⟨p, hp, rfl⟩ := List.mem_map.mp hmem
    exact h p hp (by simp)
  · intro h p hp heq
    rw [decide_eq_true_eq] at heq
    exact h (heq ▸ List.mem_map_of_mem hp)

/-- The list gets a new first entry. -/
def insert (map : Intmap α) (id : Nat) (v : α) (h : map.lookupkey id = none) : Intmap α where
  hash := update map.hash (hashid id) ((id, v) :: map.hash (hashid id))
  nodup k := by
    by_cases hk : k = hashid id
    · subst hk
      rw [update_self, List.map_cons, List.nodup_cons]
      exact ⟨llookup_eq_none.mp h, map.nodup _⟩
    · rw [update_of_ne hk]
      exact map.nodup k

/-- `caninsertkey`: nothing is inserted if the number is there already. -/
def caninsertkey (map : Intmap α) (id : Nat) (v : α) : Option (Intmap α) :=
  match h : map.lookupkey id with
  | none => some (map.insert id v h)
  | some _ => none

/-- `deletekey`, without what it returns. -/
def deletekey (map : Intmap α) (id : Nat) : Intmap α where
  hash := update map.hash (hashid id) ((map.hash (hashid id)).eraseP (·.1 = id))
  nodup k := by
    by_cases hk : k = hashid id
    · subst hk
      rw [update_self]
      exact (map.nodup _).sublist ((List.eraseP_sublist).map Prod.fst)
    · rw [update_of_ne hk]
      exact map.nodup k

theorem lookupkey_insert (map : Intmap α) (id : Nat) (v : α) (h : map.lookupkey id = none)
    (k : Nat) : (map.insert id v h).lookupkey k = if k = id then some v else map.lookupkey k := by
  rw [lookupkey, insert]
  dsimp only
  by_cases hk : k = id
  · subst hk
    rw [if_pos rfl, update_self]
    simp [llookup]
  rw [if_neg hk]
  by_cases hh : hashid k = hashid id
  · rw [hh, update_self, lookupkey, hh]
    simp [llookup, Ne.symm hk]
  · rw [update_of_ne hh]
    rfl

theorem llookup_eraseP (hnodup : (l.map Prod.fst).Nodup) (k : Nat) :
    llookup (l.eraseP (·.1 = id)) k = if k = id then none else llookup l k := by
  induction l with
  | nil => simp [llookup]
  | cons p l ih =>
    rw [List.map_cons, List.nodup_cons] at hnodup
    by_cases hp : p.1 = id
    · rw [List.eraseP_cons_of_pos (by simpa using hp)]
      by_cases hk : k = id
      · rw [if_pos hk, llookup_eq_none, hk, ← hp]
        exact hnodup.1
      · have hpk : p.1 ≠ k := fun h => hk (h.symm.trans hp)
        rw [if_neg hk]
        simp [llookup, hpk]
    · rw [List.eraseP_cons_of_neg (by simpa using hp)]
      by_cases hpk : p.1 = k
      · have hk : k ≠ id := fun h => hp (hpk.trans h)
        rw [if_neg hk]
        simp [llookup, hpk]
      · have hcons : ∀ l', llookup (p :: l') k = llookup l' k := by
          intro l'
          simp [llookup, hpk]
        rw [hcons, hcons, ih hnodup.2]

theorem lookupkey_deletekey (map : Intmap α) (id k : Nat) :
    (map.deletekey id).lookupkey k = if k = id then none else map.lookupkey k := by
  rw [lookupkey, deletekey]
  dsimp only
  by_cases hh : hashid k = hashid id
  · rw [hh, update_self, llookup_eraseP (map.nodup _), lookupkey, hh]
  · have hk : k ≠ id := fun h => hh (congrArg hashid h)
    rw [update_of_ne hh, if_neg hk]
    rfl

theorem caninsertkey_eq_some {map map' : Intmap α} {v : α} (h : map.caninsertkey id v = some map') :
    map.lookupkey id = none ∧
      ∀ k, map'.lookupkey k = if k = id then some v else map.lookupkey k := by
  rw [caninsertkey] at h
  split at h
  · next hnone =>
    cases h
    exact ⟨hnone, lookupkey_insert map id v hnone⟩
  · cases h

end Intmap

end Plan9Port.Srv
