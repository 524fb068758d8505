import Mathlib.Logic.Function.Iterate

/-!
# Linear histories and stacks of reversible steps

A `Timeline` is a document with the documents before and after it, between which undo and redo
move. What a program keeps instead are two stacks of steps: a step taken from one stack changes the
document and leaves its reverse for the other stack. Steps come in groups, each with a key, and
keys grow along the history; so the steps at the top of a stack that share a key are those that are
taken at once.
-/

/-- A document, those before it (the last one first), and those after it. -/
structure Timeline (δ : Type*) where
  past : List δ
  present : δ
  future : List δ

namespace Timeline

open List

variable {δ ε κ : Type*} {t : Timeline δ}

/-- A new document. What was undone is gone. -/
def commit (t : Timeline δ) (d : δ) : Timeline δ := ⟨t.present :: t.past, d, []⟩

/-- One document back. -/
def undo : Timeline δ → Timeline δ
  | ⟨d :: past, e, future⟩ => ⟨past, d, e :: future⟩
  | t => t

/-- One document forward. -/
def redo : Timeline δ → Timeline δ
  | ⟨past, e, d :: future⟩ => ⟨e :: past, d, future⟩
  | t => t

theorem redo_undo (h : t.past ≠ []) : t.undo.redo = t := by
  rcases t with ⟨_ | ⟨d, past⟩, e, future⟩
  · exact absurd rfl h
  · rfl

theorem length_past_undo (t : Timeline δ) : t.undo.past.length = t.past.length - 1 := by
  rcases t with ⟨_ | ⟨d, past⟩, e, future⟩ <;> rfl

/-- All documents, from the first one on. -/
def docs (t : Timeline δ) : List δ := t.past.reverse ++ t.present :: t.future

@[simp] theorem docs_undo (t : Timeline δ) : t.undo.docs = t.docs := by
  rcases t with ⟨_ | ⟨d, past⟩, e, future⟩
  · rfl
  · simp [undo, docs]

@[simp] theorem docs_redo (t : Timeline δ) : t.redo.docs = t.docs := by
  rcases t with ⟨past, e, _ | ⟨d, future⟩⟩
  · rfl
  · simp [redo, docs]

/-- Undoing and then redoing as often, as far as there is something to undo. -/
theorem redo_iterate_undo_iterate {k : Nat} (hk : k ≤ t.past.length) :
    redo^[k] (undo^[k] t) = t := by
  induction k generalizing t with
  | zero => rfl
  | succ k ih =>
    have hundo := ih (t := t.undo) (by rw [length_past_undo]; omega)
    rw [Function.iterate_succ_apply', Function.iterate_succ_apply, hundo]
    exact redo_undo (ne_nil_of_length_pos (by omega))

/-! ## Reversible steps -/

variable {es : List ε} {d : δ} {es' : List ε} {q : κ}

section Steps

variable {Flip : δ → ε → δ → ε → Prop}

variable (Flip) in
/-- The steps `es`, the first one first, change `d` into `d'`; the steps `es'` are their reverses,
the last one first. -/
inductive Leads : δ → List ε → δ → List ε → Prop
  | nil (d : δ) : Leads d [] d []
  | cons {d d₁ d₂ : δ} {e e' : ε} {es es' : List ε} :
      Flip d e d₁ e' → Leads d₁ es d₂ es' → Leads d (e :: es) d₂ (es' ++ [e'])

theorem Leads.append {d₁ d₂ : δ} {fs fs' : List ε} (h : Leads Flip d es d₁ es')
    (h' : Leads Flip d₁ fs d₂ fs') : Leads Flip d (es ++ fs) d₂ (fs' ++ es') := by
  induction h with
  | nil => simpa using h'
  | cons hflip _ ih =>
    rw [cons_append, ← append_assoc]
    exact .cons hflip (ih h')

/-- The reverses lead back. -/
theorem Leads.symm (hflip : ∀ {d e d' e'}, Flip d e d' e' → Flip d' e' d e) {d' : δ}
    (h : Leads Flip d es d' es') : Leads Flip d' es' d es := by
  induction h with
  | nil d => exact .nil d
  | cons hstep _ ih => exact ih.append (.cons (hflip hstep) (.nil _))

/-! ## Stacks of groups -/

variable (Flip) in
/-- Taking the groups `gs` one after the other, the document `d` becomes each of `ds` in turn. The
reverses of a group have its key again. -/
inductive Visits (key : ε → κ) : δ → List (κ × List ε) → List δ → Prop
  | nil (d : δ) : Visits key d [] []
  | cons {d d' : δ} {q : κ} {es es' : List ε} {gs : List (κ × List ε)} {ds : List δ} :
      es ≠ [] → (∀ e ∈ es, key e = q) → (∀ e ∈ es', key e = q) → Leads Flip d es d' es' →
      Visits key d' gs ds → Visits key d ((q, es) :: gs) (d' :: ds)

theorem Visits.keys {key : ε → κ} {gs : List (κ × List ε)} {ds : List δ}
    (h : Visits Flip key d gs ds) : ∀ g ∈ gs, g.2 ≠ [] ∧ ∀ e ∈ g.2, key e = g.1 := by
  induction h with
  | nil => simp
  | cons hne hkey _ _ _ ih => exact forall_mem_cons.mpr ⟨⟨hne, hkey⟩, ih⟩

variable [LT κ]

variable (Flip) in
/-- The groups `ps` undo and the groups `fs` redo along the timeline `t`, in the order of their
keys. -/
structure Represents (key : ε → κ) (t : Timeline δ) (ps fs : List (κ × List ε)) : Prop where
  past : Visits Flip key t.present ps t.past
  future : Visits Flip key t.present fs t.future
  sorted : ((ps.map Prod.fst).reverse ++ fs.map Prod.fst).Pairwise (· < ·)

variable {key : ε → κ} {ps fs : List (κ × List ε)}

/-- A new group, with a key past all others of the past. -/
theorem Represents.commit (h : Represents Flip key t ps fs) (hne : es ≠ [])
    (hkey : ∀ e ∈ es, key e = q) (hkey' : ∀ e ∈ es', key e = q)
    (hleads : Leads Flip d es t.present es') (hq : ∀ g ∈ ps, g.1 < q) :
    Represents Flip key (t.commit d) ((q, es) :: ps) [] := by
  refine ⟨.cons hne hkey hkey' hleads h.past, .nil _, ?_⟩
  rw [map_nil, append_nil, map_cons, reverse_cons, pairwise_append]
  refine ⟨(pairwise_append.mp h.sorted).1, pairwise_singleton _ _, ?_⟩
  intro p hp p' hp'
  obtain ⟨g, hg, rfl⟩ := mem_map.mp (mem_reverse.mp hp)
  rw [mem_singleton.mp hp']
  exact hq g hg

theorem Leads.ne_nil {d' : δ} (h : Leads Flip d es d' es') (hne : es ≠ []) : es' ≠ [] := by
  cases h with
  | nil => exact absurd rfl hne
  | cons => simp

/-- The last group of the past becomes the first one of the future. The sequence of all keys stays
what it was. -/
theorem Represents.undo (hflip : ∀ {d e d' e'}, Flip d e d' e' → Flip d' e' d e)
    (h : Represents Flip key t ((q, es) :: ps) fs) :
    es ≠ [] ∧ (∀ e ∈ es, key e = q) ∧ ∃ es', Leads Flip t.present es t.undo.present es' ∧
      Represents Flip key t.undo ps ((q, es') :: fs) := by
  obtain ⟨past, d, future⟩ := t
  obtain ⟨hpast, hfuture, hsorted⟩ := h
  obtain - | ⟨hne, hkey, hkey', hleads, hrest⟩ := hpast
  refine ⟨hne, hkey, _, hleads, hrest, ?_, by simpa using hsorted⟩
  exact .cons (hleads.ne_nil hne) hkey' hkey (hleads.symm hflip) hfuture

theorem Represents.redo (hflip : ∀ {d e d' e'}, Flip d e d' e' → Flip d' e' d e)
    (h : Represents Flip key t ps ((q, es) :: fs)) :
    es ≠ [] ∧ (∀ e ∈ es, key e = q) ∧ ∃ es', Leads Flip t.present es t.redo.present es' ∧
      Represents Flip key t.redo ((q, es') :: ps) fs := by
  obtain ⟨past, d, future⟩ := t
  obtain ⟨hpast, hfuture, hsorted⟩ := h
  obtain - | ⟨hne, hkey, hkey', hleads, hrest⟩ := hfuture
  refine ⟨hne, hkey, _, hleads, ?_, hrest, by simpa using hsorted⟩
  exact .cons (hleads.ne_nil hne) hkey' hkey (hleads.symm hflip) hpast

theorem Represents.lt_of_mem_past (h : Represents Flip key t ((q, es) :: ps) fs) :
    ∀ g ∈ ps, g.1 < q := by
  intro g hg
  have hsorted := (pairwise_append.mp h.sorted).1
  rw [map_cons, reverse_cons, pairwise_append] at hsorted
  exact hsorted.2.2 g.1 (by simpa using ⟨_, hg⟩) q (by simp)

theorem Represents.lt_of_mem_future (h : Represents Flip key t ps ((q, es) :: fs)) :
    ∀ g ∈ fs, q < g.1 := by
  intro g hg
  have hsorted := (pairwise_append.mp h.sorted).2.1
  rw [map_cons, pairwise_cons] at hsorted
  exact hsorted.1 g.1 (mem_map.mpr ⟨g, hg, rfl⟩)

theorem Represents.undo_of_nil (h : Represents Flip key t [] fs) : t.undo = t := by
  obtain ⟨past, d, future⟩ := t
  obtain ⟨hpast, -, -⟩ := h
  cases hpast
  rfl

theorem Represents.redo_of_nil (h : Represents Flip key t ps []) : t.redo = t := by
  obtain ⟨past, d, future⟩ := t
  obtain ⟨-, hfuture, -⟩ := h
  cases hfuture
  rfl

end Steps

end Timeline
