import Mathlib.Data.List.Basic

/-!
# Runs that can fail

Steps of `Option` and `Except` computations, their inversion, and the invariant rule for loops that
are folds.
-/

namespace Plan9Port.Lib

variable {ε α β σ : Type} {k : α → Except ε β} {x : Except ε α}

@[simp] theorem some_bind.{u} {α β : Type u} (a : α) (k : α → Option β) :
    (some a >>= k) = k a := rfl

@[simp] theorem ok_bind (a : α) (k : α → Except ε β) : (Except.ok a >>= k) = k a := rfl

theorem bind_eq_ok {b : β} (h : x >>= k = .ok b) : ∃ a, x = .ok a ∧ k a = .ok b := by
  cases x with
  | error e => cases h
  | ok a => exact ⟨a, rfl, h⟩

theorem bind_eq_error {e : ε} (h : x >>= k = .error e) :
    x = .error e ∨ ∃ a, x = .ok a ∧ k a = .error e := by
  cases x with
  | error e' => exact Or.inl (congrArg Except.error (Except.error.inj h))
  | ok a => exact Or.inr ⟨a, rfl, h⟩

/-- **The rule for a loop over a list**: the invariant is about what has been visited. -/
theorem foldlM_induct {f : σ → α → Except ε σ} {l : List α} {s t : σ} (P : List α → σ → Prop)
    (hrun : l.foldlM f s = .ok t) (hstart : P [] s)
    (hstep : ∀ pre x post s s', l = pre ++ x :: post → P pre s → f s x = .ok s' →
      P (pre ++ [x]) s') :
    P l t := by
  suffices h : ∀ post pre s, l = pre ++ post → P pre s → post.foldlM f s = .ok t → P l t from
    h l [] s rfl hstart hrun
  intro post
  induction post with
  | nil =>
    intro pre s hl hP hrun
    obtain rfl : s = t := Except.ok.inj hrun
    rwa [hl, List.append_nil]
  | cons x post ih =>
    intro pre s hl hP hrun
    rw [List.foldlM_cons] at hrun
    obtain ⟨s', hx, hrest⟩ := bind_eq_ok hrun
    exact ih (pre ++ [x]) s' (by rw [hl, List.append_assoc]; rfl) (hstep pre x post s s' hl hP hx)
      hrest

end Plan9Port.Lib
