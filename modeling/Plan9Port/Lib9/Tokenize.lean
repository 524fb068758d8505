import Mathlib.Data.List.Forall2
import Plan9Port.Lib9.Quote

/-!
# Tokens

`qtoken` and `tokenize` of `lib9/tokenize.c`. `qtoken` works in place: what it has read of a token
is stored from the token's start on, without the quotes, so that the reading runs ahead of the
storing. Memory is the list of its bytes and a pointer is a place in it.

## Main definitions

* `qtoken`, `tokenize`
* `Separated`, `joined`: quoted strings with blanks between them

## Main results

* `tokenize_quotestrdup`: tokenizing gives back what was quoted
-/

namespace Plan9Port.Lib9

open Utf Memory Lib List Nat

/-- `" \t\r\n"`. -/
def qsep : List UInt8 := [0x20, 0x09, 0x0D, 0x0A]

/-- `utfrune(sep, c) != nil` for a `char` that is not NUL: `c` is below `Runesync`, as a `char` is
signed, and so this is `strchr`. -/
def utfrune (sep : List UInt8) (c : UInt8) : Bool := sep.contains c

/-- The loop of `qtoken`: `s` is where the output goes, `t` where the input is. -/
def qtokenLoop (sep : List UInt8) :
    Nat → List UInt8 → Nat → Nat → Bool → Option (List UInt8 × Nat × Nat)
  | 0, _, _, _, _ => none
  | fuel + 1, m, s, t, quoting => do
    let c ← m[t]?
    if c = 0 ∨ !quoting ∧ utfrune sep c then return (m, s, t)
    if c ≠ quote then
      let m ← put m s c
      qtokenLoop sep fuel m (s + 1) (t + 1) quoting
    else if !quoting then
      qtokenLoop sep fuel m s (t + 1) true
    else
      let d ← m[t + 1]?
      if d ≠ quote then
        qtokenLoop sep fuel m s (t + 1) false
      else
        let m ← put m s d
        qtokenLoop sep fuel m (s + 1) (t + 2) quoting

/-- Terminates the token at `s` and returns where the next one may start. -/
def qtoken (m : List UInt8) (s : Nat) (sep : List UInt8) : Option (List UInt8 × Nat) := do
  let (m, s, t) ← qtokenLoop sep (m.length + 1) m s s false
  let c ← m[s]?
  if c ≠ 0 then
    let m ← put m s 0
    return (m, if t = s then t + 1 else t)
  else
    return (m, t)

/-- `while(*s!='\0' && utfrune(qsep, *s)!=nil) s++`. -/
def skipSep (m : List UInt8) (s : Nat) : Nat :=
  s + ((m.drop s).takeWhile fun c => c ≠ 0 && utfrune qsep c).length

/-- The loop of `tokenize` for the `n` arguments there is still room for. -/
def tokenizeLoop : Nat → List UInt8 → Nat → Option (List Nat × List UInt8)
  | 0, m, _ => some ([], m)
  | n + 1, m, s => do
    let s := skipSep m s
    let c ← m[s]?
    if c = 0 then return ([], m)
    let (m, t) ← qtoken m s qsep
    let (args, m) ← tokenizeLoop n m t
    return (s :: args, m)

/-- The pointers stored in `args`, of which there are as many as is returned, and the memory. -/
def tokenize (m : List UInt8) (s : Nat) (maxargs : Nat) : Option (List Nat × List UInt8) :=
  tokenizeLoop maxargs m s

/-! ## One token -/

theorem put_gap (A G : List UInt8) (c : UInt8) (rest : List UInt8) :
    put (A ++ G ++ c :: rest) A.length c = some (A ++ [c] ++ (G ++ [c]).tail ++ rest) := by
  rcases G with _ | ⟨g, G⟩
  · simpa using put_append A rest c c
  · have := put_append A (G ++ c :: rest) g c
    simpa using this

theorem getElem?_gap (A G : List UInt8) (c : UInt8) (rest : List UInt8) :
    (A ++ G ++ c :: rest)[A.length + G.length]? = some c := by
  rw [getElem?_append_right (by simp)]
  simp

theorem ne_zero_of_mem_tail {G : List UInt8} {b : UInt8} (hG : ∀ x ∈ G, x ≠ 0) (hb : b ≠ 0) :
    ∀ x ∈ (G ++ [b]).tail, x ≠ 0 := by
  intro x hx
  rcases mem_append.mp (mem_of_mem_tail hx) with h | h
  · exact hG x h
  · rw [mem_singleton.mp h]
    exact hb

/-- Where an unquoted part of a token ends. -/
def Ends (sep rest : List UInt8) : Prop :=
  ∃ c tl, rest = c :: tl ∧ (c = 0 ∨ utfrune sep c)

/-- Bytes that are not special are moved down. -/
theorem qtokenLoop_plain {sep w rest : List UInt8}
    (hw : ∀ b ∈ w, b ≠ 0 ∧ b ≠ quote ∧ utfrune sep b = false) (hrest : Ends sep rest)
    (A G : List UInt8) (hG : ∀ b ∈ G, b ≠ 0) (fuel : Nat) (hfuel : w.length < fuel) :
    ∃ G', G'.length = G.length ∧ (∀ b ∈ G', b ≠ 0) ∧
      qtokenLoop sep fuel (A ++ G ++ (w ++ rest)) A.length (A.length + G.length) false =
        some (A ++ w ++ G' ++ rest, A.length + w.length, A.length + w.length + G.length) := by
  induction w generalizing A G fuel with
  | nil =>
    obtain ⟨c, tl, rfl, hc⟩ := hrest
    obtain _ | fuel := fuel
    · omega
    refine ⟨G, rfl, hG, ?_⟩
    have hcond : c = 0 ∨ (!false) = true ∧ utfrune sep c = true := by simpa using hc
    simp only [qtokenLoop, nil_append, getElem?_gap, some_bind, if_pos hcond]
    simp
  | cons b w ih =>
    obtain _ | fuel := fuel
    · omega
    obtain ⟨hb0, hbq, hbs⟩ := hw b (.head _)
    obtain ⟨G', hlen, hne, hloop⟩ := ih (fun x hx => hw x (mem_cons_of_mem b hx)) (A ++ [b])
      (G ++ [b]).tail (ne_zero_of_mem_tail hG hb0) fuel (by simpa using hfuel)
    have hgap : (G ++ [b]).tail.length = G.length := by simp
    refine ⟨G', hlen.trans hgap, hne, ?_⟩
    have hcond : ¬ (b = 0 ∨ (!false) = true ∧ utfrune sep b = true) := by simp [hb0, hbs]
    rw [hgap] at hloop
    simp only [length_append, length_cons, length_nil, zero_add] at hloop
    simp only [qtokenLoop, cons_append, getElem?_gap, some_bind, if_neg hcond, ne_eq, hbq,
      not_false_eq_true, if_true, put_gap]
    rw [add_right_comm, hloop]
    simp [add_comm, add_left_comm]

/-- A quoted part is moved down without its quotes. -/
theorem qtokenLoop_quoted {sep w rest : List UInt8} (hsep : utfrune sep quote = false)
    (hw : 0 ∉ w) (hrest : Ends sep rest) (A G : List UInt8) (hG : ∀ b ∈ G, b ≠ 0) (fuel : Nat)
    (hfuel : (double w).length + 1 < fuel) :
    ∃ G', G'.length + w.length = G.length + (double w).length + 1 ∧ (∀ b ∈ G', b ≠ 0) ∧
      qtokenLoop sep fuel (A ++ G ++ (double w ++ quote :: rest)) A.length
        (A.length + G.length) true =
        some (A ++ w ++ G' ++ rest, A.length + w.length, A.length + w.length + G'.length) := by
  have hq0 : quote ≠ 0 := by decide
  induction w generalizing A G fuel with
  | nil =>
    obtain _ | fuel := fuel
    · omega
    have hGq : ∀ b ∈ G ++ [quote], b ≠ 0 := by
      intro b hb
      rcases mem_append.mp hb with h | h
      · exact hG b h
      · rw [mem_singleton.mp h]
        exact hq0
    obtain ⟨G', hlen, hne, hloop⟩ := qtokenLoop_plain (w := []) (by simp) hrest A (G ++ [quote])
      hGq fuel (by simp at hfuel ⊢; omega)
    refine ⟨G', by simpa using hlen, hne, ?_⟩
    obtain ⟨d, tl, rfl, hd⟩ := hrest
    have hdq : d ≠ quote := by
      rintro rfl
      rcases hd with hd | hd
      · exact hq0 hd
      · rw [hsep] at hd
        cases hd
    have hnext : (A ++ G ++ quote :: d :: tl)[A.length + G.length + 1]? = some d := by
      simp [add_assoc]
    simp only [qtokenLoop, double_nil, nil_append, getElem?_gap, some_bind, hq0, false_and,
      or_self, ne_eq, not_true_eq_false, if_false, Bool.not_true, Bool.false_eq_true, hnext, hdq,
      not_false_eq_true, if_true]
    rw [hlen]
    simpa [add_assoc] using hloop
  | cons b w ih =>
    obtain _ | fuel := fuel
    · omega
    have hb0 : b ≠ 0 := fun h => hw (h ▸ mem_cons_self)
    have hw' : 0 ∉ w := fun h => hw (mem_cons_of_mem b h)
    rw [double_cons] at hfuel ⊢
    by_cases hbq : b = quote
    · subst hbq
      have hGq : ∀ x ∈ G ++ [quote], x ≠ 0 := by
        intro x hx
        rcases mem_append.mp hx with h | h
        · exact hG x h
        · rw [mem_singleton.mp h]
          exact hq0
      obtain ⟨G', hlen, hne, hloop⟩ := ih hw' (A ++ [quote]) ((G ++ [quote]) ++ [quote]).tail
        (ne_zero_of_mem_tail hGq hq0) fuel (by simp at hfuel ⊢; omega)
      refine ⟨G', ?_, hne, ?_⟩
      · simp at hlen ⊢
        omega
      have hnext : (A ++ G ++ quote :: quote :: (double w ++ quote :: rest))[
          A.length + G.length + 1]? = some quote := by
        have := getElem?_gap A (G ++ [quote]) quote (double w ++ quote :: rest)
        simpa [add_assoc] using this
      have hput : put (A ++ G ++ quote :: quote :: (double w ++ quote :: rest)) A.length quote =
          some (A ++ [quote] ++ ((G ++ [quote]) ++ [quote]).tail ++
            (double w ++ quote :: rest)) := by
        have := put_gap A (G ++ [quote]) quote (double w ++ quote :: rest)
        simpa [append_assoc] using this
      have hgap : (A ++ [quote]).length + ((G ++ [quote]) ++ [quote]).tail.length =
          A.length + G.length + 2 := by
        simp
        omega
      rw [hgap] at hloop
      simp only [length_append, length_cons, length_nil, zero_add] at hloop
      simp only [qtokenLoop, cons_append, nil_append, getElem?_gap, some_bind, hq0,
        false_and, or_self, ne_eq, not_true_eq_false, if_false, Bool.not_true, Bool.false_eq_true,
        hnext, hput, if_true]
      rw [hloop]
      simp [add_comm, add_left_comm]
    · have hcond : ¬ (b = 0 ∨ (!true) = true ∧ utfrune sep b = true) := by simp [hb0]
      rw [if_neg hbq] at hfuel ⊢
      obtain ⟨G', hlen, hne, hloop⟩ := ih hw' (A ++ [b]) (G ++ [b]).tail
        (ne_zero_of_mem_tail hG hb0) fuel (by simp at hfuel ⊢; omega)
      have hgap : (G ++ [b]).tail.length = G.length := by simp
      rw [hgap] at hloop hlen
      refine ⟨G', ?_, hne, ?_⟩
      · simp
        omega
      simp only [length_append, length_cons, length_nil, zero_add] at hloop
      simp only [qtokenLoop, cons_append, nil_append, getElem?_gap, some_bind,
        if_neg hcond, ne_eq, hbq, not_false_eq_true, if_true, put_gap]
      rw [add_right_comm, hloop]
      simp [add_comm, add_left_comm]

theorem utfrune_qsep_of_plain {b : UInt8} (h : Plain b) : utfrune qsep b = false := by
  have hlt := h.1
  rw [Bool.eq_false_iff]
  intro hmem
  have : b ∈ qsep := by simpa [utfrune] using hmem
  simp only [qsep, mem_cons, not_mem_nil, or_false] at this
  rcases this with rfl | rfl | rfl | rfl <;> simp at hlt

section

variable {w q rest : List UInt8} (hw : 0 ∉ w) (hq : Quotes w q) (hrest : Ends qsep rest)
  (A : List UInt8)
include hw hq hrest A

/-- The loop of `qtoken` reads the quoted form of a string as the string. -/
theorem qtokenLoop_quotes (fuel : Nat) (hfuel : q.length < fuel) :
    ∃ G, (∀ b ∈ G, b ≠ 0) ∧
      qtokenLoop qsep fuel (A ++ (q ++ rest)) A.length A.length false =
        some (A ++ w ++ G ++ rest, A.length + w.length, A.length + w.length + G.length) := by
  rcases hq with rfl | ⟨rfl, -, hplain⟩
  · obtain _ | fuel := fuel
    · omega
    obtain ⟨G, -, hne, hloop⟩ := qtokenLoop_quoted (by decide : utfrune qsep quote = false) hw
      hrest A [quote] (by simp [quote]) fuel (by simp [quoted] at hfuel; omega)
    refine ⟨G, hne, ?_⟩
    have hfirst : (A ++ (quoted w ++ rest))[A.length]? = some quote := by
      simp [quoted]
    have hcond : ¬ (quote = 0 ∨ True ∧ utfrune qsep quote = true) := by decide
    simp only [qtokenLoop, hfirst, some_bind, ne_eq, not_true_eq_false, if_false,
      Bool.not_false, if_true]
    rw [if_neg hcond]
    simpa [quoted] using hloop
  · have hw' : ∀ b ∈ q, b ≠ 0 ∧ b ≠ quote ∧ utfrune qsep b = false := by
      intro b hb
      exact ⟨fun h => hw (h ▸ hb), (hplain b hb).2, utfrune_qsep_of_plain (hplain b hb)⟩
    obtain ⟨G, hlen, hne, hloop⟩ := qtokenLoop_plain hw' hrest A [] (by simp) fuel hfuel
    refine ⟨G, hne, ?_⟩
    rw [hlen]
    simpa using hloop

/-- One token: it is terminated, and what has been used up of the input is gone. The end of the
input stays where it is if there is nothing before it to be overwritten. -/
theorem qtoken_spec :
    (∃ J rest', (rest' = rest ∨ ∃ c, utfrune qsep c ∧ rest = c :: rest') ∧
      qtoken (A ++ (q ++ rest)) A.length qsep =
        some ((A ++ w ++ 0 :: J) ++ rest', (A ++ w ++ 0 :: J).length)) ∨
    (∃ tl, rest = 0 :: tl ∧
      qtoken (A ++ (q ++ rest)) A.length qsep = some ((A ++ w) ++ 0 :: tl, (A ++ w).length)) := by
  obtain ⟨G, hne, hloop⟩ := qtokenLoop_quotes hw hq hrest A ((A ++ (q ++ rest)).length + 1)
    (by simp; omega)
  rcases G with _ | ⟨g, G⟩
  · obtain ⟨c, tl, rfl, hc⟩ := hrest
    have hget : (A ++ w ++ c :: tl)[A.length + w.length]? = some c := getElem?_gap A w c tl
    simp only [append_nil, length_nil, add_zero] at hloop
    by_cases hc0 : c = 0
    · subst hc0
      refine Or.inr ⟨tl, rfl, ?_⟩
      simp only [qtoken, hloop, some_bind, hget, ne_eq, not_true_eq_false, if_false]
      rw [length_append]
      rfl
    · refine Or.inl ⟨[], tl, Or.inr ⟨c, hc.resolve_left hc0, rfl⟩, ?_⟩
      have hput := put_append (A ++ w) tl c 0
      rw [length_append] at hput
      simp only [qtoken, hloop, some_bind, hget, ne_eq, hc0, not_false_eq_true, if_true, hput]
      simp [add_assoc]
  · have hg : g ≠ 0 := hne g (.head _)
    have hget : (A ++ w ++ g :: G ++ rest)[A.length + w.length]? = some g := by
      simp
    have hput : put (A ++ w ++ g :: G ++ rest) (A.length + w.length) 0 =
        some (A ++ w ++ 0 :: G ++ rest) := by
      have := put_append (A ++ w) (G ++ rest) g 0
      simpa using this
    refine Or.inl ⟨G, rest, Or.inl rfl, ?_⟩
    simp only [qtoken, hloop, some_bind, hget, ne_eq, hg, not_false_eq_true, if_true, hput]
    simp [add_assoc]

end

/-! ## All tokens -/

/-- Blanks, tabs, carriage returns and newlines. -/
def Blank (sep : List UInt8) : Prop := ∀ b ∈ sep, b ∈ qsep

/-- Quoted strings, each with the blanks that follow it. -/
def joined : List (List UInt8 × List UInt8) → List UInt8
  | [] => []
  | (q, sep) :: items => q ++ (sep ++ joined items)

/-- There are blanks between any two of the strings; after the last one there may be none. -/
def Separated : List (List UInt8 × List UInt8) → Prop
  | [] => True
  | (_, sep) :: items => Blank sep ∧ (items ≠ [] → sep ≠ []) ∧ Separated items

theorem Quotes.exists_cons {w q : List UInt8} (hw : 0 ∉ w) (h : Quotes w q) :
    ∃ c q', q = c :: q' ∧ c ≠ 0 ∧ utfrune qsep c = false := by
  rcases h with rfl | ⟨rfl, hne, hplain⟩
  · exact ⟨quote, _, rfl, by decide, by decide⟩
  · obtain ⟨c, q', rfl⟩ := exists_cons_of_ne_nil hne
    have hc := hplain c (.head _)
    exact ⟨c, q', rfl, fun h => hw (h ▸ mem_cons_self), utfrune_qsep_of_plain hc⟩

variable {lead : List UInt8} {c : UInt8}

theorem skipSep_spec (P : List UInt8) (hlead : Blank lead) (hc : c = 0 ∨ utfrune qsep c = false)
    (tl : List UInt8) : skipSep (P ++ (lead ++ c :: tl)) P.length = P.length + lead.length := by
  have hpos : ∀ b ∈ lead, (b ≠ 0 && utfrune qsep b) = true := by
    intro b hb
    have hmem := hlead b hb
    have hb0 : b ≠ 0 := by
      rintro rfl
      revert hmem
      decide
    simpa [utfrune, hb0] using hmem
  rw [skipSep, drop_left, takeWhile_append_of_pos hpos, takeWhile_cons]
  rcases hc with rfl | hc
  · simp
  · simp [hc]

/-- The string that `args[i]` points to. -/
def arg (m : List UInt8) (p : Nat) : List UInt8 := cstr (m.drop p)

theorem arg_append {w : List UInt8} (hw : 0 ∉ w) (A X : List UInt8) :
    arg (A ++ w ++ 0 :: X) A.length = w := by
  rw [arg, append_assoc, drop_left, cstr, takeWhile_append_of_pos]
  · simp
  · intro b hb
    simpa using fun h : b = 0 => hw (h ▸ hb)

theorem tokenizeLoop_nil (n : Nat) (P : List UInt8) (hlead : Blank lead) (tl : List UInt8) :
    tokenizeLoop n (P ++ (lead ++ 0 :: tl)) P.length = some ([], P ++ (lead ++ 0 :: tl)) := by
  cases n with
  | zero => rfl
  | succ n =>
    have hget := getElem?_gap P lead 0 tl
    rw [append_assoc] at hget
    simp only [tokenizeLoop, skipSep_spec P hlead (Or.inl rfl), hget, some_bind, if_true]
    rfl

variable {items : List (List UInt8 × List UInt8)}

/-- What stands after a quoted string ends it. -/
theorem ends_of_separated {q sep : List UInt8} (h : Separated ((q, sep) :: items))
    (tl : List UInt8) :
    Ends qsep (sep ++ (joined items ++ 0 :: tl)) := by
  obtain ⟨hblank, hne, -⟩ := h
  rcases sep with _ | ⟨c, sep⟩
  · have hitems : items = [] := by
      by_contra hitems
      exact hne hitems rfl
    subst hitems
    exact ⟨0, tl, rfl, Or.inl rfl⟩
  · refine ⟨c, _, rfl, Or.inr ?_⟩
    simpa [utfrune] using hblank c (.head _)

/-- What is left of the blanks when the first of them is used up. -/
theorem blank_of_cons {sep rest' : List UInt8} {tl : List UInt8} (hblank : Blank sep)
    (hne : items ≠ [] → sep ≠ []) (hc : utfrune qsep c = true)
    (h : sep ++ (joined items ++ 0 :: tl) = c :: rest') :
    ∃ sep', Blank sep' ∧ rest' = sep' ++ (joined items ++ 0 :: tl) := by
  rcases sep with _ | ⟨d, sep⟩
  · have hitems : items = [] := by
      by_contra hitems
      exact hne hitems rfl
    subst hitems
    obtain ⟨rfl, -⟩ := cons.inj h
    simp [utfrune, qsep] at hc
  · obtain ⟨-, rfl⟩ := cons.inj h
    exact ⟨sep, fun b hb => hblank b (mem_cons_of_mem d hb), rfl⟩

/-- The loop over the arguments: what lies before `s` is not touched again. -/
theorem tokenizeLoop_spec {ws : List (List UInt8)}
    (hws : Forall₂ (fun w item => 0 ∉ w ∧ Quotes w item.1) ws items) (hsep : Separated items)
    (n : Nat) (hn : ws.length ≤ n) (P : List UInt8) (hlead : Blank lead) (tl : List UInt8) :
    ∃ args X, tokenizeLoop n (P ++ (lead ++ (joined items ++ 0 :: tl))) P.length =
      some (args, P ++ X) ∧ args.map (arg (P ++ X)) = ws := by
  induction hws generalizing n P lead with
  | nil => exact ⟨[], _, tokenizeLoop_nil n P hlead tl, rfl⟩
  | @cons w item ws items hhead htail ih =>
    obtain ⟨q, sep⟩ := item
    have hw : 0 ∉ w := hhead.1
    have hq : Quotes w q := hhead.2
    obtain ⟨n, rfl⟩ := exists_eq_succ_of_ne_zero (Nat.ne_of_gt (zero_lt_of_lt hn))
    have hrest := ends_of_separated hsep tl
    obtain ⟨hblank, hne, hsep'⟩ := hsep
    obtain ⟨c, q', hqc, hc0, hcs⟩ := hq.exists_cons hw
    have htext : P ++ (lead ++ (joined ((q, sep) :: items) ++ 0 :: tl)) =
        (P ++ lead) ++ (q ++ (sep ++ (joined items ++ 0 :: tl))) := by
      simp [joined]
    have hskip : skipSep ((P ++ lead) ++ (q ++ (sep ++ (joined items ++ 0 :: tl)))) P.length =
        (P ++ lead).length := by
      rw [hqc, append_assoc, cons_append, skipSep_spec P hlead (Or.inr hcs), length_append]
    have hget : ((P ++ lead) ++ (q ++ (sep ++ (joined items ++ 0 :: tl))))[
        (P ++ lead).length]? = some c := by
      rw [hqc, cons_append]
      simp
    rw [htext]
    rcases qtoken_spec hw hq hrest (P ++ lead) with
      ⟨J, rest', hrest', htoken⟩ | ⟨tl', hzero, htoken⟩
    · obtain ⟨sep', hsepb, rfl⟩ : ∃ sep', Blank sep' ∧
          rest' = sep' ++ (joined items ++ 0 :: tl) := by
        rcases hrest' with rfl | ⟨d, hd, hcons⟩
        · exact ⟨sep, hblank, rfl⟩
        · exact blank_of_cons hblank hne hd hcons
      obtain ⟨args, X, hloop, hargs⟩ := ih hsep' n (by simpa using hn)
        (P ++ lead ++ w ++ 0 :: J) hsepb
      refine ⟨(P ++ lead).length :: args, lead ++ (w ++ (0 :: J ++ X)), ?_, ?_⟩
      · simp only [tokenizeLoop, hskip, hget, some_bind, hc0, if_false, htoken, hloop]
        simp
      have hmem : P ++ (lead ++ (w ++ (0 :: J ++ X))) = P ++ lead ++ w ++ 0 :: J ++ X := by simp
      rw [hmem, map_cons, hargs]
      congr 1
      rw [append_assoc (P ++ lead ++ w), cons_append]
      exact arg_append hw (P ++ lead) (J ++ X)
    · -- the input ends with this token
      have hitems : items = [] := by
        by_contra hitems
        obtain ⟨d, sep', rfl⟩ := exists_cons_of_ne_nil (hne hitems)
        cases hzero
        exact absurd (hblank 0 (.head _)) (by decide)
      subst hitems
      cases htail
      have hend := tokenizeLoop_nil n (P ++ lead ++ w) (forall_mem_nil _ : Blank []) tl'
      refine ⟨[(P ++ lead).length], lead ++ (w ++ 0 :: tl'), ?_, ?_⟩
      · rw [nil_append] at hend
        simp only [tokenizeLoop, hskip, hget, some_bind, hc0, if_false, htoken, hend]
        simp
      · have hmem : P ++ (lead ++ (w ++ 0 :: tl')) = P ++ lead ++ w ++ 0 :: tl' := by simp
        rw [hmem, map_cons, arg_append hw (P ++ lead) tl']
        rfl

/-- Quoting is undone by tokenizing, whatever blanks there are before, between and after the
quoted strings. -/
theorem tokenize_quotestrdup (fmtdoquote : Option (Rune → Bool)) {ws : List (List UInt8)}
    (hws : ∀ w ∈ ws, 0 ∉ w ∧ Countable w) {maxargs : Nat} (hmax : ws.length ≤ maxargs) :
    ∃ qs, List.Forall₂ (fun w q => quotestrdup fmtdoquote (w ++ [0]) = some (q ++ [0])) ws qs ∧
      ∀ items lead P tl, items.map Prod.fst = qs → Separated items → Blank lead →
        ∃ args m, tokenize (P ++ (lead ++ (joined items ++ 0 :: tl))) P.length maxargs =
          some (args, m) ∧ args.length = ws.length ∧ args.map (arg m) = ws := by
  have hquote : ∀ w ∈ ws, ∃ q, quotestrdup fmtdoquote (w ++ [0]) = some (q ++ [0]) ∧
      Quotes w q := fun w hw => quotestrdup_spec fmtdoquote [] (hws w hw).1 (hws w hw).2
  choose! quoteOf hdup hquotes using hquote
  refine ⟨ws.map quoteOf, ?_, ?_⟩
  · rw [forall₂_map_right_iff, forall₂_same]
    exact hdup
  intro items lead P tl hitems hsep hlead
  have hforall : Forall₂ (fun w item => 0 ∉ w ∧ Quotes w (Prod.fst item)) ws items := by
    have hmap : Forall₂ (fun w q => 0 ∉ w ∧ Quotes w q) ws (items.map Prod.fst) := by
      rw [hitems, forall₂_map_right_iff, forall₂_same]
      exact fun w hw => ⟨(hws w hw).1, hquotes w hw⟩
    rwa [forall₂_map_right_iff] at hmap
  obtain ⟨args, X, hrun, hargs⟩ := tokenizeLoop_spec hforall hsep maxargs hmax P hlead tl
  refine ⟨args, P ++ X, hrun, ?_, hargs⟩
  rw [← hargs, length_map]

/-- `ab`, the empty string and `'` again. -/
theorem tokenize_quotestrdup_three :
    ∃ qs, List.Forall₂ (fun w q => quotestrdup none (w ++ [0]) = some (q ++ [0]))
        [[0x61, 0x62], [], [quote]] qs ∧
      ∀ items lead P tl, items.map Prod.fst = qs → Separated items → Blank lead →
        ∃ args m, tokenize (P ++ (lead ++ (joined items ++ 0 :: tl))) P.length 3 =
          some (args, m) ∧ args.length = 3 ∧
          args.map (arg m) = [[0x61, 0x62], [], [quote]] :=
  tokenize_quotestrdup none (by decide) (by decide)

/-- A string that is too long is not quoted: its length is no `int`. -/
theorem quotestrdup_overflow : ∃ w : List UInt8, 0 ∉ w ∧ quotestrdup none (w ++ [0]) = none := by
  refine ⟨0x20 :: replicate INT_MAX 0x61, ?_, quotestrdup_of_long le_rfl⟩
  rw [mem_cons, mem_replicate]
  rintro (h | ⟨-, h⟩)
  · exact absurd h (by decide)
  · exact absurd h (by decide)

end Plan9Port.Lib9
