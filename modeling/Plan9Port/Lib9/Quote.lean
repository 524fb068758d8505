import Plan9Port.Lib.Memory
import Plan9Port.Lib9.Atoi
import Plan9Port.Utf.Rune

/-!
# Quoted strings

`__quotesetup` and `__needsquotes` of `lib9/fmt/fmtquote.c`, for a string of bytes, and
`quotestrdup` of `lib9/quote.c`. Whether a string is quoted, and how long it then is, is found out
rune by rune; the quoting itself goes byte by byte, into a buffer of that length. An `int` that
overflows and a store outside the buffer stop the program.

## Main definitions

* `quotesetup`, `needsquotes`
* `quotestrdup`
* `quoted`: what a string looks like in quotes

## Main results

* `needsquotes_spec`: the length is right, and a string left alone has neither blank nor quote
* `quotestrdup_spec`: the buffer suffices
-/

namespace Plan9Port.Lib9

open Utf Memory Lib List Nat

/-- The byte `'`. -/
def quote : UInt8 := 0x27

/-- The largest `int`. -/
def INT_MAX : Nat := 2 ^ 31 - 1

/-- The value of an expression of type `int`. -/
def int (x : Int) : Option Int :=
  if -2 ^ 31 ≤ x ∧ x ≤ INT_MAX then some x else none

/-- What quoting takes. -/
structure Quoteinfo where
  quoted : Bool
  nrunesin : Int
  nbytesin : Int
  nrunesout : Int
  nbytesout : Int
deriving DecidableEq

/-- The characters for which a string is quoted; `fmtdoquote` may be nil. -/
def special (fmtdoquote : Option (Rune → Bool)) (c : Rune) : Bool :=
  c.toNat ≤ 0x20 || c.toNat = 0x27 || fmtdoquote.any (· c)

/-- `n + d > nout`, for a sum that is computed in an `int`. -/
def exceeds (n d nout : Int) : Option Bool := do
  let x ← int (n + d)
  return decide (x > nout)

/-- The body of the loop of `__quotesetup` up to where the input is advanced, and if it gets there:
a `break` in front of a doubled quote keeps the quotes that were counted. -/
def quoteRune (fmtdoquote : Option (Rune → Bool)) (c : Rune) (w : Nat) (nout : Int)
    (runesout : Bool) (q : Quoteinfo) : Option (Quoteinfo × Bool) := do
  let size (q : Quoteinfo) : Int := if runesout then q.nrunesout else q.nbytesout
  let width : Int := if runesout then 1 else w
  if ← exceeds (size q) width nout then return (q, false)
  if !special fmtdoquote c then return (q, true)
  let full ← (if q.quoted then some false else exceeds (size q) (width + 2) nout)
  if full then return (q, false)
  let q := if q.quoted then q else
    { q with nrunesout := q.nrunesout + 2, nbytesout := q.nbytesout + 2, quoted := true }
  if c.toNat = 0x27 then
    let full ← exceeds (size q) (width + 1) nout
    if full then return (q, false)
    return ({ q with nbytesout := q.nbytesout + 1, nrunesout := q.nrunesout + 1 }, true)
  return (q, true)

/-- The loop of `__quotesetup` over the bytes from `s` on. -/
def quoteLoop (fmtdoquote : Option (Rune → Bool)) (nout : Int) (runesout : Bool) :
    Nat → List UInt8 → Int → Quoteinfo → Option Quoteinfo
  | 0, _, _, _ => none
  | fuel + 1, s, nin, q => do
    if nin = 0 then return q
    let (c, w) ← chartorune s
    if c = 0 then return q
    match ← quoteRune fmtdoquote c w nout runesout q with
    | (q, false) => return q
    | (q, true) =>
      let nbytesin ← int (q.nbytesin + w)
      let nrunesin ← int (q.nrunesin + 1)
      let nbytesout ← int (q.nbytesout + w)
      let nrunesout ← int (q.nrunesout + 1)
      let nin ← int (nin - 1)
      quoteLoop fmtdoquote nout runesout fuel (s.drop w) nin
        { q with nbytesin, nrunesin, nbytesout, nrunesout }

/-- `__quotesetup(s, nil, nin, nout, q, sharp, runesout)`. -/
def quotesetup (fmtdoquote : Option (Rune → Bool)) (s : List UInt8) (nin nout : Int)
    (sharp runesout : Bool) : Option Quoteinfo := do
  let first ← s[0]?
  let q : Quoteinfo := ⟨false, 0, 0, 0, 0⟩
  if sharp ∨ nin = 0 ∨ first = 0 then
    if nout < 2 then return q
    quoteLoop fmtdoquote nout runesout (s.length + 1) s nin
      { q with quoted := true, nbytesout := 2, nrunesout := 2 }
  else
    quoteLoop fmtdoquote nout runesout (s.length + 1) s nin q

/-- Does the string have to be quoted, and how long is it then? -/
def needsquotes (fmtdoquote : Option (Rune → Bool)) (s : List UInt8) : Option (Bool × Int) := do
  let q ← quotesetup fmtdoquote s (-1) 0x7FFFFFFF false false
  return (q.quoted, q.nbytesout)

/-- `*u++ = x`. -/
def put (buf : List UInt8) (u : Nat) (x : UInt8) : Option (List UInt8) :=
  if u < buf.length then some (patch buf u [x]) else none

/-- `for(t=s; *t; t++)` of `quotestrdup`; the place after the last byte is returned as well. -/
def quoteBytes : List UInt8 → List UInt8 → Nat → Option (List UInt8 × Nat)
  | [], _, _ => none
  | r :: s, buf, u => do
    if r = 0 then return (buf, u)
    if r = quote then
      let buf ← put buf u r
      let buf ← put buf (u + 1) r
      quoteBytes s buf (u + 2)
    else
      let buf ← put buf u r
      quoteBytes s buf (u + 1)

/-- The buffer that is returned; it is `malloc`ed, so that it may hold anything before. -/
def quotestrdup (fmtdoquote : Option (Rune → Bool)) (s : List UInt8) : Option (List UInt8) := do
  let (needed, quotelen) ← needsquotes fmtdoquote s
  if !needed then return cstr s ++ [0]
  let size ← int (quotelen + 1)
  let ret := List.replicate size.toNat 0xFF
  let ret ← put ret 0 quote
  let (ret, u) ← quoteBytes s ret 1
  let ret ← put ret u quote
  put ret (u + 1) 0

/-! ## Runes of a string -/

/-- The bytes of a rune that is not ASCII are not ASCII. -/
theorem le_of_mem_runetochar {r : Rune} (hr : 0x80 ≤ r.toNat) :
    ∀ b ∈ runetochar r, 0x80 ≤ b.toNat := by
  have hx : ∀ x : Nat, 0x80 ≤ (Tx ||| (x &&& Maskx)) % 256 := by
    intro x
    rw [and_maskx, tx_or (mod_lt _ (by decide))]
    omega
  have hor : ∀ t x : Nat, t &&& 0x80 = 0x80 → 0x80 ≤ (t ||| x) % 256 := by
    intro t x ht
    have hbit : ((t ||| x) % 2 ^ 8).testBit 7 = true := by
      have h7 : t.testBit 7 = true := by
        have := congrArg (·.testBit 7) ht
        rw [testBit_and] at this
        exact (Bool.and_eq_true_iff.mp (this.trans (by decide))).1
      rw [testBit_mod_two_pow, testBit_or, h7]
      rfl
    exact ge_two_pow_of_testBit hbit
  have hne : ¬ r.toNat ≤ Rune1 := Nat.not_le_of_lt hr
  intro b hb
  simp only [runetochar, if_neg hne] at hb
  split_ifs at hb <;> simp only [mem_cons, not_mem_nil, or_false] at hb
  all_goals
    rcases hb with rfl | rfl | rfl | rfl <;> rw [UInt8.toNat_ofNat'] <;>
      first | exact hx _ | exact hor _ _ (by decide)

/-- The rune at the front of a string that is not empty: an ASCII byte, or neither it nor one of
its bytes is ASCII. -/
theorem chartorune_string (a : UInt8) (w tl : List UInt8) :
    ∃ c k, chartorune (a :: w ++ 0 :: tl) = some (c, k) ∧ 0 < k ∧ k ≤ (a :: w).length ∧
      (k = 1 ∧ c.toNat = a.toNat ∧ a.toNat < 0x80 ∨
        0x80 ≤ c.toNat ∧ ∀ b ∈ (a :: w).take k, 0x80 ≤ b.toNat) := by
  obtain ⟨⟨c, k⟩, hck⟩ := chartorune_of_mem_zero (s := a :: w ++ 0 :: tl) (by simp)
  refine ⟨c, k, hck, (chartorune_len hck).1, ?_⟩
  rcases lt_or_ge a.toNat 0x80 with ha | ha
  · have hone : chartorune (a :: (w ++ 0 :: tl)) = _ := chartorune_one ha
    rw [cons_append] at hck
    obtain ⟨rfl, rfl⟩ := Prod.mk.inj (Option.some.inj (hck.symm.trans hone))
    have hv : (UInt32.ofNat a.toNat).toNat = a.toNat :=
      UInt32.toNat_ofNat_of_lt (by change _ < 4294967296; omega)
    exact ⟨by simp, Or.inl ⟨rfl, hv, ha⟩⟩
  · rcases chartorune_cases hck with hbad | ⟨htake, hk⟩
    · cases hbad
      exact ⟨by simp, Or.inr ⟨by decide, by simpa using ha⟩⟩
    have hc : 0x80 ≤ c.toNat := by
      by_contra hlt
      rw [runetochar_one (by omega)] at htake hk
      rw [hk] at htake
      have heq : UInt8.ofNat c.toNat = a := by simpa using htake
      have hv : (UInt8.ofNat c.toNat).toNat = c.toNat := by
        rw [UInt8.toNat_ofNat']
        omega
      rw [heq] at hv
      omega
    have hbytes : ∀ b ∈ (a :: w ++ 0 :: tl).take k, 0x80 ≤ b.toNat := by
      rw [← htake]
      exact le_of_mem_runetochar hc
    -- the NUL is not one of those bytes
    have hle : k ≤ (a :: w).length := by
      by_contra hlt
      have hzero : (0 : UInt8) ∈ (a :: w ++ 0 :: tl).take k := by
        rw [take_append, mem_append]
        right
        obtain ⟨j, hj⟩ := Nat.exists_eq_add_of_lt (Nat.lt_of_not_le hlt)
        rw [hj, add_assoc, Nat.add_sub_cancel_left, take_succ_cons]
        exact .head _
      simpa using hbytes 0 hzero
    refine ⟨hle, Or.inr ⟨hc, ?_⟩⟩
    rwa [take_append_of_le_length hle] at hbytes

/-! ## The length that is needed -/

theorem int_eq {x : Int} (h0 : -2 ^ 31 ≤ x) (h1 : x ≤ INT_MAX) : int x = some x := if_pos ⟨h0, h1⟩

theorem exceeds_false {n d : Int} (h0 : 0 ≤ n + d) (h1 : n + d ≤ INT_MAX) :
    exceeds n d INT_MAX = some false := by
  rw [exceeds, int_eq (by omega) h1]
  simpa using h1

/-- The bytes by which a rune grows what is written, its own apart. -/
def extra (fmtdoquote : Option (Rune → Bool)) (quoted : Bool) (c : Rune) : Nat :=
  (if special fmtdoquote c && !quoted then 2 else 0) + (if c.toNat = 0x27 then 1 else 0)

theorem quoteRune_spec (fmtdoquote : Option (Rune → Bool)) {c : Rune} {w : Nat} {q : Quoteinfo}
    (h0 : 0 ≤ q.nbytesout) (h1 : q.nbytesout + w + extra fmtdoquote q.quoted c ≤ INT_MAX) :
    quoteRune fmtdoquote c w INT_MAX false q = some ({ q with
      quoted := q.quoted || special fmtdoquote c
      nrunesout := q.nrunesout + extra fmtdoquote q.quoted c
      nbytesout := q.nbytesout + extra fmtdoquote q.quoted c }, true) := by
  have hfirst : exceeds q.nbytesout w INT_MAX = some false := exceeds_false (by omega) (by omega)
  have hspecial : c.toNat = 0x27 → special fmtdoquote c = true := fun h => by simp [special, h]
  unfold extra at h1
  cases hs : special fmtdoquote c with
  | false =>
    have hc : c.toNat ≠ 0x27 := fun h => by simp [hspecial h] at hs
    simp [quoteRune, hfirst, hs, extra, hc]
  | true =>
    cases hq : q.quoted with
    | true =>
      simp only [hq, hs, Bool.not_true, Bool.and_false, Bool.false_eq_true, if_false] at h1
      by_cases hc : c.toNat = 0x27
      · have hsecond : exceeds q.nbytesout (w + 1) INT_MAX = some false := by
          rw [if_pos hc] at h1
          exact exceeds_false (by omega) (by omega)
        simp [quoteRune, hfirst, hs, hq, hc, hsecond, extra]
      · simp [quoteRune, hfirst, hs, hq, hc, extra]
        rw [← hq]
    | false =>
      simp only [hq, hs, Bool.not_false, Bool.and_true, if_true] at h1
      have hsecond : exceeds q.nbytesout (w + 2) INT_MAX = some false :=
        exceeds_false (by omega) (by omega)
      by_cases hc : c.toNat = 0x27
      · have hthird : exceeds (q.nbytesout + 2) (w + 1) INT_MAX = some false := by
          rw [if_pos hc] at h1
          exact exceeds_false (by omega) (by omega)
        simp [quoteRune, hfirst, hs, hq, hc, hsecond, hthird, extra]
        omega
      · simp [quoteRune, hfirst, hs, hq, hc, hsecond, extra]

/-- What holds of the counts while a string is scanned. -/
structure Quoteinfo.Scanning (q : Quoteinfo) (nin : Int) : Prop where
  nin_eq : nin = -1 - q.nrunesin
  nrunesin_nonneg : 0 ≤ q.nrunesin
  nrunesin_le : q.nrunesin ≤ q.nbytesin
  nbytesin_le : q.nbytesin ≤ q.nbytesout
  nrunesout_nonneg : 0 ≤ q.nrunesout
  nrunesout_le : q.nrunesout ≤ q.nbytesout

/-- A quote is a rune of its own. -/
theorem count_quote_take {a : UInt8} {w : List UInt8} {c : Rune} {k : Nat}
    (h : k = 1 ∧ c.toNat = a.toNat ∧ a.toNat < 0x80 ∨
      0x80 ≤ c.toNat ∧ ∀ b ∈ (a :: w).take k, 0x80 ≤ b.toNat) :
    ((a :: w).take k).count quote = if c.toNat = 0x27 then 1 else 0 := by
  rcases h with ⟨rfl, hc, -⟩ | ⟨hc, hbytes⟩
  · have hq : a = quote ↔ c.toNat = 0x27 := by
      rw [hc, ← UInt8.toNat_inj]
      rfl
    by_cases ha : a = quote
    · simp [ha, hq.mp ha]
    · rw [if_neg (mt hq.mpr ha)]
      simp [ha]
  · rw [if_neg (by omega), count_eq_zero]
    intro hmem
    have := hbytes quote hmem
    simp [quote] at this

theorem quoteLoop_spec (fmtdoquote : Option (Rune → Bool)) (tl : List UInt8) (fuel : Nat)
    {w : List UInt8} {nin : Int} {q : Quoteinfo} (hfuel : w.length < fuel) (hw : 0 ∉ w)
    (hq : q.Scanning nin)
    (hfit : q.nbytesout + w.length + w.count quote + (if q.quoted then 0 else 2 : Nat) ≤ INT_MAX) :
    ∃ q', quoteLoop fmtdoquote INT_MAX false fuel (w ++ 0 :: tl) nin q = some q' ∧
      q'.nbytesout = q.nbytesout + w.length + w.count quote +
        (if q'.quoted && !q.quoted then 2 else 0 : Nat) ∧
      (q.quoted = true → q'.quoted = true) ∧
      (q'.quoted = false → ∀ b ∈ w, 0x20 < b.toNat ∧ b ≠ quote) := by
  induction fuel generalizing w nin q with
  | zero => omega
  | succ fuel ih =>
    obtain ⟨hnin, hri, hrb, hbi, hro, hbo⟩ := hq
    have hnz : nin ≠ 0 := by omega
    rcases w with _ | ⟨a, w⟩
    · refine ⟨q, ?_, by simp, id, by simp⟩
      have hzero : chartorune ([] ++ 0 :: tl) = some (0, 1) := chartorune_one (by decide)
      simp only [quoteLoop, if_neg hnz, hzero, some_bind]
      rfl
    obtain ⟨c, k, hck, hpos, hle, hbytes⟩ := chartorune_string a w tl
    have hcount := count_quote_take hbytes
    have hc0 : c ≠ 0 := by
      rintro rfl
      rcases hbytes with ⟨-, hc, -⟩ | ⟨hc, -⟩
      · have ha : a = 0 := UInt8.toNat_inj.mp hc.symm
        exact hw (ha ▸ mem_cons_self)
      · simp at hc
    have hsplit : (a :: w).count quote =
        ((a :: w).take k).count quote + ((a :: w).drop k).count quote := by
      rw [← count_append, take_append_drop]
    have hdrop : ((a :: w).drop k).length = (a :: w).length - k := length_drop
    generalize hx : extra fmtdoquote q.quoted c = x at *
    have hxval : x = (if special fmtdoquote c && !q.quoted then 2 else 0) +
        ((a :: w).take k).count quote := by
      rw [hcount, ← hx]
      rfl
    have hxfit : x + (if q.quoted || special fmtdoquote c then 0 else 2) =
        (if q.quoted then 0 else 2) + ((a :: w).take k).count quote := by
      rw [hxval]
      cases q.quoted <;> cases special fmtdoquote c <;> simp
      omega
    have hrune := quoteRune_spec fmtdoquote (c := c) (w := k) (q := q) (by omega)
      (by rw [hx]; omega)
    rw [hx] at hrune
    obtain ⟨q', hrun, hlen, hmono, hplain⟩ := @ih ((a :: w).drop k) (nin - 1)
      (⟨q.quoted || special fmtdoquote c, q.nrunesin + 1, q.nbytesin + k,
        q.nrunesout + x + 1, q.nbytesout + x + k⟩)
      (by omega) (fun h => hw (mem_of_mem_drop h))
      (by constructor <;> simp only <;> omega)
      (by simp only; omega)
    refine ⟨q', ?_, ?_, ?_, ?_⟩
    · have hdropS : (a :: w ++ 0 :: tl).drop k = (a :: w).drop k ++ 0 :: tl :=
        drop_append_of_le_length hle
      have hmax : INT_MAX = 2147483647 := rfl
      simp only [quoteLoop, if_neg hnz, hck, hc0, if_false, hrune, some_bind, hdropS]
      simp (disch := omega) only [int_eq]
      exact hrun
    · rw [hlen]
      simp only
      cases hqq : q.quoted <;> cases hs : special fmtdoquote c <;> cases hq'' : q'.quoted <;>
        simp_all <;> omega
    · intro h
      exact hmono (by simp [h])
    · intro h b hb
      have hs : special fmtdoquote c = false := by
        by_contra hs
        simp [hmono (by simp [Bool.eq_true_of_not_eq_false hs])] at h
      rw [← take_append_drop k (a :: w), mem_append] at hb
      rcases hb with hb | hb
      · simp only [special, Bool.or_eq_false_iff, decide_eq_false_iff_not] at hs
        have hlt : 0x20 < b.toNat ∧ b.toNat ≠ 0x27 := by
          rcases hbytes with ⟨rfl, hc, -⟩ | ⟨-, hbytes⟩
          · have hba : b = a := by simpa using hb
            rw [hba, ← hc]
            omega
          · have := hbytes b hb
            omega
        refine ⟨hlt.1, ?_⟩
        rintro rfl
        exact hlt.2 rfl
      · exact hplain h b hb

/-- A byte that is neither a quote nor a blank of any kind. -/
def Plain (b : UInt8) : Prop := 0x20 < b.toNat ∧ b ≠ quote

theorem needsquotes_spec (fmtdoquote : Option (Rune → Bool)) {w : List UInt8} (tl : List UInt8)
    (hw : 0 ∉ w) (hfit : w.length + w.count quote + 2 ≤ INT_MAX) :
    ∃ needed len, needsquotes fmtdoquote (w ++ 0 :: tl) = some (needed, len) ∧
      (needed = true → len = w.length + w.count quote + 2) ∧
      (needed = false → w ≠ [] ∧ ∀ b ∈ w, Plain b) := by
  have hmax : (0x7FFFFFFF : Int) = (INT_MAX : Nat) := rfl
  have hfuel : w.length < (w ++ 0 :: tl).length + 1 := by
    rw [length_append]
    omega
  rcases w with _ | ⟨a, w⟩
  · obtain ⟨q, hloop, hlen, hq, -⟩ := @quoteLoop_spec fmtdoquote tl _ _ (-1)
      ⟨true, 0, 0, 2, 2⟩ hfuel hw ⟨rfl, le_rfl, le_rfl, by decide, by decide, le_rfl⟩
      (by decide)
    refine ⟨q.quoted, q.nbytesout, ?_, ?_, ?_⟩
    · have hsetup : quotesetup fmtdoquote ([] ++ 0 :: tl) (-1) INT_MAX false false = some q := by
        simp only [quotesetup, nil_append, getElem?_cons_zero, some_bind, or_true, if_true]
        exact hloop
      rw [needsquotes, hmax, hsetup]
      rfl
    · intro _
      rw [hlen]
      simp
    · intro h
      simp [hq rfl] at h
  · have ha : a ≠ 0 := by
      rintro rfl
      exact hw (.head _)
    obtain ⟨q, hloop, hlen, -, hplain⟩ := @quoteLoop_spec fmtdoquote tl _ _ (-1)
      ⟨false, 0, 0, 0, 0⟩ hfuel hw ⟨rfl, le_rfl, le_rfl, le_rfl, le_rfl, le_rfl⟩
      (by simp only [Bool.false_eq_true, if_false]; omega)
    refine ⟨q.quoted, q.nbytesout, ?_, ?_, fun h => ⟨by simp, hplain h⟩⟩
    · have hsetup : quotesetup fmtdoquote (a :: w ++ 0 :: tl) (-1) INT_MAX false false =
          some q := by
        have hcond : ¬ (false = true ∨ (-1 : Int) = 0 ∨ a = 0) := by simp [ha]
        simp only [quotesetup, cons_append, getElem?_cons_zero, some_bind, if_neg hcond]
        exact hloop
      rw [needsquotes, hmax, hsetup]
      rfl
    · intro h
      rw [hlen]
      simp [h]

/-! ## The string in quotes -/

/-- Every quote twice. -/
def double (w : List UInt8) : List UInt8 :=
  w.flatMap fun b => if b = quote then [quote, quote] else [b]

/-- A text in quotes. -/
def quoted (w : List UInt8) : List UInt8 := quote :: double w ++ [quote]

@[simp] theorem double_nil : double [] = [] := rfl

theorem double_cons (b : UInt8) (w : List UInt8) :
    double (b :: w) = (if b = quote then [quote, quote] else [b]) ++ double w :=
  flatMap_cons

theorem length_double (w : List UInt8) : (double w).length = w.length + w.count quote := by
  induction w with
  | nil => rfl
  | cons b w ih =>
    rw [double_cons, length_append, ih, length_cons, count_cons]
    by_cases hb : b = quote
    · simp [hb]
      omega
    · simp [hb]
      omega

theorem put_append (A B : List UInt8) (x y : UInt8) :
    put (A ++ x :: B) A.length y = some (A ++ y :: B) := by
  have hlt : A.length < (A ++ x :: B).length := by simp
  rw [put, if_pos hlt, patch_eq_append (by simp)]
  simp

theorem quoteBytes_spec {w : List UInt8} (tl : List UInt8) (hw : 0 ∉ w) (A : List UInt8)
    {B : List UInt8}
    (hB : (double w).length ≤ B.length) :
    quoteBytes (w ++ 0 :: tl) (A ++ B) A.length =
      some (A ++ double w ++ B.drop (double w).length, A.length + (double w).length) := by
  induction w generalizing A B with
  | nil => simp [quoteBytes]
  | cons b w ih =>
    have hb : b ≠ 0 := fun h => hw (h ▸ mem_cons_self)
    have hw' : 0 ∉ w := fun h => hw (mem_cons_of_mem b h)
    rw [double_cons] at hB ⊢
    by_cases hq : b = quote
    · subst hq
      simp only [if_true, length_append, length_cons, length_nil] at hB
      rcases B with _ | ⟨x, _ | ⟨y, B⟩⟩
      · simp at hB
      · simp at hB
        omega
      simp only [length_cons] at hB
      have hput : put (A ++ quote :: y :: B) (A.length + 1) quote =
          some (A ++ quote :: quote :: B) := by
        have := put_append (A ++ [quote]) B y quote
        simpa using this
      have hrec := ih hw' (A ++ [quote, quote]) (B := B) (by omega)
      simp only [length_append, length_cons, length_nil, append_assoc,
        cons_append, nil_append] at hrec
      simp only [cons_append, quoteBytes, hb, if_false, put_append, hput, some_bind, if_true]
      rw [hrec]
      simp
      omega
    · simp only [if_neg hq, length_append, length_cons, length_nil] at hB
      rcases B with _ | ⟨x, B⟩
      · simp at hB
      simp only [length_cons] at hB
      have hrec := ih hw' (A ++ [b]) (B := B) (by omega)
      simp only [length_append, length_cons, length_nil, append_assoc,
        cons_append, nil_append] at hrec
      simp only [cons_append, quoteBytes, hb, hq, if_false, put_append, some_bind]
      rw [hrec]
      simp
      omega

/-- What `quotestrdup` makes of a string: itself, if that can be read back, or the string in
quotes. -/
def Quotes (w q : List UInt8) : Prop :=
  q = quoted w ∨ q = w ∧ w ≠ [] ∧ ∀ b ∈ w, Plain b

/-- The quoted form and its NUL fit in what an `int` can count. -/
def Countable (w : List UInt8) : Prop := w.length + w.count quote + 3 ≤ INT_MAX

instance (w : List UInt8) : Decidable (Countable w) := inferInstanceAs (Decidable (_ ≤ _))

/-- All stores of `quotestrdup` are in the buffer it has allocated, and fill it. -/
theorem quotestrdup_spec (fmtdoquote : Option (Rune → Bool)) {w : List UInt8} (tl : List UInt8)
    (hw : 0 ∉ w) (hfit : Countable w) :
    ∃ q, quotestrdup fmtdoquote (w ++ 0 :: tl) = some (q ++ [0]) ∧ Quotes w q := by
  unfold Countable at hfit
  obtain ⟨needed, len, hneeds, hlen, hplain⟩ := needsquotes_spec fmtdoquote tl hw (by omega)
  cases needed with
  | false =>
    refine ⟨w, ?_, Or.inr ⟨rfl, hplain rfl⟩⟩
    have hcstr : cstr (w ++ 0 :: tl) = w := by
      rw [cstr, takeWhile_append_of_pos]
      · simp
      · intro b hb
        simpa using fun h : b = 0 => hw (h ▸ hb)
    simp [quotestrdup, hneeds, hcstr]
  | true =>
    refine ⟨quoted w, ?_, Or.inl rfl⟩
    have hl : len = ((double w).length + 2 : Nat) := by
      rw [hlen rfl, length_double]
      push_cast
      ring
    have hsize : int (len + 1) = some (((double w).length + 3 : Nat) : Int) := by
      rw [length_double] at hl
      rw [int_eq (by omega) (by omega), length_double]
      congr 1
      omega
    have hreplicate : replicate ((double w).length + 3) (0xFF : UInt8) =
        0xFF :: (replicate (double w).length 0xFF ++ [0xFF, 0xFF]) := by
      rw [replicate_succ, replicate_add]
      rfl
    have hbytes := quoteBytes_spec tl hw [quote]
      (B := replicate (double w).length 0xFF ++ [0xFF, 0xFF]) (by simp)
    have hfirst := put_append [] (replicate (double w).length 0xFF ++ [0xFF, 0xFF]) 0xFF quote
    have hlast := put_append (quote :: double w) [0xFF] 0xFF quote
    have hnul := put_append (quote :: double w ++ [quote]) [] 0xFF 0
    simp only [nil_append, length_nil] at hfirst
    simp only [length_cons, length_nil, zero_add, length_replicate,
      drop_left', cons_append, nil_append] at hbytes
    simp only [cons_append, length_cons, append_assoc, nil_append,
      length_append, length_nil, zero_add] at hlast hnul
    simp only [quotestrdup, hneeds, hsize, some_bind, Bool.not_true, Bool.false_eq_true,
      if_false, Int.toNat_natCast, hreplicate, hfirst, hbytes, add_comm 1, hlast, hnul, quoted]
    simp

/-! ## Strings too long for an `int` -/

theorem int_eq_some {x y : Int} (h : int x = some y) : y = x := by
  unfold int at h
  split_ifs at h
  exact (Option.some.inj h).symm

/-- The running length overflows, however the scan is bounded. -/
theorem quoteLoop_overflow (n fuel : Nat) {nin : Int} {q : Quoteinfo} (hnin : nin < 0)
    (hfull : (INT_MAX : Int) < q.nbytesout + n) (hle : q.nbytesout ≤ INT_MAX) :
    quoteLoop none INT_MAX false fuel (replicate n 0x61 ++ [0]) nin q = none := by
  induction n generalizing fuel nin q with
  | zero => simp at hfull; omega
  | succ n ih =>
    cases fuel with
    | zero => rfl
    | succ fuel =>
      have hrune : chartorune (replicate (n + 1) 0x61 ++ [0]) = some (0x61, 1) :=
        chartorune_one (by decide)
      have hdrop : (replicate (n + 1) (0x61 : UInt8) ++ [0]).drop 1 = replicate n 0x61 ++ [0] := rfl
      have hplain : special none 0x61 = false := by decide
      have hnz : nin ≠ 0 := by omega
      rw [quoteLoop]
      simp only [if_neg hnz, hrune, Option.bind_eq_bind, Option.bind_some, hdrop]
      rw [if_neg (by decide)]
      cases hint : int (q.nbytesout + 1) with
      | none =>
        have hstop : quoteRune none 0x61 1 INT_MAX false q = none := by
          simp [quoteRune, exceeds, hint]
        rw [hstop]
        rfl
      | some x =>
        have hx := int_eq_some hint
        have hxle : x ≤ INT_MAX := by
          unfold int at hint
          split_ifs at hint with h
          rw [hx]
          exact h.2
        have hok : quoteRune none 0x61 1 INT_MAX false q = some (q, true) := by
          have hnot : ¬ x > (INT_MAX : Nat) := by omega
          simp [quoteRune, exceeds, hint, hplain, Int.not_lt.mp hnot]
        simp only [hok, Option.bind_some, Option.bind_eq_none_iff]
        intro nbytesin _ nrunesin _ nbytesout hout nrunesout _ nin' hnin'
        have hout' := int_eq_some hout
        have hnin'' := int_eq_some hnin'
        apply ih
        · omega
        · simp only
          push_cast at hfull
          omega
        · simp only
          omega

theorem quotestrdup_of_long {n : Nat} (hn : INT_MAX ≤ n) :
    quotestrdup none (0x20 :: replicate n 0x61 ++ [0]) = none := by
  have hrune : chartorune (0x20 :: (replicate n 0x61 ++ [0])) = some (0x20, 1) :=
    chartorune_one (by decide)
  have hmax : (0x7FFFFFFF : Int) = (INT_MAX : Nat) := rfl
  have hfirst : quoteRune none 0x20 1 INT_MAX false ⟨false, 0, 0, 0, 0⟩ =
      some (⟨true, 0, 0, 2, 2⟩, true) := by decide
  have hrest := fun fuel => quoteLoop_overflow n fuel (by decide : (-2 : Int) < 0)
    (by simp only; omega : (INT_MAX : Int) < (⟨true, 1, 1, 3, 3⟩ : Quoteinfo).nbytesout + n)
    (by decide)
  have hloop : ∀ fuel, quoteLoop none INT_MAX false (fuel + 1)
      (0x20 :: (replicate n 0x61 ++ [0])) (-1) ⟨false, 0, 0, 0, 0⟩ = none := by
    intro fuel
    rw [quoteLoop, if_neg (by decide), hrune]
    simp only [some_bind, hfirst]
    exact hrest fuel
  have hsetup : quotesetup none (0x20 :: (replicate n 0x61 ++ [0])) (-1) INT_MAX false
      false = none := by
    simp only [quotesetup, getElem?_cons_zero, some_bind]
    rw [if_neg (by decide)]
    exact hloop _
  rw [quotestrdup, needsquotes, hmax, cons_append, hsetup]
  rfl

end Plan9Port.Lib9
