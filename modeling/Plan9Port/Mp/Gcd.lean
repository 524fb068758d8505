import Mathlib.Data.Nat.Prime.Basic
import Plan9Port.Mp.Exp

/-!
# Greatest common divisors

`mpextendedgcd` (`libmp/port/mpextendedgcd.c`), the binary algorithm, and `mpeuclid`
(`mpeuclid.c`). Both find the coefficients that make the greatest common divisor of two numbers.

`mpextendedgcd` halves numbers in place and finds out from their low digit if they are even. That
digit is there also where a number has no digits, and has to be 0 then.

## Main definitions

* `halve`, `gcdLoop`, `mpextendedgcd`
* `Euclid.loop`, `mpeuclid`

## Main results

* `halve_spec`, `gcdLoop_spec`, `euclid_spec`: the combinations of the operands are kept
* `mpgcd_bezout`: both functions find the divisor and coefficients for it
-/

namespace Plan9Port.Mp

open Heap Mpint Lib List Int
open Option (bind_some bind_eq_bind)

/-! ## The binary algorithm -/

/-- `iseven(a)`: the low bit of the low digit. -/
def iseven (r : Ref) (st : Store) : Option Bool := do
  let z ← st.get r
  let d ← z.p[0]?
  return d &&& 1 == 0

/-- `while(iseven(a) && iseven(b))`: halves both, and counts. -/
def commonHalves (a b : Ref) : Nat → Nat → Store → Option (Nat × Store)
  | 0, _, _ => none
  | fuel + 1, g, st => do
    let ea ← iseven a st
    let eb ← iseven b st
    if ea && eb then do
      let st ← mpright a 1 a st
      let st ← mpright b 1 b st
      commonHalves a b fuel (g + 1) st
    else return (g, st)

/-- A number `u`, and the numbers that make it out of the operands: `u, A, B` in the source, and
`v, C, D`. -/
structure Row where
  u : Ref
  A : Ref
  B : Ref

/-- The references of a row. -/
def Row.refs (l : Row) : List Ref := [l.u, l.A, l.B]

/-- The body of `while(iseven(u))`: halves `u` and its coefficients, which are made even first. -/
def halveOnce (a b : Ref) (l : Row) (st : Store) : Option Store := do
  let st ← mpright l.u 1 l.u st
  let eA ← iseven l.A st
  let eB ← iseven l.B st
  let st ← (if !eA || !eB then (mpadd l.A b l.A st).bind (mpsub l.B a l.B) else some st)
  let st ← mpright l.A 1 l.A st
  mpright l.B 1 l.B st

/-- The loop that makes `u` odd. -/
def halve (a b : Ref) (l : Row) : Nat → Store → Option Store
  | 0, _ => none
  | fuel + 1, st => do
    if ← iseven l.u st then (halveOnce a b l st).bind (halve a b l fuel) else return st

/-- Subtracts a number and its coefficients from others. -/
def subtract (l m : Row) (st : Store) : Option Store := do
  let st ← mpsub l.u m.u l.u st
  let st ← mpsub l.A m.A l.A st
  mpsub l.B m.B l.B st

/-- One round of the loop: halves `u` and `v`, and subtracts one from the other. -/
def gcdRound (a b : Ref) (l m : Row) (st : Store) : Option Store := do
  let x ← st.get l.u
  let st ← halve a b l (x.mag + 1) st
  let y ← st.get m.u
  let st ← halve a b m (y.mag + 1) st
  let x ← st.get l.u
  let y ← st.get m.u
  if mpcmp x y ≥ 0 then subtract l m st else subtract m l st

/-- The main loop. -/
def gcdLoop (a b : Ref) (l m : Row) : Nat → Store → Option Store
  | 0, _ => none
  | fuel + 1, st => do
    let st ← gcdRound a b l m st
    let x ← st.get l.u
    if x.top = 0 then return st else gcdLoop a b l m fuel st

/-- What `mpextendedgcd` does with its copies of the operands, once they are not both even. -/
def oddGcd (a b v x y : Ref) (g : Nat) (st : Store) : Option Store := do
  let (u, st) ← copy a st
  let z ← st.get b
  let st ← assign z v st
  let (A, st) := st.alloc (mpcopy mpone)
  let (B, st) := st.alloc (mpcopy mpzero)
  let (C, st) := st.alloc (mpcopy mpzero)
  let (D, st) := st.alloc (mpcopy mpone)
  let n ← st.get u
  let m ← st.get v
  let st ← gcdLoop a b ⟨u, A, B⟩ ⟨v, C, D⟩ (n.mag + m.mag) st
  let c ← st.get C
  let st ← assign c x st
  let d ← st.get D
  let st ← assign d y st
  let st ← mpleft v g v st
  return [A, B, C, D, u, a, b].foldl Heap.free st

/-- `mpextendedgcd` for operands that are not 0. -/
def binaryGcd (a b v x y : Ref) (st : Store) : Option Store := do
  let (a, st) ← copy a st
  let (b, st) ← copy b st
  let z ← st.get a
  let (g, st) ← commonHalves a b (z.mag + 1) 0 st
  oddGcd a b v x y g st

/-- `v = gcd(a, b)`, and `x` and `y` with `ax + by = v`. -/
def mpextendedgcd (a b v x y : Ref) (st : Store) : Option Store := do
  let m ← st.get a
  let n ← st.get b
  if (m.sign : Int) < 0 ∨ (n.sign : Int) < 0 then do
    let st ← assign mpzero v st
    let st ← assign mpzero y st
    assign mpzero x st
  else if m.top = 0 then do
    let st ← assign n v st
    let st ← assign mpone y st
    assign mpzero x st
  else if n.top = 0 then do
    let st ← assign m v st
    let st ← assign mpone x st
    assign mpzero y st
  else binaryGcd a b v x y st

/-! ## Euclid's algorithm -/

/-- The objects of `mpeuclid`. -/
structure Euclid where
  a : Ref
  b : Ref
  x0 : Ref
  x1 : Ref
  x2 : Ref
  y0 : Ref
  y1 : Ref
  y2 : Ref
  q : Ref
  r : Ref

namespace Euclid

/-- The references in use. -/
def refs (e : Euclid) : List Ref := [e.x0, e.x1, e.x2, e.y0, e.y1, e.y2, e.q, e.r, e.a, e.b]

/-- The rotation of the values at the end of the loop. -/
def rotate (e : Euclid) : Euclid :=
  ⟨e.b, e.r, e.x2, e.x0, e.x1, e.y2, e.y0, e.y1, e.q, e.a⟩

/-- The body of the loop, up to the rotation. -/
def step (e : Euclid) (st : Store) : Option Store := do
  -- q = a/b, r = a mod b
  let st ← mpdiv e.a e.b (some e.q) (some e.r) st
  -- x0 = x2 - qx1
  let st ← mpmul e.q e.x1 e.x0 st
  let st ← mpsub e.x2 e.x0 e.x0 st
  -- y0 = y2 - qy1
  let st ← mpmul e.q e.y1 e.y0 st
  mpsub e.y2 e.y0 e.y0 st

/-- The loop of `mpeuclid`. -/
def loop : Nat → Euclid → Store → Option (Euclid × Store)
  | 0, _, _ => none
  | fuel + 1, e, st => do
    let z ← st.get e.b
    if z.top ≠ 0 ∧ (z.sign : Int) > 0 then (e.step st).bind (loop fuel e.rotate) else return (e, st)

/-- The results of the call, and the end of its objects. -/
def results (e : Euclid) (d x y : Ref) (st : Store) : Option Store := do
  let z ← st.get e.a
  let st ← assign z d st
  let z ← st.get e.x2
  let st ← assign z x st
  let z ← st.get e.y2
  let st ← assign z y st
  return e.refs.foldl Heap.free st

end Euclid

/-- `mpeuclid` for `a ≥ b`. -/
def euclid (a b d x y : Ref) (st : Store) : Option Store := do
  let m ← st.get a
  let n ← st.get b
  if n.top = 0 then do
    let st ← assign m d st
    let st ← assign mpone x st
    assign mpzero y st
  else do
    let (a, st) ← copy a st
    let (b, st) ← copy b st
    let (x0, st) := st.alloc (mpnew 0)
    let (x1, st) := st.alloc (mpcopy mpzero)
    let (x2, st) := st.alloc (mpcopy mpone)
    let (y0, st) := st.alloc (mpnew 0)
    let (y1, st) := st.alloc (mpcopy mpone)
    let (y2, st) := st.alloc (mpcopy mpzero)
    let (q, st) := st.alloc (mpnew 0)
    let (r, st) := st.alloc (mpnew 0)
    let (e, st) ← Euclid.loop (n.mag + 1) ⟨a, b, x0, x1, x2, y0, y1, y2, q, r⟩ st
    e.results d x y st

/-- `d = gcd(a, b)`, and `x` and `y` with `ax + by = d`. -/
def mpeuclid (a b d x y : Ref) (st : Store) : Option Store := do
  let m ← st.get a
  let n ← st.get b
  -- sysfatal("mpeuclid: negative arg")
  if (m.sign : Int) < 0 ∨ (n.sign : Int) < 0 then none
  else if mpcmp m n < 0 then euclid b a d y x st
  else euclid a b d x y st

/-! ## Numbers with a low digit -/

/-- `r` holds `n`, and its low digit tells if that is even. -/
def HoldsLow (st : Store) (r : Ref) (n : Int) : Prop :=
  ∃ z, st.get r = some z ∧ z.Normal ∧ z.value = n ∧ z.Low

variable {st st' : Store} {rs : List Ref} {z : Mpint} {n : Int}

section Low

variable {r s a b u A B : Ref} {m : Int}

theorem HoldsLow.holds (h : HoldsLow st r n) : Holds st r n :=
  h.imp fun _ h => ⟨h.1, h.2.1, h.2.2.1⟩

theorem HoldsLow.keeps (h : HoldsLow st r n) (hk : Keeps rs st st') (hr : r ∉ rs) :
    HoldsLow st' r n :=
  h.imp fun _ h => ⟨(hk r hr).trans h.1, h.2⟩

theorem HoldsLow.keep (h : HoldsLow st r n) (hk : Keeps [s] st st') (hr : r ≠ s) :
    HoldsLow st' r n :=
  h.keeps hk (by simpa using hr)

theorem two_dvd_value (z : Mpint) : (2 : Int) ∣ z.value ↔ 2 ∣ z.mag := by
  rw [value]
  rcases sign_cases z.sign with hs | hs <;> simp [hs] <;> omega

/-- The parity of the low digit is that of the number. -/
theorem iseven_spec (h : HoldsLow st r n) : iseven r st = some (decide (2 ∣ n)) := by
  obtain ⟨z, hz, hzn, rfl, d, hd, hd0⟩ := h
  have hmag : z.mag % 2 = d.toNat % 2 := by
    by_cases htop : z.top = 0
    · rw [Mpint.mag_of_top_eq_zero htop, hd0 htop]
      rfl
    obtain ⟨rest, hrest⟩ : ∃ rest, z.digits = d :: rest := by
      obtain ⟨d', ds, hp⟩ := exists_cons_of_ne_nil (l := z.p) (by
        rintro h0
        rw [h0] at hd
        cases hd)
      obtain ⟨k, hk⟩ := Nat.exists_eq_succ_of_ne_zero htop
      rw [hp] at hd
      cases hd
      exact ⟨ds.take k, by rw [Mpint.digits, hp, hk, take_succ_cons]⟩
    rw [Mpint.mag, hrest, val_cons, R]
    omega
  have hbit : (d &&& 1 == 0) = decide (2 ∣ z.value) := by
    rw [Bool.eq_iff_iff, beq_iff_eq, decide_eq_true_eq, two_dvd_value, ← UInt32.toNat_inj,
      UInt32.toNat_and]
    change d.toNat &&& 1 = 0 ↔ _
    rw [Nat.and_one_is_mod]
    omega
  simp only [iseven, hz, hd, some_bind, hbit]
  rfl

/-- Half of an even number, in its place. -/
theorem mpright_one (h : HoldsLow st r n) (heven : 2 ∣ n) :
    ∃ st', mpright r 1 r st = some st' ∧ HoldsLow st' r (n / 2) ∧ Keeps [r] st st' := by
  obtain ⟨z, hz, hzn, rfl, d, hd, hd0⟩ := h
  obtain ⟨s, hs, htrim, hmag, hsign, hlow⟩ := right_spec z 1 none
  have htop : 0 < z.top ∨ z.top = 0 := by omega
  have hslow : s.Low := by
    rcases htop with htop | htop
    · exact hlow htop
    · -- nothing is stored, and the digit that is there already is 0
      rw [right, if_pos htop, mpint_eq (Nat.zero_le _), Option.some.injEq] at hs
      subst hs
      exact ⟨d, hd, fun _ => hd0 htop⟩
  have hnormal : s.Normal := by
    refine ⟨htrim, fun h0 => ?_⟩
    rcases htop with htop | htop
    · rw [hsign, if_pos ⟨htop, h0⟩]
    · rw [hsign, if_neg fun h => Nat.not_lt_zero _ (htop ▸ h.1), hzn.sign_zero htop]
  obtain ⟨k, hk⟩ := (two_dvd_value z).mp heven
  have hvalue : s.value = z.value / 2 := by
    have hhalf : s.mag = k := by omega
    have hvalue : z.value / 2 = z.sign * k := by
      rw [value, hk]
      push_cast
      rw [mul_left_comm, mul_ediv_cancel_left _ (by decide)]
    rw [hvalue, value, hhalf]
    by_cases h0 : s.top = 0
    · obtain rfl : k = 0 := hhalf.symm.trans (mag_of_top_eq_zero h0)
      simp
    · rw [hsign, if_neg fun h => h0 h.2]
  have hright : mpright r 1 r st = some (st.set r s) := by
    simp only [mpright, hz, some_bind, if_true]
    rw [show right z 1 none = some s from hs]
    rfl
  exact ⟨_, hright, ⟨s, get_set_self hz, hnormal, hvalue, hslow⟩, keeps_set st r s⟩

/-- A sum in the place of its first operand, whose low digit is there still. -/
theorem mpadd_low (h : HoldsLow st r m) (hb : Holds st b n) :
    ∃ st', mpadd r b r st = some st' ∧ HoldsLow st' r (m + n) ∧ Keeps [r] st st' := by
  obtain ⟨x, hx, hxn, rfl, d, hd, hd0⟩ := h
  obtain ⟨y, hy, hyn, rfl⟩ := hb
  obtain ⟨s, hs, hnormal, hvalue, hlow⟩ := mpadd_spec hx hy hx hxn.trimmed hyn.trimmed
  refine ⟨_, hs, ⟨s, get_set_self hx, hnormal, hvalue, hlow fun h0 _ => ?_⟩, keeps_set st r s⟩
  rw [hd, hd0 h0]

theorem mpsub_low (h : HoldsLow st r m) (hb : Holds st b n) :
    ∃ st', mpsub r b r st = some st' ∧ HoldsLow st' r (m - n) ∧ Keeps [r] st st' := by
  obtain ⟨x, hx, hxn, rfl, d, hd, hd0⟩ := h
  obtain ⟨y, hy, hyn, rfl⟩ := hb
  obtain ⟨s, hs, hnormal, hvalue, hlow⟩ := mpsub_spec hx hy hx hxn hyn
  refine ⟨_, hs, ⟨s, get_set_self hx, hnormal, hvalue, hlow fun h0 _ => ?_⟩, keeps_set st r s⟩
  rw [hd, hd0 h0]

end Low

/-! ## Halves -/

/-- `u` holds `U`, which its coefficients make out of `p` and `q`. -/
structure Row.Makes (l : Row) (p q U : Int) (st : Store) : Prop where
  number : HoldsLow st l.u U
  coefficients : ∃ X Y, HoldsLow st l.A X ∧ HoldsLow st l.B Y ∧ p * X + q * Y = U

variable {fuel : Nat}

section Halves

variable {a b : Ref} {l m : Row} {p q U V : Int}

theorem Row.Makes.keeps (h : l.Makes p q U st) (hk : Keeps rs st st')
    (hdisj : ∀ r ∈ l.refs, r ∉ rs) : l.Makes p q U st' := by
  obtain ⟨hu, X, Y, hA, hB, hU⟩ := h
  exact ⟨hu.keeps hk (hdisj _ (by simp [refs])), X, Y, hA.keeps hk (hdisj _ (by simp [refs])),
    hB.keeps hk (hdisj _ (by simp [refs])), hU⟩

/-- Coefficients of an even number: they are even, or can be made so. -/
theorem even_coefficients {X Y : Int} (hodd : ¬ (2 ∣ p ∧ 2 ∣ q)) (h : 2 ∣ p * X + q * Y)
    (hXY : ¬ (2 ∣ X ∧ 2 ∣ Y)) : 2 ∣ X + q ∧ 2 ∣ Y - p := by
  have := emod_two_eq_zero_or_one
  have hmod : (p * X + q * Y) % 2 = ((p % 2) * (X % 2) + (q % 2) * (Y % 2)) % 2 := by
    simp [add_emod, mul_emod]
  rcases this p with hp | hp <;> rcases this q with hq | hq <;> rcases this X with hX | hX <;>
    rcases this Y with hY | hY <;> simp only [hp, hq, hX, hY] at hmod <;> omega

/-- The coefficients after they were made even. -/
theorem makeEven_spec {A B : Ref} {X Y : Int} (hn : [a, b, A, B].Nodup) (hodd : ¬ (2 ∣ p ∧ 2 ∣ q))
    (ha : Holds st a p) (hb : Holds st b q) (hA : HoldsLow st A X) (hB : HoldsLow st B Y)
    (heven : 2 ∣ p * X + q * Y) :
    ∃ st' X' Y', (if !decide (2 ∣ X) || !decide (2 ∣ Y) then (mpadd A b A st).bind (mpsub B a B)
        else some st) = some st' ∧
      HoldsLow st' A X' ∧ HoldsLow st' B Y' ∧ 2 ∣ X' ∧ 2 ∣ Y' ∧
      p * X' + q * Y' = p * X + q * Y ∧ Keeps [A, B] st st' := by
  simp only [nodup_cons, mem_cons, not_mem_nil, or_false, not_or] at hn
  obtain ⟨⟨-, haA, -⟩, -, hAB, -⟩ := hn
  split
  · next h =>
    have hXY : ¬ (2 ∣ X ∧ 2 ∣ Y) := by simpa [imp_iff_not_or] using h
    obtain ⟨hX', hY'⟩ := even_coefficients hodd heven hXY
    obtain ⟨st1, hadd, hA1, hk1⟩ := mpadd_low hA hb
    obtain ⟨st2, hsub, hB2, hk2⟩ := mpsub_low (hB.keep hk1 (Ne.symm hAB))
      (ha.keep hk1 haA)
    refine ⟨st2, _, _, by rw [hadd, bind_some, hsub], hA1.keep hk2 hAB, hB2, hX', hY', by ring, ?_⟩
    exact (hk1.mono (by simp)).trans (hk2.mono (by simp))
  · next h =>
    simp only [Bool.or_eq_true, Bool.not_eq_true', decide_eq_false_iff_not, not_or, not_not] at h
    exact ⟨st, X, Y, rfl, hA, hB, h.1, h.2, rfl, fun _ _ => rfl⟩

section

variable (hn : (a :: b :: l.refs).Nodup) (hodd : ¬ (2 ∣ p ∧ 2 ∣ q)) (ha : Holds st a p)
  (hb : Holds st b q) (h : l.Makes p q U st)
include hn hodd ha hb h

theorem halveOnce_spec (heven : 2 ∣ U) :
    ∃ st', halveOnce a b l st = some st' ∧ l.Makes p q (U / 2) st' ∧ Keeps l.refs st st' := by
  obtain ⟨hu, X, Y, hA, hB, rfl⟩ := h
  simp only [Row.refs, nodup_cons, mem_cons, not_mem_nil, or_false, not_or] at hn
  obtain ⟨⟨hab, hau, haA, haB⟩, ⟨hbu, hbA, hbB⟩, ⟨huA, huB⟩, hAB, -⟩ := hn
  obtain ⟨st1, hright, hu1, hk1⟩ := mpright_one hu heven
  have hA1 := hA.keep hk1 (Ne.symm huA)
  have hB1 := hB.keep hk1 (Ne.symm huB)
  obtain ⟨st2, X', Y', heven2, hA2, hB2, ⟨X'', rfl⟩, ⟨Y'', rfl⟩, hU, hk2⟩ := makeEven_spec
    (by simp [hab, haA, haB, hbA, hbB, hAB]) hodd (ha.keep hk1 hau)
    (hb.keep hk1 hbu) hA1 hB1 heven
  obtain ⟨st3, hrightA, hA3, hk3⟩ := mpright_one hA2 ⟨X'', rfl⟩
  obtain ⟨st4, hrightB, hB4, hk4⟩ := mpright_one
    (hB2.keep hk3 (Ne.symm hAB)) ⟨Y'', rfl⟩
  rw [mul_ediv_cancel_left _ (by decide)] at hA3 hB4
  have hu4 := ((hu1.keeps hk2 (by simp [huA, huB])).keep hk3 huA).keep hk4 huB
  have hhalf : p * X'' + q * Y'' = (p * X + q * Y) / 2 := by
    rw [← hU, show p * (2 * X'') + q * (2 * Y'') = 2 * (p * X'' + q * Y'') by ring,
      mul_ediv_cancel_left _ (by decide)]
  refine ⟨st4, ?_, ⟨hu4, X'', Y'', hA3.keep hk4 hAB, hB4, hhalf⟩, ?_⟩
  · simp only [halveOnce, hright, iseven_spec hA1, iseven_spec hB1, heven2, hrightA, hrightB,
      some_bind]
  · exact (((hk1.mono (by simp [Row.refs])).trans (hk2.mono (by simp [Row.refs]))).trans
      (hk3.mono (by simp [Row.refs]))).trans (hk4.mono (by simp [Row.refs]))

/-- **Halving** takes all factors of 2 out of a number that is not 0, and finds the coefficients
for what is left. -/
theorem halve_spec (hU : 0 < U) (hfuel : U.toNat ≤ fuel) :
    ∃ st' k U', halve a b l (fuel + 1) st = some st' ∧ l.Makes p q U' st' ∧ U = 2 ^ k * U' ∧
      ¬ 2 ∣ U' ∧ Keeps l.refs st st' := by
  induction fuel generalizing st U with
  | zero => omega
  | succ fuel ih =>
    rw [halve, iseven_spec h.number]
    by_cases heven : 2 ∣ U
    · obtain ⟨st1, honce, h1, hk1⟩ := halveOnce_spec hn hodd ha hb h heven
      have hnot : a ∉ l.refs ∧ b ∉ l.refs := by
        simp only [nodup_cons, mem_cons, not_or] at hn
        exact ⟨hn.1.2, hn.2.1⟩
      obtain ⟨st2, k, U', hrest, h2, hhalf, hodd', hk2⟩ := ih (ha.keeps hk1 hnot.1)
        (hb.keeps hk1 hnot.2) h1 (by omega) (by omega)
      refine ⟨st2, k + 1, U', ?_, h2, ?_, hodd', hk1.trans hk2⟩
      · simp [heven, honce, hrest]
      · rw [pow_succ, mul_right_comm, ← hhalf]
        omega
    · exact ⟨st, 0, U, by simp [heven], h, by simp, heven, fun _ _ => rfl⟩

end

/-! ## The loop -/

/-- The two are subtracted, and so are their coefficients. -/
theorem subtract_spec (hn : (l.refs ++ m.refs).Nodup) (hl : l.Makes p q U st)
    (hm : m.Makes p q V st) :
    ∃ st', subtract l m st = some st' ∧ l.Makes p q (U - V) st' ∧ m.Makes p q V st' ∧
      Keeps l.refs st st' := by
  have hdisj : ∀ r ∈ m.refs, r ∉ l.refs := fun r hr hr' => disjoint_of_nodup_append hn hr' hr
  obtain ⟨hu, X, Y, hA, hB, rfl⟩ := hl
  obtain ⟨hv, X', Y', hC, hD, rfl⟩ := id hm
  simp only [Row.refs, nodup_cons, mem_cons, not_mem_nil, or_false, not_or,
    cons_append, nil_append] at hn
  obtain ⟨⟨huA, huB, -, huC, huD⟩, ⟨hAB, -, -, hAD⟩, -⟩ := hn
  obtain ⟨st1, hsub1, hu1, hk1⟩ := mpsub_low hu hv.holds
  obtain ⟨st2, hsub2, hA2, hk2⟩ := mpsub_low (hA.keep hk1 (Ne.symm huA))
    (hC.holds.keep hk1 (Ne.symm huC))
  have hk12 : Keeps [l.u, l.A] st st2 := (hk1.mono (by simp)).trans (hk2.mono (by simp))
  obtain ⟨st3, hsub3, hB3, hk3⟩ := mpsub_low
    (hB.keeps hk12 (by simp [Ne.symm huB, Ne.symm hAB]))
    (hD.holds.keeps hk12 (by simp [Ne.symm huD, Ne.symm hAD]))
  have hk : Keeps l.refs st st3 := (hk12.mono (by simp [Row.refs])).trans
    (hk3.mono (by simp [Row.refs]))
  refine ⟨st3, ?_, ⟨?_, _, _, hA2.keep hk3 hAB, hB3, by ring⟩, hm.keeps hk hdisj, hk⟩
  · simp only [subtract, hsub1, hsub2, hsub3, some_bind]
  · exact (hu1.keep hk2 huA).keep hk3 huB

/-- A power of 2 does not count where the divisor is odd. -/
theorem gcd_two_pow_mul {k : Nat} (hodd : ¬ 2 ∣ Int.gcd (2 ^ k * U) V) :
    Int.gcd (2 ^ k * U) V = Int.gcd U V := by
  refine Nat.dvd_antisymm ?_ (gcd_dvd_gcd_mul_left_left _ _ _)
  have hcop := (((Nat.prime_two.coprime_iff_not_dvd).mpr hodd).symm).pow_right k
  have hdvd : Int.gcd (2 ^ k * U) V ∣ 2 ^ k * U.natAbs :=
    (Nat.gcd_dvd_left _ _).trans (by simp [natAbs_mul, natAbs_pow])
  exact Nat.dvd_gcd (hcop.dvd_of_dvd_mul_left hdvd) (Nat.gcd_dvd_right _ _)

/-- What the loop works on. -/
structure Rows (a b : Ref) (l m : Row) (p q U V : Int) (st : Store) : Prop where
  a : Holds st a p
  b : Holds st b q
  u : l.Makes p q U st
  v : m.Makes p q V st

theorem Holds.mag_eq (h : Holds st a U) (hU : 0 ≤ U) :
    ∃ z, st.get a = some z ∧ z.Normal ∧ z.value = U ∧ z.mag = U.toNat := by
  obtain ⟨z, hz, hzn, rfl⟩ := h
  refine ⟨z, hz, hzn, rfl, ?_⟩
  rw [value, hzn.sign_of_nonneg hU]
  simp

theorem nodup_rows (hn : (a :: b :: (l.refs ++ m.refs)).Nodup) :
    (a ≠ b ∧ a ∉ l.refs ∧ a ∉ m.refs) ∧ (b ∉ l.refs ∧ b ∉ m.refs) ∧ (l.refs ++ m.refs).Nodup := by
  simpa only [nodup_cons, mem_cons, mem_append, not_or] using hn

/-- One of the halves of a round. -/
theorem Rows.halve (hn : (a :: b :: (l.refs ++ m.refs)).Nodup) (hodd : ¬ (2 ∣ p ∧ 2 ∣ q))
    (h : Rows a b l m p q U V st) (hU : 0 < U) (hgcd : ¬ 2 ∣ Int.gcd U V) :
    ∃ z st' U', st.get l.u = some z ∧ halve a b l (z.mag + 1) st = some st' ∧
      Rows a b l m p q U' V st' ∧ 0 < U' ∧ U' ≤ U ∧ Int.gcd U' V = Int.gcd U V ∧
      Keeps l.refs st st' := by
  obtain ⟨z, hz, -, -, hmag⟩ := h.u.number.holds.mag_eq hU.le
  obtain ⟨hna, hnb, hnlm⟩ := nodup_rows hn
  have hnl : (a :: b :: l.refs).Nodup := by
    refine nodup_cons.mpr ⟨?_, nodup_cons.mpr ⟨hnb.1, hnlm.of_append_left⟩⟩
    simp [hna.1, hna.2.1]
  obtain ⟨st', k, U', hhalve, hu, rfl, hodd', hk⟩ := halve_spec hnl hodd h.a h.b h.u hU hmag.ge
  have hpos : 0 < U' := by
    have : (0 : Int) < 2 ^ k := by positivity
    exact (mul_pos_iff_of_pos_left this).mp hU
  refine ⟨z, st', U', hz, hhalve, ⟨h.a.keeps hk hna.2.1, h.b.keeps hk hnb.1, hu,
    h.v.keeps hk fun r hr hr' => disjoint_of_nodup_append hnlm hr' hr⟩, hpos, ?_,
    (gcd_two_pow_mul hgcd).symm, hk⟩
  have : (1 : Int) ≤ 2 ^ k := one_le_pow₀ (by decide)
  nlinarith

theorem Rows.swap (h : Rows a b l m p q U V st) : Rows a b m l p q V U st := ⟨h.a, h.b, h.v, h.u⟩

theorem Rows.subtract (hn : (a :: b :: (l.refs ++ m.refs)).Nodup) (h : Rows a b l m p q U V st) :
    ∃ st', subtract l m st = some st' ∧ Rows a b l m p q (U - V) V st' ∧ Keeps l.refs st st' := by
  obtain ⟨hna, hnb, hnlm⟩ := nodup_rows hn
  obtain ⟨st', hsub, hu, hv, hk⟩ := subtract_spec hnlm h.u h.v
  exact ⟨st', hsub, ⟨h.a.keeps hk hna.2.1, h.b.keeps hk hnb.1, hu, hv⟩, hk⟩

section

variable (hn : (a :: b :: (l.refs ++ m.refs)).Nodup) (hodd : ¬ (2 ∣ p ∧ 2 ∣ q))
  (h : Rows a b l m p q U V st) (hU : 0 < U) (hV : 0 < V) (hgcd : ¬ 2 ∣ Int.gcd U V)
include hn hodd h hU hV hgcd

/-- One round: the divisor stays, and the numbers get smaller. -/
theorem gcdRound_spec :
    ∃ st' U' V', gcdRound a b l m st = some st' ∧ Rows a b l m p q U' V' st' ∧ 0 ≤ U' ∧ 0 < V' ∧
      U' + V' < U + V ∧ Int.gcd U' V' = Int.gcd U V ∧ Keeps (l.refs ++ m.refs) st st' := by
  have hn' : (a :: b :: (m.refs ++ l.refs)).Nodup := by
    refine (Perm.nodup_iff ?_).mp hn
    exact (perm_append_comm.cons b).cons a
  obtain ⟨z, st1, U1, hz, hhalve1, h1, hU1, hle1, hgcd1, hk1⟩ := h.halve hn hodd hU hgcd
  rw [← hgcd1, Int.gcd_comm] at hgcd
  obtain ⟨w, st2, V2, hw, hhalve2, h2, hV2, hle2, hgcd2, hk2⟩ := h1.swap.halve hn' hodd hV hgcd
  obtain ⟨x, hx, hxn, rfl, -⟩ := h2.v.number.holds.mag_eq hU1.le
  obtain ⟨y, hy, hyn, rfl, -⟩ := h2.u.number.holds.mag_eq hV2.le
  have hk : Keeps (l.refs ++ m.refs) st st2 := (hk1.mono (subset_append_left _ _)).trans
    (hk2.mono (subset_append_right _ _))
  have hgcd' : Int.gcd x.value y.value = Int.gcd U V := by
    rw [Int.gcd_comm, hgcd2, Int.gcd_comm, hgcd1]
  simp only [gcdRound, hz, hw, hx, hy, hhalve1, hhalve2, some_bind]
  have hcmp := (mpcmp_sign hxn hyn).1
  split
  · next hge =>
    obtain ⟨st3, hsub, h3, hk3⟩ := h2.swap.subtract hn
    refine ⟨st3, _, _, hsub, h3, ?_, hV2, by omega, ?_,
      hk.trans (hk3.mono (subset_append_left _ _))⟩
    · omega
    · rw [gcd_sub_self_left, hgcd']
  · next hlt =>
    obtain ⟨st3, hsub, h3, hk3⟩ := h2.subtract hn'
    refine ⟨st3, _, _, hsub, h3.swap, hU1.le, by omega, by omega, ?_,
      hk.trans (hk3.mono (subset_append_right _ _))⟩
    rw [gcd_sub_self_right, hgcd']

/-- **The loop** leaves the divisor in `v`, with its coefficients. -/
theorem gcdLoop_spec (hfuel : U + V ≤ fuel + 1) :
    ∃ st', gcdLoop a b l m fuel st = some st' ∧ Rows a b l m p q 0 (Int.gcd U V) st' ∧
      Keeps (l.refs ++ m.refs) st st' := by
  induction fuel generalizing st U V with
  | zero => omega
  | succ fuel ih =>
    obtain ⟨st1, U', V', hround, h1, hU', hV', hlt, hgcd', hk1⟩ :=
      gcdRound_spec hn hodd h hU hV hgcd
    obtain ⟨x, hx, hxn, rfl, hmag⟩ := h1.u.number.holds.mag_eq hU'
    have htop : x.top = 0 ↔ x.value = 0 := by
      rw [← hxn.trimmed.mag_eq_zero, hmag]
      omega
    simp only [gcdLoop, hround, hx, some_bind, htop]
    split
    · next h0 =>
      rw [h0] at h1 hgcd'
      rw [Int.gcd_zero_left] at hgcd'
      refine ⟨st1, rfl, ?_, hk1⟩
      rw [← hgcd', natAbs_of_nonneg hV'.le]
      exact h1
    · next h0 =>
      rw [← hgcd'] at hgcd ⊢
      obtain ⟨st2, hrest, h2, hk2⟩ := ih h1 (by omega) hV' hgcd (by omega)
      exact ⟨st2, hrest, h2, hk1.trans hk2⟩

end

/-- The factors of 2 that the operands share. -/
theorem commonHalves_spec (g : Nat) (hab : a ≠ b) (ha : HoldsLow st a p) (hb : HoldsLow st b q)
    (hp : 0 < p) (hfuel : p.toNat ≤ fuel) :
    ∃ st' k p' q', commonHalves a b (fuel + 1) g st = some (g + k, st') ∧ HoldsLow st' a p' ∧
      HoldsLow st' b q' ∧ p = 2 ^ k * p' ∧ q = 2 ^ k * q' ∧ ¬ (2 ∣ p' ∧ 2 ∣ q') ∧
      Keeps [a, b] st st' := by
  induction fuel generalizing st p q g with
  | zero => omega
  | succ fuel ih =>
    rw [commonHalves]
    simp only [bind_eq_bind, iseven_spec ha, iseven_spec hb, bind_some]
    split
    · next heven =>
      simp only [Bool.and_eq_true, decide_eq_true_eq] at heven
      obtain ⟨⟨p', rfl⟩, q', rfl⟩ := heven
      obtain ⟨st1, hright1, ha1, hk1⟩ := mpright_one ha ⟨p', rfl⟩
      obtain ⟨st2, hright2, hb2, hk2⟩ := mpright_one (hb.keep hk1 hab.symm)
        ⟨q', rfl⟩
      rw [mul_ediv_cancel_left _ (by decide)] at ha1 hb2
      obtain ⟨st3, k, p'', q'', hrest, ha3, hb3, rfl, rfl, hodd, hk3⟩ := ih (g + 1)
        (ha1.keep hk2 hab) hb2 (by omega) (by omega)
      refine ⟨st3, k + 1, p'', q'', ?_, ha3, hb3, by ring, by ring, hodd, ?_⟩
      · rw [hright1, bind_some, hright2, bind_some, hrest, add_assoc, add_comm 1]
      · exact ((hk1.mono (by simp)).trans (hk2.mono (by simp))).trans hk3
    · next hodd =>
      simp only [Bool.and_eq_true, decide_eq_true_eq] at hodd
      exact ⟨st, 0, p, q, rfl, ha, hb, by simp, by simp, hodd, fun _ _ => rfl⟩

end Halves

/-! ## The objects of a call -/

/-- The references are different, and each of them refers to an object. -/
structure Objects (st : Store) (rs : List Ref) : Prop where
  nodup : rs.Nodup
  live : ∀ r ∈ rs, ∃ z, st.get r = some z

section Objects

variable {r c : Ref} {ss : List Ref} {x : Mpint}

theorem extends_alloc (st : Store) (z : Mpint) : Extends st (st.alloc z).2 := fun _ _ hx =>
  (get_alloc_of_ne st z (ne_alloc_of_get z hx)).trans hx

theorem Objects.alloc (h : Objects st rs) (z : Mpint) :
    Objects (st.alloc z).2 ((st.alloc z).1 :: rs) := by
  refine ⟨nodup_cons.mpr ⟨fun hmem => ?_, h.nodup⟩, fun r hr => ?_⟩
  · obtain ⟨w, hw⟩ := h.live _ hmem
    exact ne_alloc_of_get z hw rfl
  · rcases mem_cons.mp hr with rfl | hr
    · exact ⟨z, get_alloc_self st z⟩
    · obtain ⟨w, hw⟩ := h.live r hr
      exact ⟨w, extends_alloc st z r w hw⟩

theorem Objects.keeps (h : Objects st rs) (hk : Keeps ss st st')
    (hlive : ∀ r ∈ ss, ∃ z, st'.get r = some z) : Objects st' rs := by
  refine ⟨h.nodup, fun r hr => ?_⟩
  by_cases hmem : r ∈ ss
  · exact hlive r hmem
  · rw [hk r hmem]
    exact h.live r hr

theorem Objects.swap {v x y : Ref} (h : Objects st [v, x, y]) : Objects st [v, y, x] := by
  have hperm : [v, x, y].Perm [v, y, x] := (Perm.swap y x []).cons v
  exact ⟨hperm.nodup_iff.mp h.nodup, fun r hr => h.live r (hperm.mem_iff.mpr hr)⟩

theorem HoldsLow.extend (h : HoldsLow st r n) (he : Extends st st') : HoldsLow st' r n :=
  h.imp fun z hz => ⟨he r z hz.1, hz.2⟩

/-- A copy as a new object. -/
theorem alloc_spec (h : Objects st rs) (hx : x.Normal) :
    ∃ c st', st.alloc (mpcopy x) = (c, st') ∧ HoldsLow st' c x.value ∧ Extends st st' ∧
      Objects st' (c :: rs) :=
  ⟨_, _, rfl, ⟨_, get_alloc_self st _, (mpcopy_same x).normal.mpr hx, (mpcopy_same x).value,
    mpcopy_low x⟩, extends_alloc st _, h.alloc _⟩

theorem alloc_new (h : Objects st rs) :
    ∃ c st', st.alloc (mpnew 0) = (c, st') ∧ Holds st' c 0 ∧ Extends st st' ∧
      Objects st' (c :: rs) :=
  ⟨_, _, rfl, ⟨_, get_alloc_self st _, by decide, rfl⟩, extends_alloc st _, h.alloc _⟩

theorem holds_assign (hx : x.Normal) (hr : st.get r = some z) :
    ∃ st', assign x r st = some st' ∧ Holds st' r x.value ∧ (x.value ≠ 0 → HoldsLow st' r x.value) ∧
      Keeps [r] st st' := by
  have hsame := mpassign_same x z
  have hholds : Holds (st.set r (mpassign x z)) r x.value :=
    holds_set hr (hsame.normal.mpr hx) hsame.value
  refine ⟨_, assign_eq hr, hholds, fun h0 => ?_, keeps_set st r _⟩
  refine ⟨_, get_set_self hr, hsame.normal.mpr hx, hsame.value, low_of_top_ne_zero ?_⟩
  intro htop
  apply h0
  rw [← hsame.value, value, mag_of_top_eq_zero htop, Int.natCast_zero, mul_zero]

theorem Holds.frees (h : Holds st r n) (hr : r ∉ rs) : Holds (rs.foldl free st) r n := by
  induction rs generalizing st with
  | nil => exact h
  | cons c rs ih =>
    simp only [mem_cons, not_or] at hr
    obtain ⟨z, hz, hrest⟩ := h
    exact ih ⟨z, (get_free_of_ne st hr.1).trans hz, hrest⟩ hr.2

end Objects

/-- `v` holds the divisor, and `x` and `y` hold coefficients for it. -/
structure Bezout (st : Store) (v x y : Ref) (p q : Int) : Prop where
  divisor : Holds st v (Int.gcd p q)
  coefficients : ∃ X Y, Holds st x X ∧ Holds st y Y ∧ p * X + q * Y = Int.gcd p q

section Extended

variable {a b v x y : Ref} {p q : Int}

theorem holds_mpleft (h : Holds st v n) (hn : 0 < n) (g : Nat) :
    ∃ st', mpleft v g v st = some st' ∧ Holds st' v (2 ^ g * n) ∧ Keeps [v] st st' := by
  obtain ⟨z, hz, hzn, rfl⟩ := h
  obtain ⟨s, hs, hsign, htrim, hmag, -⟩ := left_spec z g none
  have hvalue : s.value = 2 ^ g * z.value := by
    rw [value, hsign, hmag, value]
    push_cast
    ring
  have hnormal : s.Normal := ⟨htrim, fun _ => by rw [hsign, hzn.sign_of_nonneg hn.le]⟩
  refine ⟨_, ?_, holds_set hz hnormal hvalue, keeps_set st v s⟩
  simp only [mpleft, hz, some_bind, if_true, hs]
  rfl

theorem copy_eq (h : st.get a = some z) : copy a st = some (st.alloc (mpcopy z)) := by
  rw [copy, h]
  rfl

theorem oddGcd_spec {g : Nat} (h : Objects st [b, a, v, x, y]) (ha : HoldsLow st a p)
    (hb : HoldsLow st b q) (hp : 0 < p) (hq : 0 < q) (hodd : ¬ (2 ∣ p ∧ 2 ∣ q)) :
    ∃ st' X Y, oddGcd a b v x y g st = some st' ∧ Holds st' v (2 ^ g * Int.gcd p q) ∧
      Holds st' x X ∧ Holds st' y Y ∧ p * X + q * Y = Int.gcd p q := by
  obtain ⟨m, hm, hmn, rfl, -⟩ := id ha
  obtain ⟨n, hn, hnn, rfl, -⟩ := id hb
  obtain ⟨u, st1, hcopy, hu1, he1, ho1⟩ := alloc_spec h hmn
  obtain ⟨w, hw⟩ := ho1.live v (by simp)
  obtain ⟨st2, hassign, -, hv2, hk2⟩ := holds_assign hnn hw
  have hv2 := hv2 hq.ne'
  have ho2 := ho1.keeps hk2 (by simpa using hv2.holds.live)
  obtain ⟨A, st3, hA, hA3, he3, ho3⟩ := alloc_spec ho2 mpone_normal
  obtain ⟨B, st4, hB, hB4, he4, ho4⟩ := alloc_spec ho3 mpzero_normal
  obtain ⟨C, st5, hC, hC5, he5, ho5⟩ := alloc_spec ho4 mpzero_normal
  obtain ⟨D, st6, hD, hD6, he6, ho6⟩ := alloc_spec ho5 mpone_normal
  have he := ((he3.trans he4).trans he5).trans he6
  have hnodup := ho6.nodup
  simp only [nodup_cons, mem_cons, not_mem_nil, or_false, not_or] at hnodup
  have hloop : (a :: b :: (Row.refs ⟨u, A, B⟩ ++ Row.refs ⟨v, C, D⟩)).Nodup := by
    simp only [Row.refs, nodup_cons, mem_cons, not_mem_nil, or_false, not_or,
      cons_append, nil_append]
    grind
  obtain ⟨hx, hy⟩ : x ∉ Row.refs ⟨u, A, B⟩ ++ Row.refs ⟨v, C, D⟩ ∧
      y ∉ Row.refs ⟨u, A, B⟩ ++ Row.refs ⟨v, C, D⟩ := by
    simp only [Row.refs, mem_cons, not_mem_nil, or_false, not_or, cons_append, nil_append]
    grind
  obtain ⟨hav, hbv, huv⟩ : a ≠ v ∧ b ≠ v ∧ u ≠ v := by grind
  obtain ⟨hDx, hxy, hvx, hvy⟩ : D ≠ x ∧ x ≠ y ∧ v ≠ x ∧ v ≠ y := by grind
  have hrows : Rows a b ⟨u, A, B⟩ ⟨v, C, D⟩ m.value n.value m.value n.value st6 :=
    ⟨(((ha.extend he1).keep hk2 hav).extend he).holds,
      (((hb.extend he1).keep hk2 hbv).extend he).holds,
      ⟨(hu1.keep hk2 huv).extend he, 1, 0,
        hA3.extend ((he4.trans he5).trans he6), hB4.extend (he5.trans he6), by ring⟩,
      ⟨hv2.extend he, 0, 1, hC5.extend he6, hD6, by ring⟩⟩
  obtain ⟨c, hc, -, -, hcmag⟩ := hrows.u.number.holds.mag_eq hp.le
  obtain ⟨d, hd, -, -, hdmag⟩ := hrows.v.number.holds.mag_eq hq.le
  have hgcd : ¬ 2 ∣ Int.gcd m.value n.value := fun h2 =>
    hodd ⟨(natCast_dvd_natCast.mpr h2).trans (Int.gcd_dvd_left _ _),
      (natCast_dvd_natCast.mpr h2).trans (Int.gcd_dvd_right _ _)⟩
  obtain ⟨st7, hrun, h7, hk7⟩ := gcdLoop_spec hloop hodd hrows hp hq hgcd
    (show _ ≤ ((c.mag + d.mag : Nat) : Int) + 1 by omega)
  obtain ⟨hv7, X, Y, ⟨X', hX', hXn, rfl, -⟩, ⟨Y', hY', hYn, rfl, -⟩, hXY⟩ := h7.v
  obtain ⟨x7, hx7⟩ : ∃ z, st7.get x = some z := hk7 x hx ▸ ho6.live x (by simp)
  obtain ⟨y7, hy7⟩ : ∃ z, st7.get y = some z := hk7 y hy ▸ ho6.live y (by simp)
  obtain ⟨st8, hassign8, hx8, -, hk8⟩ := holds_assign hXn hx7
  obtain ⟨st9, hassign9, hy9, -, hk9⟩ := holds_assign hYn
    ((hk8.get hxy.symm).trans hy7)
  have hv9 := (hv7.holds.keep hk8 hvx).keep hk9 hvy
  have hpos : (0 : Int) < Int.gcd m.value n.value := by
    exact_mod_cast gcd_pos_of_ne_zero_left _ hp.ne'
  obtain ⟨st', hleft, hv', hk'⟩ := holds_mpleft hv9 hpos g
  have hfree : ∀ r ∈ [v, x, y], r ∉ [A, B, C, D, u, a, b] := by
    simp only [mem_cons, not_mem_nil, or_false, not_or]
    grind
  refine ⟨_, X'.value, Y'.value, ?_, hv'.frees (hfree v (by simp)),
    ((hx8.keep hk9 hxy).keep hk' hvx.symm).frees
      (hfree x (by simp)),
    (hy9.keep hk' hvy.symm).frees (hfree y (by simp)), hXY⟩
  simp only [oddGcd, copy_eq hm, hcopy, he1 _ _ hn, hassign, hA, hB, hC, hD, hc, hd, hrun, hX',
    hassign8, hassign9, hleft, some_bind, (hk8.get hDx).trans hY']
  rfl

theorem binaryGcd_spec (h : Objects st [v, x, y]) (ha : Holds st a p) (hb : Holds st b q)
    (hp : 0 < p) (hq : 0 < q) :
    ∃ st', binaryGcd a b v x y st = some st' ∧ Bezout st' v x y p q := by
  obtain ⟨m, hm, hmn, rfl⟩ := ha
  obtain ⟨n, hn, hnn, rfl⟩ := hb
  obtain ⟨a', st1, hcopy1, ha1, he1, ho1⟩ := alloc_spec h hmn
  obtain ⟨b', st2, hcopy2, hb2, he2, ho2⟩ := alloc_spec ho1 hnn
  have hab : a' ≠ b' := by
    rintro rfl
    exact (nodup_cons.mp ho2.nodup).1 (.head _)
  obtain ⟨z, hz, -, -, hzmag⟩ := (ha1.extend he2).holds.mag_eq hp.le
  obtain ⟨st3, k, p', q', hcommon, ha3, hb3, hpk, hqk, hodd, hk3⟩ := commonHalves_spec 0 hab
    (ha1.extend he2) hb2 hp hzmag.ge
  have ho3 := ho2.keeps hk3 (by
    simp only [mem_cons, not_mem_nil, or_false]
    rintro r (rfl | rfl)
    · exact ha3.holds.live
    · exact hb3.holds.live)
  have hpow : (0 : Int) < 2 ^ k := by positivity
  have hp' : 0 < p' := (mul_pos_iff_of_pos_left hpow).mp (hpk ▸ hp)
  have hq' : 0 < q' := (mul_pos_iff_of_pos_left hpow).mp (hqk ▸ hq)
  obtain ⟨st4, X, Y, hgcd, hv, hx, hy, hXY⟩ := oddGcd_spec (g := 0 + k) ho3 ha3 hb3 hp' hq' hodd
  have hdiv : (Int.gcd m.value n.value : Int) = 2 ^ k * Int.gcd p' q' := by
    rw [hpk, hqk, gcd_mul_left]
    simp
  refine ⟨st4, ?_, ?_, X, Y, hx, hy, ?_⟩
  · simp only [binaryGcd, copy_eq hm, hcopy1, copy_eq (he1 _ _ hn), hcopy2, hz, hcommon, hgcd,
      some_bind]
  · rw [hdiv]
    simpa using hv
  · rw [hdiv, ← hXY, hpk, hqk]
    ring

theorem Bezout.swap (h : Bezout st v x y p q) : Bezout st v y x q p := by
  obtain ⟨hv, X, Y, hX, hY, hXY⟩ := h
  refine ⟨Int.gcd_comm p q ▸ hv, Y, X, hY, hX, ?_⟩
  rw [Int.gcd_comm, ← hXY]
  ring

/-- The three results are stored one after the other. -/
theorem assigns_spec {k l m : Mpint} (h : Objects st [v, x, y]) (hk : k.Normal) (hl : l.Normal)
    (hm : m.Normal) :
    ∃ st1 st2 st3, assign k v st = some st1 ∧ Keeps [v] st st1 ∧ assign l x st1 = some st2 ∧
      Keeps [x] st1 st2 ∧ assign m y st2 = some st3 ∧ Holds st3 v k.value ∧ Holds st3 x l.value ∧
      Holds st3 y m.value := by
  obtain ⟨w, hw⟩ := h.live v (by simp)
  obtain ⟨z, hz⟩ := h.live x (by simp)
  obtain ⟨z', hz'⟩ := h.live y (by simp)
  have hnodup := h.nodup
  simp only [nodup_cons, mem_cons, not_mem_nil, or_false, not_or] at hnodup
  obtain ⟨⟨hvx, hvy⟩, hxy, -⟩ := hnodup
  obtain ⟨st1, hassign1, hv1, -, hk1⟩ := holds_assign hk hw
  obtain ⟨st2, hassign2, hx2, -, hk2⟩ := holds_assign hl ((hk1.get (Ne.symm hvx)).trans hz)
  obtain ⟨st3, hassign3, hy3, -, hk3⟩ := holds_assign hm
    (((hk2.get (Ne.symm hxy)).trans (hk1.get (Ne.symm hvy))).trans hz')
  exact ⟨st1, st2, st3, hassign1, hk1, hassign2, hk2, hassign3, (hv1.keep hk2 hvx).keep hk3 hvy,
    hx2.keep hk3 hxy, hy3⟩

/-- The results when one of the operands is 0. -/
theorem assigns_zero {m : Mpint} (h : Objects st [v, x, y]) (hm : m.Normal) (hm0 : 0 ≤ m.value) :
    ∃ st', ((assign m v st).bind (assign mpone x)).bind (assign mpzero y) = some st' ∧
      Bezout st' v x y m.value 0 := by
  obtain ⟨st1, st2, st', hv, -, hx, -, hy, hv', hx', hy'⟩ :=
    assigns_spec h hm mpone_normal mpzero_normal
  have hgcd : (Int.gcd m.value 0 : Int) = m.value := by
    rw [Int.gcd_zero_right, natAbs_of_nonneg hm0]
  refine ⟨st', by rw [hv, bind_some, hx, bind_some, hy], by rwa [hgcd], 1, 0, hx', hy', ?_⟩
  rw [hgcd]
  ring

/-- **`mpextendedgcd`** finds the divisor, and coefficients for it. -/
theorem mpextendedgcd_spec (h : Objects st [v, x, y]) (ha : Holds st a p) (hb : Holds st b q)
    (hp : 0 ≤ p) (hq : 0 ≤ q) :
    ∃ st', mpextendedgcd a b v x y st = some st' ∧ Bezout st' v x y p q := by
  obtain ⟨m, hm, hmn, rfl, hmmag⟩ := ha.mag_eq hp
  obtain ⟨n, hn, hnn, rfl, hnmag⟩ := hb.mag_eq hq
  have hsign : ¬ ((m.sign : Int) < 0 ∨ (n.sign : Int) < 0) := by
    rw [hmn.sign_of_nonneg hp, hnn.sign_of_nonneg hq]
    decide
  simp only [mpextendedgcd, bind_eq_bind, hm, hn, bind_some, if_neg hsign,
    ← hmn.trimmed.mag_eq_zero, ← hnn.trimmed.mag_eq_zero]
  split_ifs with hm0 hn0
  · have hm0' : m.value = 0 := by omega
    obtain ⟨st', hrun, hbez⟩ := assigns_zero h.swap hnn hq
    rw [hm0']
    exact ⟨st', by rw [← hrun, Option.bind_assoc], hbez.swap⟩
  · have hn0' : n.value = 0 := by omega
    obtain ⟨st', hrun, hbez⟩ := assigns_zero h hmn hp
    rw [hn0']
    exact ⟨st', by rw [← hrun, Option.bind_assoc], hbez⟩
  · exact binaryGcd_spec h ha hb (by omega) (by omega)

end Extended

/-! ## Rounds of Euclid's algorithm -/

namespace Euclid

/-- `a` and `b` hold `P` and `Q`, which the coefficients make out of the operands. -/
structure Inv (e : Euclid) (p q P Q : Int) (st : Store) : Prop where
  a : Holds st e.a P
  b : Holds st e.b Q
  making_a : ∃ X Y, Holds st e.x2 X ∧ Holds st e.y2 Y ∧ p * X + q * Y = P
  making_b : ∃ X Y, Holds st e.x1 X ∧ Holds st e.y1 Y ∧ p * X + q * Y = Q
  q : ∃ k, Holds st e.q k ∧ 0 ≤ k
  x0 : ∃ z, st.get e.x0 = some z
  y0 : ∃ z, st.get e.y0 = some z
  r : ∃ z, st.get e.r = some z

variable {e : Euclid} {p q P Q : Int}

theorem nodup_rotate (h : e.refs.Nodup) : e.rotate.refs.Nodup := by
  simp only [refs, rotate, nodup_cons, mem_cons, not_mem_nil, or_false, not_or] at h ⊢
  grind

theorem rotate_subset (e : Euclid) : e.rotate.refs ⊆ e.refs := by
  simp [refs, rotate]

/-- `x0 = x2 - qx1`, and the same for `y0`. -/
theorem update_spec {x0 x1 x2 q : Ref} {X K Z : Int} (h1 : Holds st x1 X) (h2 : Holds st x2 Z)
    (hq : Holds st q K) (h0 : ∃ z, st.get x0 = some z) (hne : x2 ≠ x0) :
    ∃ st', (mpmul q x1 x0 st).bind (mpsub x2 x0 x0) = some st' ∧ Holds st' x0 (Z - K * X) ∧
      Keeps [x0] st st' := by
  obtain ⟨z, hz⟩ := h0
  obtain ⟨st1, hmul, hx1, hk1⟩ := holds_mpmul hq h1 hz
  obtain ⟨w, hw⟩ := hx1.live
  obtain ⟨st2, hsub, hx2, hk2⟩ := holds_mpsub (h2.keep hk1 hne) hx1 hw
  exact ⟨st2, by rw [hmul, bind_some, hsub], hx2, hk1.trans hk2⟩

/-- **A round** makes the remainder out of the operands. -/
theorem step_spec (hn : e.refs.Nodup) (h : e.Inv p q P Q st) (hP : 0 ≤ P) (hQ : 0 < Q) :
    ∃ st', e.step st = some st' ∧ e.rotate.Inv p q Q (P % Q) st' ∧ Keeps e.refs st st' := by
  -- what is not assigned to
  have hrest : ∀ s ∈ [e.a, e.b, e.x1, e.x2, e.y1, e.y2], s ∉ [e.q, e.r, e.x0, e.y0] := by
    simp only [refs, nodup_cons, mem_cons, not_mem_nil, or_false, not_or] at hn ⊢
    grind
  obtain ⟨hqr, hqx, hqy, hrx, hry, hxy⟩ : e.q ≠ e.r ∧ e.q ≠ e.x0 ∧ e.q ≠ e.y0 ∧ e.r ≠ e.x0 ∧
      e.r ≠ e.y0 ∧ e.x0 ≠ e.y0 := by
    simp only [refs, nodup_cons, mem_cons, not_mem_nil, or_false, not_or] at hn
    grind
  obtain ⟨X2, Y2, hx2, hy2, hmakes_a⟩ := h.making_a
  obtain ⟨X1, Y1, hx1, hy1, hmakes_b⟩ := h.making_b
  obtain ⟨k, hq, hk0⟩ := h.q
  obtain ⟨z, hz⟩ := h.r
  obtain ⟨st1, hdiv, hq1, hr1, hk1⟩ := holds_mpdiv h.a h.b hP hQ hq hk0 hz hqr
  have hk1' : Keeps [e.q, e.r, e.x0, e.y0] st st1 := hk1.mono (by simp)
  have hx0 := hk1 e.x0 (by simp [hqx.symm, hrx.symm]) ▸ h.x0
  have hy0 := hk1 e.y0 (by simp [hqy.symm, hry.symm]) ▸ h.y0
  have hx2x0 : e.x2 ≠ e.x0 := fun h0 => hrest e.x2 (by simp) (by simp [h0])
  have hy2y0 : e.y2 ≠ e.y0 := fun h0 => hrest e.y2 (by simp) (by simp [h0])
  obtain ⟨st2, hx, hx₂, hk2⟩ := update_spec (hx1.keeps hk1' (hrest _ (by simp)))
    (hx2.keeps hk1' (hrest _ (by simp))) hq1 hx0 hx2x0
  have hk2' := hk1'.trans (hk2.mono (by simp))
  obtain ⟨st3, hy, hy3, hk3⟩ := update_spec (hy1.keeps hk2' (hrest _ (by simp)))
    (hy2.keeps hk2' (hrest _ (by simp))) (hq1.keep hk2 hqx)
    (hk2.get hxy.symm ▸ hy0) hy2y0
  have hk := hk2'.trans (hk3.mono (by simp))
  have hmod : p * (X2 - P / Q * X1) + q * (Y2 - P / Q * Y1) = P % Q := by
    rw [emod_def, ← hmakes_a, ← hmakes_b]
    ring
  refine ⟨st3, ?_, ⟨h.b.keeps hk (hrest _ (by simp)), ?_, ?_, ?_, ?_, ?_, ?_, ?_⟩, hk.mono ?_⟩
  · simp only [step, bind_eq_bind, hdiv, bind_some]
    rw [← Option.bind_assoc, hx, bind_some, hy]
  · exact (hr1.keep hk2 hrx).keep hk3 hry
  · exact ⟨X1, Y1, hx1.keeps hk (hrest _ (by simp)), hy1.keeps hk (hrest _ (by simp)), hmakes_b⟩
  · exact ⟨_, _, hx₂.keep hk3 hxy, hy3, hmod⟩
  · exact ⟨_, (hq1.keep hk2 hqx).keep hk3 hqy, ediv_nonneg hP hQ.le⟩
  · exact (hx2.keeps hk (hrest _ (by simp))).live
  · exact (hy2.keeps hk (hrest _ (by simp))).live
  · exact (h.a.keeps hk (hrest _ (by simp))).live
  · simp [refs]

/-- **The loop** ends with the divisor in `a`, which is one of the objects of the call. -/
theorem loop_spec (hn : e.refs.Nodup) (h : e.Inv p q P Q st) (hP : 0 ≤ P) (hQ : 0 ≤ Q)
    (hfuel : Q.toNat < fuel) :
    ∃ e' st', loop fuel e st = some (e', st') ∧ e'.Inv p q (Int.gcd P Q) 0 st' ∧
      e'.refs ⊆ e.refs ∧ Keeps e.refs st st' := by
  induction fuel generalizing e st P Q with
  | zero => omega
  | succ fuel ih =>
    obtain ⟨z, hz, hzn, rfl, hmag⟩ := h.b.mag_eq hQ
    have hcond : z.top ≠ 0 ∧ (z.sign : Int) > 0 ↔ z.value ≠ 0 := by
      rw [hzn.sign_of_nonneg hQ, ne_eq, ← hzn.trimmed.mag_eq_zero, hmag]
      simp only [Units.val_one]
      omega
    simp only [loop, hz, some_bind, hcond]
    split
    · next hne =>
      obtain ⟨st1, hstep, h1, hk1⟩ := step_spec hn h hP (by omega)
      have hlt := emod_lt_of_pos P (show 0 < z.value by omega)
      have hnonneg := emod_nonneg P hne
      obtain ⟨e', st2, hloop, h2, hsub, hk2⟩ := ih (nodup_rotate hn) h1 hQ hnonneg (by omega)
      have hgcd : Int.gcd z.value (P % z.value) = Int.gcd P z.value := by
        rw [Int.gcd_comm, emod_def, gcd_sub_right_left_of_dvd _ (dvd_mul_right _ _)]
      rw [hgcd] at h2
      refine ⟨e', st2, by rw [hstep, bind_some, hloop], h2,
        fun _ hmem => rotate_subset e (hsub hmem), ?_⟩
      exact hk1.trans (hk2.mono (rotate_subset e))
    · next heq =>
      obtain h0 : z.value = 0 := by omega
      refine ⟨e, st, rfl, ?_, Subset.refl _, fun _ _ => rfl⟩
      rw [h0] at h ⊢
      rw [Int.gcd_zero_right, natAbs_of_nonneg hP]
      exact h

theorem results_spec {d x y : Ref} (h : e.Inv p q (Int.gcd p q) 0 st) (ho : Objects st [d, x, y])
    (hout : ∀ s ∈ [d, x, y], s ∉ e.refs) :
    ∃ st', e.results d x y st = some st' ∧ Bezout st' d x y p q := by
  obtain ⟨z, hz, hzn, hzv⟩ := h.a
  obtain ⟨X, Y, ⟨X', hX, hXn, rfl⟩, ⟨Y', hY, hYn, rfl⟩, hXY⟩ := h.making_a
  have hne : ∀ s ∈ [d, x, y], e.x2 ≠ s ∧ e.y2 ≠ s := fun s hs =>
    ⟨fun h0 => hout s hs (by simp [← h0, refs]), fun h0 => hout s hs (by simp [← h0, refs])⟩
  obtain ⟨st1, st2, st3, hd, hk1, hx, hk2, hy, hd', hx', hy'⟩ := assigns_spec ho hzn hXn hYn
  have hX1 := (hk1.get (hne d (by simp)).1).trans hX
  have hY1 := (hk1.get (hne d (by simp)).2).trans hY
  have hY2 := (hk2.get (hne x (by simp)).2).trans hY1
  rw [hzv] at hd'
  refine ⟨e.refs.foldl free st3, ?_, hd'.frees (hout d (by simp)), X'.value, Y'.value,
    hx'.frees (hout x (by simp)), hy'.frees (hout y (by simp)), hXY⟩
  simp only [results, hz, hd, hX1, hx, hY2, hy, some_bind]
  rfl

end Euclid

section Euclid

variable {a b d x y : Ref} {p q : Int}

variable (h : Objects st [d, x, y]) (ha : Holds st a p) (hb : Holds st b q) (hp : 0 ≤ p)
  (hq : 0 ≤ q)
include h ha hb hp hq

theorem euclid_spec : ∃ st', euclid a b d x y st = some st' ∧ Bezout st' d x y p q := by
  obtain ⟨m, hm, hmn, rfl, -⟩ := ha.mag_eq hp
  obtain ⟨n, hn, hnn, rfl, hmag⟩ := hb.mag_eq hq
  simp only [euclid, bind_eq_bind, hm, hn, bind_some]
  split_ifs with hn0
  · obtain ⟨st', hrun, hbez⟩ := assigns_zero h hmn hp
    rw [← hnn.trimmed.mag_eq_zero] at hn0
    rw [show n.value = 0 by omega]
    exact ⟨st', by rw [← hrun, Option.bind_assoc], hbez⟩
  · obtain ⟨a', st1, ha', ha1, he1, ho1⟩ := alloc_spec h hmn
    obtain ⟨b', st2, hb', hb2, he2, ho2⟩ := alloc_spec ho1 hnn
    obtain ⟨x0, st3, hx0, hx03, he3, ho3⟩ := alloc_new ho2
    obtain ⟨x1, st4, hx1, hx14, he4, ho4⟩ := alloc_spec ho3 mpzero_normal
    obtain ⟨x2, st5, hx2, hx25, he5, ho5⟩ := alloc_spec ho4 mpone_normal
    obtain ⟨y0, st6, hy0, hy06, he6, ho6⟩ := alloc_new ho5
    obtain ⟨y1, st7, hy1, hy17, he7, ho7⟩ := alloc_spec ho6 mpone_normal
    obtain ⟨y2, st8, hy2, hy28, he8, ho8⟩ := alloc_spec ho7 mpzero_normal
    obtain ⟨q', st9, hq', hq'9, he9, ho9⟩ := alloc_new ho8
    obtain ⟨r, st10, hr, hr10, he10, ho10⟩ := alloc_new ho9
    -- from each object to the last store
    have he9' := he9.trans he10
    have he8' := he8.trans he9'
    have he7' := he7.trans he8'
    have he6' := he6.trans he7'
    have he5' := he5.trans he6'
    have he4' := he4.trans he5'
    have he3' := he3.trans he4'
    have hinv : Euclid.Inv ⟨a', b', x0, x1, x2, y0, y1, y2, q', r⟩ m.value n.value m.value n.value
        st10 :=
      ⟨(ha1.extend (he2.trans he3')).holds, (hb2.extend he3').holds,
        ⟨1, 0, (hx25.extend he6').holds, (hy28.extend he9').holds, by ring⟩,
        ⟨0, 1, (hx14.extend he5').holds, (hy17.extend he8').holds, by ring⟩,
        ⟨0, he10.holds hq'9, le_refl _⟩, (he4'.holds hx03).live, (he7'.holds hy06).live, hr10.live⟩
    have hnodup := ho10.nodup
    simp only [nodup_cons, mem_cons, not_mem_nil, or_false, not_or] at hnodup
    have hrefs : (Euclid.refs ⟨a', b', x0, x1, x2, y0, y1, y2, q', r⟩).Nodup := by
      simp only [Euclid.refs, nodup_cons, mem_cons, not_mem_nil, or_false, not_or]
      grind
    have hout : ∀ s ∈ [d, x, y], s ∉ Euclid.refs ⟨a', b', x0, x1, x2, y0, y1, y2, q', r⟩ := by
      simp only [Euclid.refs, mem_cons, not_mem_nil, or_false, not_or]
      grind
    obtain ⟨e, st11, hloop, h11, hsub, hk11⟩ := Euclid.loop_spec hrefs hinv hp hq
      (show n.value.toNat < n.mag + 1 by omega)
    have hlive : ∀ s ∈ [d, x, y], ∃ z, st11.get s = some z := fun s hs =>
      hk11 s (hout s hs) ▸ ho10.live s (by simp [hs])
    obtain ⟨st', hresults, hbez⟩ := Euclid.results_spec h11 ⟨h.nodup, hlive⟩
      fun s hs hmem => hout s hs (hsub hmem)
    refine ⟨st', ?_, hbez⟩
    simp only [copy_eq hm, ha', copy_eq (he1 _ _ hn), hb', hx0, hx1, hx2, hy0, hy1, hy2, hq', hr,
      hloop, hresults, bind_some]

theorem mpeuclid_spec : ∃ st', mpeuclid a b d x y st = some st' ∧ Bezout st' d x y p q := by
  obtain ⟨m, hm, hmn, rfl, -⟩ := ha.mag_eq hp
  obtain ⟨n, hn, hnn, rfl, -⟩ := hb.mag_eq hq
  have hsign : ¬ ((m.sign : Int) < 0 ∨ (n.sign : Int) < 0) := by
    rw [hmn.sign_of_nonneg hp, hnn.sign_of_nonneg hq]
    decide
  simp only [mpeuclid, hm, hn, some_bind, if_neg hsign]
  split
  · obtain ⟨st', hrun, hbez⟩ := euclid_spec h.swap hb ha hq hp
    exact ⟨st', hrun, hbez.swap⟩
  · exact euclid_spec h ha hb hp hq

end Euclid

/-- **The divisor.** For operands that are not negative both functions return, with the greatest
common divisor and coefficients that make it. The results are three objects; any of them may be an
operand. -/
theorem mpgcd_bezout {st : Store} {a b v x y : Ref} {m n : Mpint} (ha : st.get a = some m)
    (hb : st.get b = some n) (hm : m.Normal) (hn : n.Normal) (hm0 : 0 ≤ m.value)
    (hn0 : 0 ≤ n.value) (hvxy : [v, x, y].Nodup) (hlive : ∀ r ∈ [v, x, y], ∃ z, st.get r = some z) :
    (∃ st', mpextendedgcd a b v x y st = some st' ∧ Bezout st' v x y m.value n.value) ∧
      ∃ st', mpeuclid a b v x y st = some st' ∧ Bezout st' v x y m.value n.value :=
  ⟨mpextendedgcd_spec ⟨hvxy, hlive⟩ ⟨m, ha, hm, rfl⟩ ⟨n, hb, hn, rfl⟩ hm0 hn0,
    mpeuclid_spec ⟨hvxy, hlive⟩ ⟨m, ha, hm, rfl⟩ ⟨n, hb, hn, rfl⟩ hm0 hn0⟩

/-- 12 and 8, with the results in the place of the operands. -/
theorem mpgcd_bezout_twelve :
    (∃ st', mpextendedgcd 0 1 2 0 1 ⟨[some ⟨1, 1, [12], by decide⟩, some ⟨1, 1, [8], by decide⟩,
        some mpzero]⟩ = some st' ∧ Bezout st' 2 0 1 12 8) ∧
      ∃ st', mpeuclid 0 1 2 0 1 ⟨[some ⟨1, 1, [12], by decide⟩, some ⟨1, 1, [8], by decide⟩,
        some mpzero]⟩ = some st' ∧ Bezout st' 2 0 1 12 8 := by
  refine @mpgcd_bezout _ 0 1 2 0 1 ⟨1, 1, [12], by decide⟩ ⟨1, 1, [8], by decide⟩ rfl rfl
    (by decide) (by decide) (by decide) (by decide) (by decide) ?_
  simp only [mem_cons, not_mem_nil, or_false]
  rintro r (rfl | rfl | rfl)
  · exact ⟨_, rfl⟩
  · exact ⟨_, rfl⟩
  · exact ⟨_, rfl⟩

end Plan9Port.Mp
