import Plan9Port.Mp.Mod

/-!
# Powers

`mpexp` of `libmp/port/mpexp.c`: the bits of the exponent from the top down, with a square for each
and a product for those that are set. The power is in one of two objects, of which one is the
result; a square is stored in the other one, and so is a residue.

## Main results

* `expLoop_spec`: the power for the bits so far is carried along
* `mpexp_power`: the result is the power modulo `m`
-/

namespace Plan9Port.Mp

open Heap Option Nat

/-- `mpcopy`, as a new object of the store. -/
def copy (r : Ref) (st : Store) : Option (Ref × Store) :=
  (st.get r).map fun z => st.alloc (mpcopy z)

/-- A copy of an operand, if that is the result as well. -/
def copyIf (res r : Ref) (st : Store) : Option (Ref × Store) :=
  if res = r then copy r st else some (r, st)

/-- `for(bit = mpdighi; (bit & d) == 0; bit >>= 1)`. -/
def skipBits (d : mpdigit) : Nat → mpdigit → Option mpdigit
  | 0, _ => none
  | fuel + 1, bit => if bit &&& d = 0 then skipBits d fuel (bit >>> 1) else some bit

/-- Takes the residue of `t[j]`, if it has more digits than `m`. -/
def reduce (m : Option Ref) (t : Bool → Ref) (j : Bool) (st : Store) :
    Option (Bool × Store) :=
  match m with
  | none => some (j, st)
  | some m => do
    let z ← st.get (t j)
    let y ← st.get m
    if z.top > y.top then (mpmod (t j) m (t !j) st).map (!j, ·) else return (j, st)

/-- The square of `t[j]`, and its product with `b` for a bit that is set. -/
def expBit (b : Ref) (m : Option Ref) (t : Bool → Ref) (set : Bool) (j : Bool) (st : Store) :
    Option (Bool × Store) := do
  let st ← mpmul (t j) (t j) (t !j) st
  let (j, st) ← (if set then (mpmul (t !j) b (t j) st).map (j, ·) else some (!j, st))
  reduce m t j st

/-- `for(; bit != 0; bit >>= 1)`. -/
def expDigit (b : Ref) (m : Option Ref) (t : Bool → Ref) (d : mpdigit) :
    Nat → mpdigit → Bool → Store → Option (Bool × Store)
  | 0, _, _, _ => none
  | fuel + 1, bit, j, st =>
    if bit = 0 then some (j, st)
    else do
      let (j, st) ← expBit b m t (bit &&& d ≠ 0) j st
      expDigit b m t d fuel (bit >>> 1) j st

/-- The outer loop: the bits from `bit` on of the digit `d`, and the `i` digits below it. -/
def expLoop (b e : Ref) (m : Option Ref) (t : Bool → Ref) :
    Nat → mpdigit → mpdigit → Bool → Store → Option (Bool × Store)
  | 0, bit, d, j, st => expDigit b m t d 33 bit j st
  | i + 1, bit, d, j, st => do
    let (j, st) ← expDigit b m t d 33 bit j st
    let x ← st.get e
    let d ← x.p[i]?
    expLoop b e m t i mpdighi d j st

/-- The residue at the end. -/
def lastMod (m : Option Ref) (t : Bool → Ref) (j : Bool) (st : Store) : Option (Bool × Store) :=
  match m with
  | none => some (j, st)
  | some m => (mpmod (t j) m (t !j) st).map (!j, ·)

/-- `mpexp` with operands that are not the result; `t[0]` is a copy of `b`, and `t[1]` is `res`. -/
def expInto (b e : Ref) (m : Option Ref) (t : Bool → Ref) (st : Store) : Option Store := do
  let x ← st.get e
  let d ← x.p[x.top - 1]?
  let bit ← skipBits d 33 mpdighi
  let (j, st) ← expLoop b e m t (x.top - 1) (bit >>> 1) d false st
  let (j, st) ← lastMod m t j st
  if j then return st
  else do
    let z ← st.get (t j)
    assign z (t true) st

/-- `res = b**e`, modulo `m` unless that is nil. -/
def mpexp (b e : Ref) (m : Option Ref) (res : Ref) (st : Store) : Option Store := do
  let x ← st.get e
  let i := mpcmp x mpzero
  if i = 0 then assign mpone res st
  else if i < 0 then none
  else do
    let (t0, st) ← copy b st
    let (b', st) ← copyIf res b st
    let (e', st) ← copyIf res e st
    let (m', st) ← (match m with
      | none => some (none, st)
      | some m => (copyIf res m st).map fun (m', st) => (some m', st))
    let st ← expInto b' e' m' (fun j => if j then res else t0) st
    let st := st.free t0
    let st := if res = b then st.free b' else st
    let st := if res = e then st.free e' else st
    return if m = some res then m'.elim st st.free else st

/-! ## The bits of a digit -/

variable {bit : mpdigit} {k fuel : Nat} {d : mpdigit}

theorem and_bit (hbit : bit.toNat = 2 ^ k) : bit &&& d = 0 ↔ d.toNat / 2 ^ k % 2 = 0 := by
  rw [← UInt32.toNat_inj, UInt32.toNat_and, hbit, two_pow_and]
  rw [testBit_eq_decide_div_mod_eq]
  rcases mod_two_eq_zero_or_one (d.toNat / 2 ^ k) with h | h <;> simp [h]

theorem toNat_half (bit : mpdigit) : (bit >>> 1).toNat = bit.toNat / 2 := by
  have := toNat_shiftRight bit (i := 1) (by decide)
  simpa using this

/-- The highest bit of a digit that is not 0. -/
theorem skipBits_spec (hd : d.toNat ≠ 0) (hlt : d.toNat < 2 ^ k) (hbit : bit.toNat = 2 ^ k / 2)
    (hfuel : k ≤ fuel) :
    ∃ bit' k', skipBits d fuel bit = some bit' ∧ k' < k ∧ bit'.toNat = 2 ^ k' ∧
      d.toNat / 2 ^ k' = 1 := by
  induction fuel generalizing bit k with
  | zero =>
    obtain rfl : k = 0 := by omega
    omega
  | succ fuel ih =>
    cases k with
    | zero => omega
    | succ k =>
      have hbit' : bit.toNat = 2 ^ k := by rw [hbit, pow_succ, Nat.mul_div_cancel _ (by decide)]
      have hand := and_bit (d := d) hbit'
      have hlt' : d.toNat / 2 ^ k < 2 := by
        rw [Nat.div_lt_iff_lt_mul (Nat.two_pow_pos k)]
        rwa [pow_succ, mul_comm] at hlt
      rw [skipBits]
      split
      · next h =>
        have hzero : d.toNat / 2 ^ k = 0 := (mod_eq_of_lt hlt').symm.trans (hand.mp h)
        have hsmall := (div_eq_zero_iff_lt (Nat.two_pow_pos k)).mp hzero
        obtain ⟨bit', k', hskip, hk', hrest⟩ := ih hsmall
          (by rw [toNat_half, hbit']) (by omega)
        exact ⟨bit', k', hskip, by omega, hrest⟩
      · next h =>
        refine ⟨bit, k, rfl, by omega, hbit', ?_⟩
        rw [← mod_eq_of_lt hlt']
        exact (mod_two_eq_zero_or_one _).resolve_left fun h0 => h (hand.mpr h0)

/-! ## The power so far -/

variable {j : Bool} {P : Nat} {st st' : Store}

section Power

variable {b e m : Ref} {B M : Int} {t : Bool → Ref} {x : Mpint}

/-- While the bits are taken, `t[j]` has the power of `b` for the bits so far, modulo `m`. -/
structure Powers (b m : Ref) (t : Bool → Ref) (B M : Int) (j : Bool) (P : Nat) (st : Store) :
    Prop where
  b : Holds st b B
  m : Holds st m M
  power : ∃ n, Holds st (t j) n ∧ 0 ≤ n ∧ n ≡ B ^ P [ZMOD M]
  live : ∀ i, ∃ z, st.get (t i) = some z

/-- The two objects are not the operands, and not the same. -/
structure Apart (b e m : Ref) (t : Bool → Ref) : Prop where
  b : ∀ i, b ≠ t i
  e : ∀ i, e ≠ t i
  m : ∀ i, m ≠ t i
  ne : t false ≠ t true

theorem Apart.not (h : Apart b e m t) (j : Bool) : t (!j) ≠ t j := by
  cases j
  · exact h.ne.symm
  · exact h.ne

theorem Apart.not_mem (h : Apart b e m t) (j : Bool) :
    b ∉ [t j] ∧ m ∉ [t j] ∧ t (!j) ∉ [t j] ∧ t j ∉ [t !j] := by
  simp [h.b, h.m, h.not, (h.not j).symm]

theorem keeps_both (h : Keeps [t j] st st') : Keeps [t false, t true] st st' :=
  h.mono (by cases j <;> simp)

/-- A reference that is changed still refers to something. -/
theorem live_of_keeps {n : Int} (hlive : ∀ i, ∃ z, st.get (t i) = some z) (hk : Keeps [t j] st st')
    (hj : Holds st' (t j) n) : ∀ i, ∃ z, st'.get (t i) = some z := by
  intro i
  by_cases hi : t i = t j
  · rw [hi]
    exact hj.live
  · obtain ⟨z, hz⟩ := hlive i
    exact ⟨z, (hk.get hi).trans hz⟩

theorem reduce_spec (ha : Apart b e m t) (hM : 0 < M) (h : Powers b m t B M j P st) :
    ∃ j' st', reduce (some m) t j st = some (j', st') ∧ Powers b m t B M j' P st' ∧
      Keeps [t false, t true] st st' := by
  obtain ⟨n, hn, hn0, hmod⟩ := h.power
  obtain ⟨z, hz, hzn, rfl⟩ := hn
  obtain ⟨y, hy, hyn, rfl⟩ := h.m
  obtain ⟨w, hw⟩ := h.live (!j)
  simp only [reduce, hz, hy, Lib.some_bind]
  split
  · obtain ⟨st', hmod', hres, hk⟩ := holds_mpmod hz hy hw hzn hyn hM (ha.m _).symm (.inr (.inl hn0))
    refine ⟨!j, st', by rw [hmod']; rfl,
      ⟨h.b.keeps hk (ha.not_mem _).1, h.m.keeps hk (ha.not_mem _).2.1,
      ⟨_, hres, Int.emod_nonneg _ hM.ne', (Int.mod_modEq _ _).trans hmod⟩,
      live_of_keeps h.live hk hres⟩, keeps_both hk⟩
  · exact ⟨j, st, rfl, h, fun _ _ => rfl⟩

section

variable (ha : Apart b e m t) (hB : 0 ≤ B) (hM : 0 < M) (h : Powers b m t B M j P st)
include ha hB hM h

theorem expBit_spec (set : Bool) :
    ∃ j' st', expBit b (some m) t set j st = some (j', st') ∧
      Powers b m t B M j' (2 * P + if set then 1 else 0) st' ∧
      Keeps [t false, t true] st st' := by
  obtain ⟨n, hn, hn0, hmod⟩ := h.power
  obtain ⟨w, hw⟩ := h.live (!j)
  obtain ⟨hbj, hmj, hnj, hjn⟩ := ha.not_mem j
  obtain ⟨hbn, hmn, -, -⟩ := ha.not_mem (!j)
  obtain ⟨st1, hmul, hsq, hk⟩ := holds_mpmul hn hn hw
  have hlive := live_of_keeps h.live hk hsq
  have hb := h.b.keeps hk hbn
  have hm := h.m.keeps hk hmn
  have hpow : n * n ≡ B ^ (2 * P) [ZMOD M] := by
    rw [two_mul, pow_add]
    exact hmod.mul hmod
  simp only [expBit, hmul, Lib.some_bind]
  cases set with
  | false =>
    have hp : Powers b m t B M (!j) (2 * P) st1 :=
      ⟨hb, hm, ⟨_, hsq, mul_nonneg hn0 hn0, hpow⟩, hlive⟩
    obtain ⟨j', st', hred, hp', hk'⟩ := reduce_spec ha hM hp
    exact ⟨j', st', hred, hp', (keeps_both hk).trans hk'⟩
  | true =>
    obtain ⟨w', hw'⟩ := hlive j
    obtain ⟨st2, hmul', hprod, hk2⟩ := holds_mpmul hsq hb hw'
    have hp : Powers b m t B M j (2 * P + 1) st2 := by
      refine ⟨hb.keeps hk2 hbj, hm.keeps hk2 hmj,
        ⟨_, hprod, mul_nonneg (mul_nonneg hn0 hn0) hB, ?_⟩, live_of_keeps hlive hk2 hprod⟩
      rw [pow_succ]
      exact hpow.mul_right B
    obtain ⟨j', st', hred, hp', hk'⟩ := reduce_spec ha hM hp
    refine ⟨j', st', by simpa [hmul'] using hred, hp', ?_⟩
    exact ((keeps_both hk).trans (keeps_both hk2)).trans hk'

/-- The bits of a digit below the bit `k`. -/
theorem expDigit_spec (hbit : bit.toNat = 2 ^ k / 2) (hfuel : k < fuel) :
    ∃ j' st', expDigit b (some m) t d fuel bit j st = some (j', st') ∧
      Powers b m t B M j' (P * 2 ^ k + d.toNat % 2 ^ k) st' ∧ Keeps [t false, t true] st st' := by
  induction fuel generalizing bit k j P st with
  | zero => omega
  | succ fuel ih =>
    rw [expDigit]
    cases k with
    | zero =>
      have hzero : bit = 0 := UInt32.toNat_inj.mp (by rw [hbit]; rfl)
      rw [if_pos hzero]
      exact ⟨j, st, rfl, by simpa [mod_one] using h, fun _ _ => rfl⟩
    | succ k =>
      have hbit' : bit.toNat = 2 ^ k := by rw [hbit, pow_succ, Nat.mul_div_cancel _ (by decide)]
      have hne : bit ≠ 0 := by
        rintro rfl
        exact absurd hbit'.symm (Nat.two_pow_pos k).ne'
      rw [if_neg hne, bind_eq_bind]
      obtain ⟨j1, st1, hstep, hp1, hk1⟩ := expBit_spec ha hB hM h (bit &&& d ≠ 0)
      obtain ⟨j', st', hrest, hp', hk'⟩ := ih hp1
        (show (bit >>> 1).toNat = 2 ^ k / 2 by rw [toNat_half, hbit']) (by omega)
      refine ⟨j', st', by rw [hstep]; exact hrest, ?_, hk1.trans hk'⟩
      have hset : (if (decide (bit &&& d ≠ 0)) = true then 1 else 0) = d.toNat / 2 ^ k % 2 := by
        have hand := and_bit (d := d) hbit'
        rcases mod_two_eq_zero_or_one (d.toNat / 2 ^ k) with h0 | h0
        · rw [h0]
          simp [hand.mpr h0]
        · rw [h0]
          have : bit &&& d ≠ 0 := fun h1 => by
            rw [hand.mp h1] at h0
            cases h0
          simp [this]
      rw [hset] at hp'
      have hexp : (2 * P + d.toNat / 2 ^ k % 2) * 2 ^ k + d.toNat % 2 ^ k =
          P * 2 ^ (k + 1) + d.toNat % 2 ^ (k + 1) := by
        rw [pow_succ, mod_mul]
        ring
      rwa [hexp] at hp'

end

theorem val_take_succ {p : List mpdigit} {i : Nat} (hd : p[i]? = some d) :
    val (p.take (i + 1)) = d.toNat * R ^ i + val (p.take i) := by
  obtain ⟨hlt, -⟩ := List.getElem?_eq_some_iff.mp hd
  rw [List.take_add_one, hd, toList_some, val_append, val_singleton, List.length_take_of_le hlt.le]
  ring

/-- The rest of the exponent: the bits of `d` below the bit `k`, and the digits below the digit
`i`. -/
theorem expLoop_spec {i : Nat} (ha : Apart b e m t) (hB : 0 ≤ B) (hM : 0 < M)
    (hx : st.get e = some x) (hi : i ≤ x.p.length) (h : Powers b m t B M j P st)
    (hbit : bit.toNat = 2 ^ k / 2) (hk : k ≤ 32) :
    ∃ j' st', expLoop b e (some m) t i bit d j st = some (j', st') ∧
      Powers b m t B M j' ((P * 2 ^ k + d.toNat % 2 ^ k) * R ^ i + val (x.p.take i)) st' ∧
      Keeps [t false, t true] st st' := by
  induction i generalizing k d bit j P st with
  | zero =>
    obtain ⟨j', st', hdig, hp, hkeep⟩ := expDigit_spec (d := d) ha hB hM h hbit
      (show k < 33 by omega)
    exact ⟨j', st', hdig, by simpa using hp, hkeep⟩
  | succ i ih =>
    obtain ⟨j1, st1, hdig, hp1, hkeep1⟩ := expDigit_spec (d := d) ha hB hM h hbit
      (show k < 33 by omega)
    have hx1 : st1.get e = some x := (hkeep1 e (by simp [ha.e])).trans hx
    have hd := List.getElem?_eq_getElem (show i < x.p.length by omega)
    obtain ⟨j', st', hrest, hp', hkeep'⟩ := ih hx1 (by omega) hp1 (d := x.p[i])
      (show mpdighi.toNat = 2 ^ 32 / 2 by decide) (by decide)
    refine ⟨j', st', ?_, ?_, hkeep1.trans hkeep'⟩
    · simp only [expLoop, hdig, Lib.some_bind, hx1, hd]
      exact hrest
    have hlt : x.p[i].toNat % 2 ^ 32 = x.p[i].toNat := mod_eq_of_lt (toNat_lt _)
    rw [hlt] at hp'
    have hexp : ((P * 2 ^ k + d.toNat % 2 ^ k) * 2 ^ 32 + x.p[i].toNat) * R ^ i +
        val (x.p.take i) =
        (P * 2 ^ k + d.toNat % 2 ^ k) * R ^ (i + 1) + val (x.p.take (i + 1)) := by
      rw [val_take_succ hd, pow_succ, R]
      ring
    rwa [hexp] at hp'

theorem lastMod_spec (ha : Apart b e m t) (hM : 0 < M) (h : Powers b m t B M j P st) :
    ∃ st', lastMod (some m) t j st = some (!j, st') ∧ Holds st' (t !j) (B ^ P % M) ∧
      (∀ i, ∃ z, st'.get (t i) = some z) ∧ Keeps [t false, t true] st st' := by
  obtain ⟨n, ⟨z, hz, hzn, rfl⟩, hn0, hmod⟩ := h.power
  obtain ⟨y, hy, hyn, rfl⟩ := h.m
  obtain ⟨w, hw⟩ := h.live (!j)
  obtain ⟨st', hmod', hres, hk⟩ := holds_mpmod hz hy hw hzn hyn hM (ha.m _).symm (.inr (.inl hn0))
  rw [hmod] at hres
  exact ⟨st', by rw [lastMod, hmod']; rfl, hres, live_of_keeps h.live hk hres, keeps_both hk⟩

/-- The power, with operands that are not the result. -/
theorem expInto_spec (ha : Apart b e m t) (hB : 0 ≤ B) (hM : 0 < M) (hx : st.get e = some x)
    (hxn : x.Trimmed) (htop : x.top ≠ 0) (hb : Holds st b B) (hm : Holds st m M)
    (ht : Holds st (t false) B) (hlive : ∃ z, st.get (t true) = some z) :
    ∃ st', expInto b e (some m) t st = some st' ∧ Holds st' (t true) (B ^ x.mag % M) ∧
      Keeps [t false, t true] st st' := by
  obtain ⟨d, hd, -, -, hd0⟩ := Mpint.getElem?_top htop
  have hdne : d.toNat ≠ 0 := fun h0 => hd0 hxn (UInt32.toNat_inj.mp h0)
  obtain ⟨bit, k, hskip, hk, hbit, hone⟩ := skipBits_spec hdne (toNat_lt d)
    (show mpdighi.toNat = 2 ^ 32 / 2 by decide) (show 32 ≤ 33 by decide)
  have hstart : Powers b m t B M false 1 st :=
    ⟨hb, hm, ⟨B, ht, hB, by rw [pow_one]⟩, fun i => by cases i <;> [exact ht.live; exact hlive]⟩
  have htople := x.top_le
  obtain ⟨j, st1, hloop, hp, hkeep1⟩ := expLoop_spec (d := d) ha hB hM hx
    (show x.top - 1 ≤ x.p.length by omega) hstart
    (show (bit >>> 1).toNat = 2 ^ k / 2 by rw [toNat_half, hbit]) (by omega)
  have hexp : (1 * 2 ^ k + d.toNat % 2 ^ k) * R ^ (x.top - 1) + val (x.p.take (x.top - 1)) =
      x.mag := by
    have hdig : 1 * 2 ^ k + d.toNat % 2 ^ k = d.toNat := by
      have := div_add_mod d.toNat (2 ^ k)
      rw [hone] at this
      omega
    rw [hdig, ← val_take_succ hd, Mpint.mag, Mpint.digits, Nat.sub_add_cancel (by omega)]
  rw [hexp] at hp
  obtain ⟨st2, hlast, hres, hlive2, hkeep2⟩ := lastMod_spec ha hM hp
  simp only [expInto, hx, hd, hskip, hloop, hlast, Lib.some_bind]
  cases j with
  | false => exact ⟨st2, rfl, hres, hkeep1.trans hkeep2⟩
  | true =>
    obtain ⟨z, hz, hzn, hzv⟩ := hres
    obtain ⟨w, hw⟩ := hlive2 true
    have hsame := mpassign_same z w
    refine ⟨_, ?_, holds_set hw (hsame.normal.mpr hzn) (hsame.value.trans hzv), ?_⟩
    · rw [hz]
      exact assign_eq hw
    · exact (hkeep1.trans hkeep2).trans (keeps_both (j := true) (keeps_set st2 (t true) _))

end Power

/-! ## Copies -/

section Copies

variable {st'' : Store} {r res c : Ref} {z : Mpint}

/-- Whatever was in the store is there still. -/
def Extends (st st' : Store) : Prop := ∀ x w, st.get x = some w → st'.get x = some w

theorem Extends.refl (st : Store) : Extends st st := fun _ _ h => h

theorem Extends.trans (h : Extends st st') (h' : Extends st' st'') : Extends st st'' :=
  fun x w hx => h' x w (h x w hx)

theorem Extends.holds (h : Extends st st') {n : Int} (hr : Holds st r n) : Holds st' r n :=
  hr.imp fun z hz => ⟨h r z hz.1, hz.2⟩

/-- A copy is a new object. -/
theorem copy_spec (h : st.get r = some z) :
    ∃ c st', copy r st = some (c, st') ∧ st.get c = none ∧ st'.get c = some (mpcopy z) ∧
      Extends st st' := by
  refine ⟨_, _, by rw [copy, h]; rfl, get_alloc_fst st _, get_alloc_self st _, ?_⟩
  intro x w hx
  rw [get_alloc_of_ne st _ (ne_alloc_of_get _ hx), hx]

/-- The copy of an operand, or the operand itself, is not the result, and no other object that is
in use. -/
theorem copyIf_spec (h : st.get r = some z) (hres : ∃ w, st.get res = some w) :
    ∃ c st' z', copyIf res r st = some (c, st') ∧ st'.get c = some z' ∧ z'.Same z ∧
      (res = r → st.get c = none) ∧
      (∀ y, (∃ w, st.get y = some w) → y = res ∨ y ≠ r → c ≠ y) ∧ Extends st st' := by
  rw [copyIf]
  split
  · obtain ⟨c, st', hcopy, hnew, hc, hext⟩ := copy_spec h
    refine ⟨c, st', _, hcopy, hc, mpcopy_same z, fun _ => hnew, ?_, hext⟩
    rintro y ⟨w, hw⟩ - rfl
    rw [hnew] at hw
    cases hw
  · next hne =>
    refine ⟨r, st, z, rfl, h, ⟨rfl, rfl⟩, fun h => absurd h hne, ?_, .refl st⟩
    rintro y - (rfl | hy)
    · exact Ne.symm hne
    · exact hy.symm

end Copies

/-- What a copy that is freed leaves alone. -/
theorem get_free_if {r x : Ref} {w : Option Mpint} {p : Prop} [Decidable p] (h : st.get x = w)
    (hne : p → x ≠ r) : (if p then st.free r else st).get x = w := by
  split
  · next hp => exact (get_free_of_ne st (hne hp)).trans h
  · exact h

/-- **Powers.** The result is the power modulo `m`, whichever of the operands it is. -/
theorem mpexp_power {st : Store} {b e m res : Ref} {x y z w : Mpint} (hb : st.get b = some x)
    (he : st.get e = some y) (hm : st.get m = some z) (hres : st.get res = some w)
    (hx : x.Normal) (hy : y.Normal) (hz : z.Normal) (hx0 : 0 ≤ x.value) (hy0 : 0 ≤ y.value)
    (hz2 : 2 ≤ z.value) :
    ∃ st' s, mpexp b e (some m) res st = some st' ∧ st'.get res = some s ∧ s.Normal ∧
      s.value = x.value ^ y.value.toNat % z.value ∧
      ∀ v u, v ≠ res → st.get v = some u → st'.get v = some u := by
  obtain ⟨hlt, heq⟩ := mpcmp_sign hy mpzero_normal
  have hzero : mpzero.value = 0 := rfl
  simp only [mpexp, bind_eq_bind, he, bind_some]
  by_cases hy₀ : y.value = 0
  · have hsame := mpassign_same mpone w
    rw [if_pos (heq.mpr hy₀), assign_eq hres]
    refine ⟨_, _, rfl, get_set_self hres, hsame.normal.mpr mpone_normal, ?_, ?_⟩
    · rw [hsame.value, hy₀, Int.toNat_zero, pow_zero, Int.emod_eq_of_lt (by decide) (by omega)]
      rfl
    · intro v u hv hu
      rw [get_set_of_ne st _ hv, hu]
  · rw [if_neg (mt heq.mp hy₀), if_neg (mt hlt.mp (by omega))]
    obtain ⟨t0, st1, hcopy, hnew, ht0, hext1⟩ := copy_spec hb
    obtain ⟨b', st2, x', hcb, hb', hxs, hfb, hneb, hext2⟩ := copyIf_spec (hext1 _ _ hb)
      ⟨w, hext1 _ _ hres⟩
    have hext12 := hext1.trans hext2
    obtain ⟨e', st3, y', hce, he', hys, hfe, hnee, hext3⟩ := copyIf_spec (hext12 _ _ he)
      ⟨w, hext12 _ _ hres⟩
    have hext13 := hext12.trans hext3
    obtain ⟨m', st4, z', hcm, hm', hzs, hfm, hnem, hext4⟩ := copyIf_spec (hext13 _ _ hm)
      ⟨w, hext13 _ _ hres⟩
    have hext14 := hext13.trans hext4
    have hext24 := hext3.trans hext4
    -- the copy of `b` is new
    have ht : ∀ {v u}, st.get v = some u → v ≠ t0 := by
      rintro v u hv rfl
      rw [hnew] at hv
      cases hv
    have hapart : Apart b' e' m' fun j => if j then res else t0 := by
      refine ⟨fun i => ?_, fun i => ?_, fun i => ?_, (ht hres).symm⟩
      · cases i
        · exact hneb t0 ⟨_, ht0⟩ (.inr (ht hb).symm)
        · exact hneb res ⟨w, hext1 _ _ hres⟩ (.inl rfl)
      · cases i
        · exact hnee t0 ⟨_, hext2 _ _ ht0⟩ (.inr (ht he).symm)
        · exact hnee res ⟨w, hext12 _ _ hres⟩ (.inl rfl)
      · cases i
        · exact hnem t0 ⟨_, hext3 _ _ (hext2 _ _ ht0)⟩ (.inr (ht hm).symm)
        · exact hnem res ⟨w, hext13 _ _ hres⟩ (.inl rfl)
    have hsame := mpcopy_same x
    have hytop : y'.top ≠ 0 := by
      rw [hys.top]
      intro h0
      apply hy₀
      rw [Mpint.value, Mpint.mag_of_top_eq_zero h0]
      simp
    obtain ⟨st5, hexp, ⟨s, hs, hsn, hsv⟩, hkeep⟩ := expInto_spec
      (t := fun j => if j then res else t0) hapart hx0 (show 0 < z.value by omega) (hext4 _ _ he')
      (hys.trimmed.mpr hy.trimmed) hytop
      ⟨x', hext24 _ _ hb', hxs.normal.mpr hx, hxs.value⟩ ⟨z', hm', hzs.normal.mpr hz, hzs.value⟩
      ⟨_, hext24 _ _ (hext2 _ _ ht0), hsame.normal.mpr hx, hsame.value⟩ ⟨w, hext14 _ _ hres⟩
    have hmag : y'.mag = y.value.toNat := by
      rw [hys.mag, Mpint.value, hy.sign_of_nonneg hy0]
      simp
    rw [hmag] at hsv
    simp only [hcopy, hcb, hce, hcm, bind_some, map_some, hexp, elim_some]
    refine ⟨_, s, rfl, ?_, hsn, hsv, fun v u hv hu => ?_⟩
    · have h1 := (get_free_of_ne st5 (ht hres)).trans hs
      exact get_free_if (get_free_if (get_free_if h1 fun _ => (hapart.b true).symm)
        fun _ => (hapart.e true).symm) fun _ => (hapart.m true).symm
    have hfresh : ∀ {st : Store} {c : Ref}, st.get c = none → st.get v = some u → v ≠ c := by
      rintro st c hc hv rfl
      rw [hc] at hv
      cases hv
    have h1 : (st5.free t0).get v = some u := by
      rw [get_free_of_ne _ (ht hu), hkeep v (by simp [hv, ht hu]), hext14 v u hu]
    exact get_free_if (get_free_if (get_free_if h1 fun h => hfresh (hfb h) (hext1 v u hu))
      fun h => hfresh (hfe h) (hext12 v u hu)) fun h =>
        hfresh (hfm (some.inj h).symm) (hext13 v u hu)

/-- A modulus of 5 that is raised to the power of itself. -/
theorem mpexp_power_self :
    ∃ st' s, mpexp 0 0 (some 0) 0 ⟨[some ⟨1, 1, [5], by decide⟩]⟩ = some st' ∧
      st'.get 0 = some s ∧ s.value = 5 ^ 5 % 5 := by
  obtain ⟨st', s, hexp, hs, -, hv, -⟩ := @mpexp_power ⟨[some ⟨1, 1, [5], by decide⟩]⟩ 0 0 0 0
    ⟨1, 1, [5], by decide⟩ ⟨1, 1, [5], by decide⟩ ⟨1, 1, [5], by decide⟩ ⟨1, 1, [5], by decide⟩
    rfl rfl rfl rfl (by decide) (by decide) (by decide) (by decide) (by decide) (by decide)
  exact ⟨st', s, hexp, hs, hv⟩

end Plan9Port.Mp
