import Plan9Port.Lib.Positional
import Plan9Port.Mp.Vec

/-!
# Products of vectors

`mpvecmul` and `mpkaratsuba` of `libmp/port/mpmul.c`. The scratch area of `mpkaratsuba` is an
array of its own; the partial products are ranges of it, and a range that does not lie in the
area makes the result `none`.

## Main results

* `schoolbook_spec`, `mpvecmul_spec`: either way the result is the product
-/

namespace Plan9Port.Mp

open Memory List
open Option (bind_some bind_eq_bind)

/-- The `len` digits at `off`, which have to lie in the array. -/
def digits (arr : List mpdigit) (off len : Nat) : Option (List mpdigit) :=
  if off + len ≤ arr.length then some (Memory.slice arr off len) else none

variable {len off : Nat} {t : List mpdigit}

theorem digits_eq {arr : List mpdigit} (h : off + len ≤ arr.length) :
    digits arr off len = some (slice arr off len) :=
  if_pos h

/-- `memset(t+off, 0, Dbytes*len)`. -/
def clear (t : List mpdigit) (off len : Nat) : Option (List mpdigit) :=
  update t off len fun _ => some (List.replicate len 0)

theorem clear_eq (h : off + len ≤ t.length) :
    clear t off len = some (patch t off (replicate len 0)) :=
  update_eq h rfl

/-- `mpvecadd(t+off, len, x, xlen, t+off)`. -/
def addAt (t : List mpdigit) (off len : Nat) (x : List mpdigit) : Option (List mpdigit) :=
  update t off (len + 1) fun d => mpvecadd (d.take len) x

/-- `mpvecsub(t+off, len, x, xlen, t+off)`. -/
def subAt (t : List mpdigit) (off len : Nat) (x : List mpdigit) : Option (List mpdigit) :=
  update t off len fun d => mpvecsub d x

/-- The digits from which on halves are multiplied. -/
def KARATSUBAMIN : Nat := 32

/-- The loop of `mpvecmul`, from digit `i` of `b` on. -/
def schoolbookLoop (a : List mpdigit) : Nat → List mpdigit → List mpdigit → Option (List mpdigit)
  | _, [], p => some p
  | i, d :: b, p =>
    if d ≠ 0 then
      (update p i (a.length + 1) (mpvecdigmuladd a d)).bind (schoolbookLoop a (i + 1) b)
    else schoolbookLoop a (i + 1) b p

/-- The product of `a` and `b` added to `p`, digit by digit of `b`. -/
def schoolbook (a b p : List mpdigit) : Option (List mpdigit) :=
  schoolbookLoop a 0 b p

/-- The first half of `mpkaratsuba`: the scratch area with the three products of the halves `u0`,
`u1` of the one and `v0`, `v1` of the other factor, and the sign of the third. -/
def partialProducts (mul : List mpdigit → List mpdigit → List mpdigit → Option (List mpdigit))
    (n : Nat) (u0 u1 v0 v1 : List mpdigit) : Option (List mpdigit × Int) := do
  -- room for the partial products
  let t := List.replicate (5 * (2 * n + 1)) (0 : mpdigit)
  let u0v0 := 0
  let u1v1 := 2 * n + 1
  let diffprod := 2 * (2 * n + 1)
  -- t[0] = (u1-u0)
  let sign : Int := if mpveccmp u1 u0 < 0 then -1 else 1
  let t ← (if mpveccmp u1 u0 < 0 then update t u0v0 u0.length fun _ => mpvecsub u0 u1
    else update t u0v0 u1.length fun _ => mpvecsub u1 (u0.take u1.length))
  -- t[1] = (v0-v1)
  let sign : Int := if mpveccmp v0 v1 < 0 then sign * -1 else sign
  let t ← (if mpveccmp v0 v1 < 0 then
      update t u1v1 v1.length fun _ => mpvecsub v1 (v0.take v1.length)
    else update t u1v1 v0.length fun _ => mpvecsub v0 v1)
  -- t[4:5] = (u1-u0)*(v0-v1)
  let d ← digits t u0v0 u0.length
  let e ← digits t u1v1 v0.length
  let t ← update t diffprod (u0.length + v0.length) (mul d e)
  -- t[0:1] = u1*v1
  let t ← clear t 0 (2 * (2 * n + 1))
  let t ← (if v1.length > 0 then update t u1v1 (u1.length + v1.length) (mul u1 v1) else some t)
  -- t[2:3] = u0v0
  let t ← update t u0v0 (u0.length + v0.length) (mul u0 v0)
  return (t, sign)

/-- Adds `u1*v1<<n + u1*v1<<2*n` at `res`, if there is a `v1`. -/
def addHigh (n u1len v1len : Nat) (t : List mpdigit) : Option (List mpdigit) :=
  let u1v1 := 2 * n + 1
  let res := 3 * (2 * n + 1)
  let reslen := 4 * n + 1
  if v1len > 0 then do
    let y ← digits t u1v1 (u1len + v1len)
    let t ← addAt t (res + n) (reslen - n) y
    addAt t (res + 2 * n) (reslen - 2 * n) y
  else some t

/-- The second half of `mpkaratsuba`: the scratch area with the partial products added up at
`res`. -/
def sumProducts (n u0len u1len v0len v1len : Nat) (t : List mpdigit) (sign : Int) :
    Option (List mpdigit) := do
  let u0v0 := 0
  let diffprod := 2 * (2 * n + 1)
  let res := 3 * (2 * n + 1)
  let reslen := 4 * n + 1
  -- res = u0*v0<<n + u0*v0
  let x ← digits t u0v0 (u0len + v0len)
  let t ← addAt t (res + 0) (reslen - 0) x
  let t ← addAt t (res + n) (reslen - n) x
  -- res += u1*v1<<n + u1*v1<<2*n
  let t ← addHigh n u1len v1len t
  -- res += (u1-u0)*(v0-v1)<<n
  let z ← digits t diffprod (u0len + v0len)
  if sign < 0 then subAt t (res + n) (reslen - n) z else addAt t (res + n) (reslen - n) z

/-- The product of `a` and `b`, the longer one first, by the products of their halves, which
`mul` computes. -/
def mpkaratsuba (mul : List mpdigit → List mpdigit → List mpdigit → Option (List mpdigit))
    (a b p : List mpdigit) : Option (List mpdigit) := do
  -- divide each piece in half
  let n := if a.length % 2 = 1 then a.length / 2 + 1 else a.length / 2
  let u0len := n
  let u1len := a.length - n
  let v0len := if b.length > n then n else b.length
  let v1len := if b.length > n then b.length - n else 0
  let u0 ← digits a 0 u0len
  let u1 ← digits a u0len u1len
  let v0 ← digits b 0 v0len
  let v1 ← digits b v0len v1len
  let (t, sign) ← partialProducts mul n u0 u1 v0 v1
  let t ← sumProducts n u0len u1len v0len v1len t sign
  let res := 3 * (2 * n + 1)
  update p 0 (a.length + b.length) fun _ => digits t res (a.length + b.length)

/-- `mpvecmul`, with `fuel` for the recursion through `mpkaratsuba`. -/
def vecmul : Nat → List mpdigit → List mpdigit → List mpdigit → Option (List mpdigit)
  | 0, _, _, _ => none
  | fuel + 1, a, b, p =>
    -- both are fastest when a is the longer vector
    let (a, b) := if a.length < b.length then (b, a) else (a, b)
    if b.length = 0 then clear p 0 (a.length + b.length)
    else if a.length ≥ KARATSUBAMIN ∧ b.length > 1 then mpkaratsuba (vecmul fuel) a b p
    else schoolbook a b p

/-- Stores the product of `a` and `b` in `p`, which is zeroed. -/
def mpvecmul (a b p : List mpdigit) : Option (List mpdigit) :=
  vecmul (a.length + b.length + 1) a b p

/-! ## Digit by digit -/

variable {b T : List mpdigit}

/-- The number in `p` ends below digit `i + a.length`, so that nothing is lost when that digit is
overwritten. -/
theorem schoolbookLoop_spec (a : List mpdigit) {i : Nat} {p : List mpdigit}
    (hlen : i + a.length + b.length ≤ p.length) (hlt : val p < R ^ (i + a.length)) :
    ∃ q, schoolbookLoop a i b p = some q ∧ q.length = p.length ∧
      val q = val p + R ^ i * (val a * val b) := by
  induction b generalizing i p with
  | nil => exact ⟨p, rfl, rfl, by simp⟩
  | cons d b ih =>
    rw [length_cons] at hlen
    have hpow : R ^ (i + 1) = R ^ i * R := pow_succ R i
    have hval : val a * val (d :: b) = val a * d.toNat + R * (val a * val b) := by
      rw [val_cons]
      ring
    by_cases hd : d = 0
    · have hlt' : val p < R ^ (i + 1 + a.length) :=
        hlt.trans_le (Nat.pow_le_pow_right R_pos (by omega))
      obtain ⟨q, hq, hqlen, hqval⟩ := ih (by omega) hlt'
      refine ⟨q, ?_, hqlen, ?_⟩
      · rw [schoolbookLoop, if_neg (not_not.mpr hd), hq]
      · rw [hqval, hval, hd, UInt32.toNat_zero, mul_zero, zero_add, hpow, mul_assoc]
    · have hslen : (slice p i a.length).length = a.length := length_slice (by omega)
      obtain ⟨s, hs, hslen', hsval⟩ := mpvecdigmuladd_spec (z := 0) (m := d) hslen
      rw [← slice_succ_of_lt (by omega) hlt] at hs
      have hpval := val_patch_window (by omega) hlt hslen' hsval
      have hlt' : val (patch p i s) < R ^ (i + 1 + a.length) := by
        have hprod : val a * d.toNat ≤ R ^ a.length * (R - 1) :=
          Nat.mul_le_mul (val_lt a).le (Nat.le_sub_one_of_lt (toNat_lt d))
        calc val (patch p i s) = val p + R ^ i * (val a * d.toNat) := hpval
          _ < R ^ (i + a.length) + R ^ i * (R ^ a.length * (R - 1)) :=
            Nat.add_lt_add_of_lt_of_le hlt (Nat.mul_le_mul_left _ hprod)
          _ = R ^ (i + 1 + a.length) := by
            obtain ⟨r, hr⟩ := Nat.exists_eq_add_of_lt R_pos
            rw [hr, Nat.add_sub_cancel]
            ring
      obtain ⟨q, hq, hqlen, hqval⟩ := ih (by rw [length_patch]; omega) hlt'
      refine ⟨q, ?_, hqlen.trans (length_patch _ _ _), ?_⟩
      · rw [schoolbookLoop, if_pos hd, update_eq (by omega) hs, bind_some, hq]
      · rw [hqval, hpval, hval, hpow]
        ring

/-- **The loop computes the product** if `p` is zeroed. -/
theorem schoolbook_spec (a b : List mpdigit) :
    ∃ q, schoolbook a b (replicate (a.length + b.length) 0) = some q ∧
      q.length = a.length + b.length ∧ val q = val a * val b := by
  obtain ⟨q, hq, hqlen, hqval⟩ := schoolbookLoop_spec a (i := 0) (b := b)
    (p := replicate (a.length + b.length) 0) (by simp) (by simp [Nat.pow_pos R_pos])
  exact ⟨q, hq, by simpa using hqlen, by simpa using hqval⟩

/-! ## By the products of halves -/

section Scratch

variable {res reslen : Nat}

/-- The digits below `k` and those above, of a number of `reslen` digits. -/
theorem val_slice_of_lt {k : Nat} (hk : k ≤ reslen) (hT : reslen ≤ T.length)
    (hlt : val T < R ^ reslen) : val T = val (T.take k) + R ^ k * val (slice T k (reslen - k)) := by
  have hval := val_take_drop T k
  rw [length_take_of_le (by omega)] at hval
  have hdrop : val (T.drop k) < R ^ (reslen - k) := by
    refine Nat.lt_of_mul_lt_mul_left (a := R ^ k) ?_
    rw [← pow_add, Nat.add_sub_cancel' hk]
    omega
  rwa [slice, val_take_of_lt hdrop]

section

variable (k : Nat) (x : List mpdigit) (hT : res + T.length ≤ t.length)
  (hlen : T.length = reslen + 1) (hx : k + x.length ≤ reslen) (hlt : val T < R ^ reslen)
include k x hT hlen hx hlt

/-- The number at `res` in the scratch area, with `x` added to it from digit `k` on. -/
theorem addAt_patch :
    ∃ T', addAt (patch t res T) (res + k) (reslen - k) x = some (patch t res T') ∧
      T'.length = reslen + 1 ∧ val T' = val T + R ^ k * val x := by
  obtain ⟨len, rfl⟩ := Nat.exists_eq_add_of_le (show k ≤ reslen by omega)
  rw [Nat.add_sub_cancel_left]
  have hwin := slice_succ_of_lt (hlen ▸ le_refl _) hlt
  have hslen : (slice T k len).length = len := length_slice (by omega)
  obtain ⟨s, hs, hslen', hsval⟩ := mpvecadd_spec (a := slice T k len) (b := x) (by omega)
  rw [hslen] at hslen'
  have hf : mpvecadd ((slice (patch t res T) (res + k) (len + 1)).take len) x = some s := by
    rw [slice_patch_inside hT (by omega : k + (len + 1) ≤ _), hwin, take_left' hslen, hs]
  refine ⟨patch T k s, ?_, by rw [length_patch, hlen], val_patch_window (by omega) hlt hslen' hsval⟩
  rw [addAt, update_eq (by rw [length_patch]; omega) hf, patch_patch_inside hT (by omega)]

/-- The number at `res` in the scratch area, with `x` taken away from it from digit `k` on. -/
theorem subAt_patch (hle : R ^ k * val x ≤ val T) :
    ∃ T', subAt (patch t res T) (res + k) (reslen - k) x = some (patch t res T') ∧
      T'.length = reslen + 1 ∧ val T' + R ^ k * val x = val T := by
  have hval := val_slice_of_lt (k := k) (by omega) (by omega) hlt
  have hslen : (slice T k (reslen - k)).length = reslen - k := length_slice (by omega)
  -- the digits below `k` alone cannot make up for a smaller number above them
  have hsub : val x ≤ val (slice T k (reslen - k)) := by
    have hlow := val_lt (T.take k)
    rw [length_take_of_le (by omega)] at hlow
    by_contra hgt
    have := Nat.mul_le_mul_left (R ^ k) (Nat.succ_le_of_lt (Nat.lt_of_not_le hgt))
    rw [Nat.mul_succ] at this
    omega
  obtain ⟨d, hd, hdlen, hdval⟩ := mpvecsub_spec (by omega) hsub
  rw [hslen] at hdlen
  refine ⟨patch T k d, ?_, by rw [length_patch, hlen], ?_⟩
  · have hf : mpvecsub (slice (patch t res T) (res + k) (reslen - k)) x = some d := by
      rw [slice_patch_inside hT (by omega), hd]
    rw [subAt, update_eq (by rw [length_patch]; omega) hf, patch_patch_inside hT (by omega)]
  · have hval' := val_patch T d (by omega : k + _ ≤ _)
    rw [hdlen, ← hdval, mul_add] at hval'
    omega

end

theorem digits_patch (hT : res + T.length ≤ t.length) (h : off + len ≤ res) :
    digits (patch t res T) off len = some (slice t off len) := by
  rw [digits_eq (by rw [length_patch]; omega), slice_patch_of_disjoint (.inl h)]

end Scratch

/-- What `sumProducts` finds in the scratch area. -/
structure Partial (n : Nat) (u0 u1 v0 v1 : List mpdigit) (d e : Nat) (t : List mpdigit) : Prop where
  length : t.length = 5 * (2 * n + 1)
  u0v0 : val (Memory.slice t 0 (u0.length + v0.length)) = val u0 * val v0
  u1v1 : 0 < v1.length → val (Memory.slice t (2 * n + 1) (u1.length + v1.length)) = val u1 * val v1
  diffprod : val (Memory.slice t (2 * (2 * n + 1)) (u0.length + v0.length)) = d * e
  res : Memory.slice t (3 * (2 * n + 1)) (4 * n + 2) = List.replicate (4 * n + 2) 0

/-- The signs of the differences and of their product. -/
def Signs (u0 u1 v0 v1 d e : Nat) (sign : Int) : Prop :=
  0 < sign ∧ (d + u0 = u1 ∧ e + v1 = v0 ∨ d + u1 = u0 ∧ e + v0 = v1) ∨
    sign < 0 ∧ (d + u0 = u1 ∧ e + v0 = v1 ∨ d + u1 = u0 ∧ e + v1 = v0)

variable {v1 u1 v0 : List mpdigit} {n : Nat} {u0 : List mpdigit}

theorem addHigh_spec {d e : Nat} (ht : Partial n u0 u1 v0 v1 d e t) (hu1 : u1.length ≤ n)
    (hv1 : v1.length ≤ n) (hlen : T.length = 4 * n + 1 + 1)
    (hlt : val T + R ^ n * (val u1 * val v1) < R ^ (4 * n + 1)) :
    ∃ T', addHigh n u1.length v1.length (patch t (3 * (2 * n + 1)) T) =
        some (patch t (3 * (2 * n + 1)) T') ∧ T'.length = 4 * n + 1 + 1 ∧
      val T' = val T + R ^ n * (val u1 * val v1) + (R ^ n) ^ 2 * (val u1 * val v1) := by
  have htlen := ht.length
  by_cases hpos : 0 < v1.length
  · have hy := ht.u1v1 hpos
    have hylen : (slice t (2 * n + 1) (u1.length + v1.length)).length =
        u1.length + v1.length := length_slice (by omega)
    simp only [addHigh, if_pos hpos, bind_eq_bind]
    rw [digits_patch (by omega) (by omega), bind_some]
    generalize slice t (2 * n + 1) (u1.length + v1.length) = y at *
    obtain ⟨T1, h1, hlen1, hval1⟩ := addAt_patch (t := t) n y
      (by omega : 3 * (2 * n + 1) + T.length ≤ _) hlen (by omega) (by omega)
    rw [hy] at hval1
    obtain ⟨T2, h2, hlen2, hval2⟩ := addAt_patch (t := t) (2 * n) y
      (by omega : 3 * (2 * n + 1) + T1.length ≤ _) hlen1 (by omega) (by omega)
    refine ⟨T2, by rw [h1, bind_some, h2], hlen2, ?_⟩
    rw [hval2, hval1, hy, ← pow_mul, mul_comm n 2]
  · have hnil : v1 = [] := length_eq_zero_iff.mp (by omega)
    refine ⟨T, by simp [addHigh, hnil], hlen, ?_⟩
    simp [hnil]

theorem sumProducts_spec {d e : Nat} {sign : Int} (ht : Partial n u0 u1 v0 v1 d e t)
    (hsign : Signs (val u0) (val u1) (val v0) (val v1) d e sign) (hu0 : u0.length = n)
    (hu1 : u1.length ≤ n) (hv0 : v0.length ≤ n) (hv1 : v1.length ≤ n) :
    ∃ T, sumProducts n u0.length u1.length v0.length v1.length t sign =
        some (patch t (3 * (2 * n + 1)) T) ∧
      T.length = 4 * n + 2 ∧
      val T = (val u0 + R ^ n * val u1) * (val v0 + R ^ n * val v1) := by
  have hlen := ht.length
  have hbelow {ds : List mpdigit} (h : ds.length ≤ n) : val ds < R ^ n :=
    (val_lt ds).trans_le (Nat.pow_le_pow_right R_pos h)
  have hroom := Positional.karatsuba_lt (hbelow hu0.le) (hbelow hu1) (hbelow hv0) (hbelow hv1)
  have hpow : 4 * (R ^ n) ^ 4 < R ^ (4 * n + 1) := by
    have : R ^ (4 * n + 1) = (R ^ n) ^ 4 * R := by ring
    rw [this, mul_comm]
    exact Nat.mul_lt_mul_of_pos_left (by decide) (Nat.pow_pos (Nat.pow_pos R_pos))
  have hx := ht.u0v0
  have hz := ht.diffprod
  have hxlen : (slice t 0 (u0.length + v0.length)).length = u0.length + v0.length :=
    length_slice (by omega)
  have hzlen : (slice t (2 * (2 * n + 1)) (u0.length + v0.length)).length =
      u0.length + v0.length := length_slice (by omega)
  simp only [sumProducts, bind_eq_bind]
  rw [digits_eq (by omega), bind_some]
  generalize slice t 0 (u0.length + v0.length) = x at *
  -- the sums with the low product
  have h0 : patch t (3 * (2 * n + 1)) (replicate (4 * n + 2) 0) = t :=
    patch_eq_self (by rw [length_replicate]; exact ht.res)
  obtain ⟨T1, h1, hlen1, hval1⟩ := addAt_patch (t := t) (T := replicate (4 * n + 1 + 1) 0) 0 x
    (by rw [length_replicate]; omega : 3 * (2 * n + 1) + _ ≤ _) (length_replicate) (by omega)
    (by simp [R_pos])
  rw [h0] at h1
  rw [val_replicate_zero, hx, pow_zero, zero_add, one_mul] at hval1
  obtain ⟨T2, h2, hlen2, hval2⟩ := addAt_patch (t := t) n x
    (by omega : 3 * (2 * n + 1) + T1.length ≤ _) hlen1 (by omega) (by omega)
  rw [hval1, hx] at hval2
  rw [h1, bind_some, h2, bind_some]
  obtain ⟨T3, h3, hlen3, hval3⟩ := addHigh_spec ht hu1 hv1 hlen2 (by omega)
  rw [hval2] at hval3
  rw [h3, bind_some, digits_patch (by omega) (by omega), bind_some]
  generalize slice t (2 * (2 * n + 1)) (u0.length + v0.length) = z at *
  -- the cross product
  rcases hsign with ⟨hsign, hcase⟩ | ⟨hsign, hcase⟩
  · obtain ⟨T, hT, hlenT, hvalT⟩ := addAt_patch (t := t) n z
      (by omega : 3 * (2 * n + 1) + T3.length ≤ _) hlen3 (by omega) (by omega)
    refine ⟨T, by rw [if_neg (by omega), hT], hlenT, ?_⟩
    rw [hvalT, hval3, hz, Positional.karatsuba_add hcase]
  · have hsub := Positional.karatsuba_sub (b := R ^ n) hcase
    obtain ⟨T, hT, hlenT, hvalT⟩ := subAt_patch (t := t) n z
      (by omega : 3 * (2 * n + 1) + T3.length ≤ _) hlen3 (by omega) (by omega) (by rw [hz]; omega)
    refine ⟨T, by rw [if_pos hsign, hT], hlenT, ?_⟩
    rw [hval3, hz] at hvalT
    omega

/-- `mul` stores the product of `a` and `b` in zeroed digits. -/
def Multiplies (mul : List mpdigit → List mpdigit → List mpdigit → Option (List mpdigit))
    (a b : List mpdigit) : Prop :=
  ∃ q, mul a b (List.replicate (a.length + b.length) 0) = some q ∧
    q.length = a.length + b.length ∧ val q = val a * val b

variable {a : List mpdigit}
  {mul mul' : List mpdigit → List mpdigit → List mpdigit → Option (List mpdigit)}

section Partials

theorem Multiplies.update (h : Multiplies mul a b) (hlen : off + (a.length + b.length) ≤ t.length)
    (hzero : slice t off (a.length + b.length) = replicate (a.length + b.length) 0) :
    ∃ q, Mp.update t off (a.length + b.length) (mul a b) = some (patch t off q) ∧
      q.length = a.length + b.length ∧ val q = val a * val b := by
  obtain ⟨q, hq, hqlen, hqval⟩ := h
  exact ⟨q, update_eq hlen (by rw [hzero, hq]), hqlen, hqval⟩

section

variable {l s : List mpdigit} (hlen : off + l.length ≤ t.length) (hs : s.length ≤ l.length)
include hlen hs

/-- The difference taken from the longer vector. -/
theorem update_sub_long (h : val s ≤ val l) :
    ∃ d, update t off l.length (fun _ => mpvecsub l s) = some (patch t off d) ∧
      d.length ≤ l.length ∧ val d + val s = val l := by
  obtain ⟨d, hd, hdlen, hdval⟩ := mpvecsub_spec hs h
  exact ⟨d, update_eq hlen hd, hdlen.le, hdval⟩

/-- The difference taken from the shorter vector: the digits of the longer one above it are 0. -/
theorem update_sub_short (h : val l ≤ val s) :
    ∃ d, update t off s.length (fun _ => mpvecsub s (l.take s.length)) =
        some (patch t off d) ∧
      d.length ≤ l.length ∧ val d + val l = val s := by
  have htake : val (l.take s.length) = val l := val_take_of_lt (h.trans_lt (val_lt s))
  obtain ⟨d, hd, hdlen, hdval⟩ := mpvecsub_spec (a := s) (b := l.take s.length)
    (by rw [length_take_of_le hs]) (by rw [htake]; exact h)
  exact ⟨d, update_eq (by omega) hd, by omega, by rw [← htake]; exact hdval⟩

end

/-- The number stored at the start of a zeroed range, read with all the range. -/
theorem val_slice_patch_zero {ds : List mpdigit} (hlen : off + len ≤ t.length)
    (hzero : slice t off len = replicate len 0) (hds : ds.length ≤ len) :
    val (slice (patch t off ds) off len) = val ds := by
  obtain ⟨k, rfl⟩ := Nat.exists_eq_add_of_le hds
  have hrest : slice t (off + ds.length) k = replicate k 0 := by
    rw [← slice_slice t (le_refl _), hzero, slice_replicate _ (le_refl _)]
  rw [slice_add, slice_patch_self (by omega),
    slice_patch_of_disjoint (.inr (le_refl _)), hrest, val_append]
  simp

/-- The difference of the halves of the one factor. -/
theorem update_diff_high (hlen : off + u0.length ≤ t.length) (hu1 : u1.length ≤ u0.length) :
    ∃ d, (if mpveccmp u1 u0 < 0 then update t off u0.length fun _ => mpvecsub u0 u1
        else update t off u1.length fun _ => mpvecsub u1 (u0.take u1.length)) =
          some (patch t off d) ∧
      d.length ≤ u0.length ∧
      if mpveccmp u1 u0 < 0 then val d + val u1 = val u0 else val d + val u0 = val u1 := by
  have hneg := mpveccmp_neg u1 u0
  split_ifs with h
  · exact update_sub_long hlen hu1 (hneg.mp h).le
  · exact update_sub_short hlen hu1 (Nat.le_of_not_lt (h ∘ hneg.mpr))

/-- The difference of the halves of the other factor, taken the other way. -/
theorem update_diff_low (hlen : off + v0.length ≤ t.length) (hv1 : v1.length ≤ v0.length) :
    ∃ e, (if mpveccmp v0 v1 < 0 then update t off v1.length fun _ => mpvecsub v1 (v0.take v1.length)
        else update t off v0.length fun _ => mpvecsub v0 v1) = some (patch t off e) ∧
      e.length ≤ v0.length ∧
      if mpveccmp v0 v1 < 0 then val e + val v0 = val v1 else val e + val v1 = val v0 := by
  have hneg := mpveccmp_neg v0 v1
  split_ifs with h
  · exact update_sub_short hlen hv1 (hneg.mp h).le
  · exact update_sub_long hlen hv1 (Nat.le_of_not_lt (h ∘ hneg.mpr))

theorem partialProducts_spec (hu0 : u0.length = n) (hu1 : u1.length ≤ n) (hv0 : v0.length ≤ n)
    (hv1 : v1.length ≤ v0.length)
    (hdiff : ∀ d e : List mpdigit, d.length = n → e.length = v0.length → Multiplies mul d e)
    (hhigh : 0 < v1.length → Multiplies mul u1 v1) :
    ∃ t sign d e, partialProducts mul n u0 u1 v0 v1 = some (t, sign) ∧
      Partial n u0 u1 v0 v1 d e t ∧ Signs (val u0) (val u1) (val v0) (val v1) d e sign := by
  simp only [partialProducts, bind_eq_bind]
  have hzlen : (replicate (5 * (2 * n + 1)) (0 : mpdigit)).length = 5 * (2 * n + 1) :=
    length_replicate
  generalize ht0 : replicate (5 * (2 * n + 1)) (0 : mpdigit) = t0 at *
  have hzero {off len : Nat} (h : off + len ≤ 5 * (2 * n + 1)) :
      slice t0 off len = replicate len 0 := by
    rw [← ht0, slice_replicate _ h]
  -- the differences
  obtain ⟨d, hd, hdlen, hdval⟩ := update_diff_high (t := t0) (by omega : 0 + u0.length ≤ _)
    (hu1.trans hu0.ge)
  rw [hd, bind_some]
  obtain ⟨e, he, helen, heval⟩ := update_diff_low (t := patch t0 0 d)
    (by rw [length_patch]; omega : 2 * n + 1 + v0.length ≤ _) hv1
  rw [he, bind_some]
  have hdzero : val (slice (patch (patch t0 0 d) (2 * n + 1) e) 0 u0.length) = val d := by
    rw [slice_patch_of_disjoint (.inl (by omega)),
      val_slice_patch_zero (by omega) (hzero (by omega)) hdlen]
  have hezero : val (slice (patch (patch t0 0 d) (2 * n + 1) e) (2 * n + 1)
      v0.length) = val e := by
    rw [val_slice_patch_zero (by rw [length_patch]; omega) ?_ helen]
    rw [slice_patch_of_disjoint (.inr (by omega)), hzero (by omega)]
  have hzero2 {off len : Nat} (h1 : 2 * (2 * n + 1) ≤ off) (h2 : off + len ≤ 5 * (2 * n + 1)) :
      slice (patch (patch t0 0 d) (2 * n + 1) e) off len = replicate len 0 := by
    rw [slice_patch_of_disjoint (.inr (by omega)),
      slice_patch_of_disjoint (.inr (by omega)), hzero h2]
  have hlen2 : (patch (patch t0 0 d) (2 * n + 1) e).length = 5 * (2 * n + 1) := by
    rw [length_patch, length_patch, hzlen]
  generalize patch (patch t0 0 d) (2 * n + 1) e = t2 at *
  rw [digits_eq (by omega), bind_some, digits_eq (by omega), bind_some]
  have hDlen : (slice t2 0 u0.length).length = u0.length := length_slice (by omega)
  have hElen : (slice t2 (2 * n + 1) v0.length).length = v0.length := length_slice (by omega)
  generalize slice t2 0 u0.length = D at *
  generalize slice t2 (2 * n + 1) v0.length = E at *
  -- their product, in digits that are still 0
  obtain ⟨q, hq, hqlen, hqval⟩ := (hdiff D E (hDlen.trans hu0) hElen).update (t := t2)
    (by omega : 2 * (2 * n + 1) + _ ≤ _) (hzero2 (le_refl _) (by omega))
  rw [hDlen, hElen] at hq hqlen
  rw [hq, bind_some]
  -- the area cleared for the other two
  rw [clear_eq (by rw [length_patch]; omega), bind_some]
  have hzero4 {off len : Nat} (h : off + len ≤ 2 * (2 * n + 1)) :
      slice (patch (patch t2 (2 * (2 * n + 1)) q) 0
        (replicate (2 * (2 * n + 1)) 0)) off len = replicate len 0 := by
    rw [← zero_add off, slice_patch_inside (by simp; omega) (by simpa using h), slice_replicate _ h]
  have hkeep4 {off len : Nat} (h : 2 * (2 * n + 1) ≤ off) :
      slice (patch (patch t2 (2 * (2 * n + 1)) q) 0
        (replicate (2 * (2 * n + 1)) 0)) off len =
        slice (patch t2 (2 * (2 * n + 1)) q) off len :=
    slice_patch_of_disjoint (.inr (by simpa using h))
  have hlen4 : (patch (patch t2 (2 * (2 * n + 1)) q) 0
      (replicate (2 * (2 * n + 1)) 0)).length = 5 * (2 * n + 1) := by
    rw [length_patch, length_patch, hlen2]
  generalize patch (patch t2 (2 * (2 * n + 1)) q) 0
    (replicate (2 * (2 * n + 1)) 0) = t4 at *
  obtain ⟨t5, ht5, hlen5, hhigh5, hkeep5⟩ : ∃ t5,
      (if v1.length > 0 then update t4 (2 * n + 1) (u1.length + v1.length) (mul u1 v1)
        else some t4) = some t5 ∧ t5.length = 5 * (2 * n + 1) ∧
      (0 < v1.length →
        val (slice t5 (2 * n + 1) (u1.length + v1.length)) = val u1 * val v1) ∧
      ∀ off len, off + len ≤ 2 * n + 1 ∨ 2 * (2 * n + 1) ≤ off →
        slice t5 off len = slice t4 off len := by
    by_cases hpos : 0 < v1.length
    · obtain ⟨r, hr, hrlen, hrval⟩ := (hhigh hpos).update (t := t4)
        (by omega : 2 * n + 1 + _ ≤ _) (hzero4 (by omega))
      refine ⟨_, by rw [if_pos hpos, hr], by rw [length_patch, hlen4], fun _ => ?_, ?_⟩
      · rw [← hrlen, slice_patch_self (by omega), hrval]
      · intro off len h
        exact slice_patch_of_disjoint (by omega)
    · exact ⟨t4, if_neg hpos, hlen4, fun h => absurd h hpos, fun _ _ _ => rfl⟩
  rw [ht5, bind_some]
  obtain ⟨r, hr, hrlen, hrval⟩ := (hdiff u0 v0 hu0 rfl).update (t := t5)
    (by omega : 0 + _ ≤ _) (by rw [hkeep5 _ _ (.inl (by omega)), hzero4 (by omega)])
  rw [hr, bind_some]
  refine ⟨_, _, val d, val e, rfl, ⟨?_, ?_, ?_, ?_, ?_⟩, ?_⟩
  · rw [length_patch, hlen5]
  · rw [← hrlen, slice_patch_self (by omega), hrval]
  · intro hpos
    rw [slice_patch_of_disjoint (.inr (by omega)), hhigh5 hpos]
  · rw [slice_patch_of_disjoint (.inr (by omega)), hkeep5 _ _ (.inr (le_refl _)),
      hkeep4 (le_refl _), ← hqlen, slice_patch_self (by omega), hqval, hdzero, hezero]
  · rw [slice_patch_of_disjoint (.inr (by omega)), hkeep5 _ _ (.inr (by omega)), hkeep4 (by omega),
      slice_patch_of_disjoint (.inr (by omega)), hzero2 (by omega) (by omega)]
  · -- the signs of the two differences, multiplied
    unfold Signs
    split_ifs at hdval heval ⊢
    · exact .inl ⟨by decide, .inr ⟨hdval, heval⟩⟩
    · exact .inr ⟨by decide, .inl ⟨hdval, heval⟩⟩
    · exact .inr ⟨by decide, .inr ⟨hdval, heval⟩⟩
    · exact .inl ⟨by decide, .inl ⟨hdval, heval⟩⟩

end Partials

/-- The halves of the second factor make it up, also if there is but one. -/
theorem val_halves (b : List mpdigit) (n : Nat) :
    val (slice b 0 (if b.length > n then n else b.length)) +
      R ^ n * val (slice b (if b.length > n then n else b.length)
        (if b.length > n then b.length - n else 0)) = val b := by
  split_ifs with h
  · have hval := val_take_drop b n
    rw [length_take_of_le (by omega)] at hval
    simp only [slice, drop_zero]
    rw [take_of_length_le (l := b.drop n) (by simp), ← hval]
  · simp [slice]

theorem mpkaratsuba_spec (hab : b.length ≤ a.length) (ha : 2 ≤ a.length)
    (hmul : ∀ x y : List mpdigit, x.length + y.length < a.length + b.length → Multiplies mul x y) :
    Multiplies (mpkaratsuba mul) a b := by
  unfold Multiplies
  simp only [mpkaratsuba, bind_eq_bind]
  generalize hn : (if a.length % 2 = 1 then a.length / 2 + 1 else a.length / 2) = n
  have hna : a.length ≤ 2 * n ∧ n < a.length := by split_ifs at hn <;> omega
  have hu := val_halves a n
  rw [if_pos hna.2, if_pos hna.2] at hu
  have hv := val_halves b n
  -- the lengths of the halves of `b`
  have hvlen : (if b.length > n then n else b.length) + (if b.length > n then b.length - n else 0) =
      b.length := by split_ifs <;> omega
  have hv0n : (if b.length > n then n else b.length) ≤ n := by split_ifs <;> omega
  have hv10 : (if b.length > n then b.length - n else 0) ≤
      if b.length > n then n else b.length := by split_ifs <;> omega
  generalize (if b.length > n then n else b.length) = v0len at *
  generalize (if b.length > n then b.length - n else 0) = v1len at *
  rw [digits_eq (by omega), bind_some, digits_eq (by omega), bind_some,
    digits_eq (by omega), bind_some, digits_eq (by omega), bind_some]
  have hu0 : (slice a 0 n).length = n := length_slice (by omega)
  have hu1 : (slice a n (a.length - n)).length = a.length - n := length_slice (by omega)
  have hv0 : (slice b 0 v0len).length = v0len := length_slice (by omega)
  have hv1 : (slice b v0len v1len).length = v1len := length_slice (by omega)
  generalize slice a 0 n = u0 at *
  generalize slice a n (a.length - n) = u1 at *
  generalize slice b 0 v0len = v0 at *
  generalize slice b v0len v1len = v1 at *
  obtain ⟨t, sign, d, e, hpart, ht, hsign⟩ := partialProducts_spec hu0
    (by omega : u1.length ≤ n) (by omega : v0.length ≤ n) (by omega : v1.length ≤ v0.length)
    (fun d e hd he => hmul d e (by omega)) (fun hpos => hmul u1 v1 (by omega))
  obtain ⟨T, hsum, hTlen, hTval⟩ := sumProducts_spec ht hsign hu0 (by omega) (by omega) (by omega)
  have htlen := ht.length
  rw [hu0, hu1, hv0, hv1] at hsum
  rw [hu, hv] at hTval
  simp only [hpart, bind_some, hsum]
  -- what is stored is the number at `res`, which has no more digits than the factors together
  have hq : slice (patch t (3 * (2 * n + 1)) T) (3 * (2 * n + 1))
      (a.length + b.length) = T.take (a.length + b.length) := by
    have := slice_patch_inside (m := t) (p := 3 * (2 * n + 1)) (by omega)
      (by omega : 0 + (a.length + b.length) ≤ T.length)
    simpa [slice] using this
  have hqlen : (T.take (a.length + b.length)).length = a.length + b.length :=
    length_take_of_le (by omega)
  refine ⟨T.take (a.length + b.length), ?_, hqlen, ?_⟩
  · rw [update_eq (by simp) (digits_eq (by rw [length_patch]; omega)), hq,
      patch_whole (by rw [hqlen, length_replicate])]
  · rw [val_take_of_lt, hTval]
    rw [hTval, pow_add]
    exact Nat.mul_lt_mul'' (val_lt a) (val_lt b)

theorem Multiplies.swap (h : Multiplies mul b a) (heq : ∀ p, mul' a b p = mul b a p) :
    Multiplies mul' a b := by
  obtain ⟨q, hq, hqlen, hqval⟩ := h
  refine ⟨q, ?_, by omega, by rw [hqval, mul_comm]⟩
  rw [heq, add_comm, hq]

theorem vecmul_spec {fuel : Nat} (hfuel : a.length + b.length < fuel) :
    Multiplies (vecmul fuel) a b := by
  induction fuel generalizing a b with
  | zero => omega
  | succ fuel ih =>
    -- with the longer vector first
    have hsorted {a b : List mpdigit} (hab : b.length ≤ a.length)
        (hfuel : a.length + b.length < fuel + 1) : Multiplies (vecmul (fuel + 1)) a b := by
      unfold Multiplies
      simp only [vecmul, if_neg (Nat.not_lt.mpr hab)]
      split_ifs with hnil hbig
      · have hb := length_eq_zero_iff.mp hnil
        refine ⟨replicate (a.length + b.length) 0, ?_, length_replicate, by simp [hb]⟩
        rw [clear_eq (by simp), patch_whole rfl]
      · exact mpkaratsuba_spec hab (by have := hbig.1; unfold KARATSUBAMIN at this; omega)
          fun x y hxy => ih (by omega)
      · exact schoolbook_spec a b
    rcases lt_or_ge a.length b.length with h | h
    · refine (hsorted h.le (by omega)).swap fun p => ?_
      simp only [vecmul, if_pos h, if_neg (Nat.not_lt.mpr h.le)]
    · exact hsorted h hfuel

/-- **The product is exact**, whichever way it is computed. -/
theorem mpvecmul_spec (a b : List mpdigit) :
    ∃ q, mpvecmul a b (replicate (a.length + b.length) 0) = some q ∧
      q.length = a.length + b.length ∧ val q = val a * val b :=
  vecmul_spec (Nat.lt_succ_self _)

/-- Two ways to multiply find the same digits. -/
theorem Multiplies.eq_of (h : Multiplies mul a b) (h' : Multiplies mul' a b) :
    mul a b (replicate (a.length + b.length) 0) = mul' a b (replicate (a.length + b.length) 0) := by
  obtain ⟨q, hq, hqlen, hqval⟩ := h
  obtain ⟨q', hq', hqlen', hqval'⟩ := h'
  rw [hq, hq', val_inj (hqlen.trans hqlen'.symm) (hqval.trans hqval'.symm)]

end Plan9Port.Mp
