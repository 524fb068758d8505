import Plan9Port.Mp.Arith

/-!
# Shifts

`mpleft` and `mpright` of `libmp/port`. A shift by digits and one by bits are done in one loop
over the digits of `b`, which may be the digits of `res`: `mpleft` goes from the top down and
writes above what it still has to read, `mpright` from the bottom up and writes below it. The
loops read from `src`, or from the very array they write to if that is `none`.

## Main results

* `left_spec`, `right_spec`: the magnitudes, and what becomes of the sign
-/

namespace Plan9Port.Mp

open Memory List Nat
open Option (bind_some bind_eq_bind)

/-- `arr[i] = x`. -/
def store (arr : List mpdigit) (i : Nat) (x : mpdigit) : Option (List mpdigit) :=
  if i < arr.length then some (Memory.patch arr i [x]) else none

variable {arr : List mpdigit} {i : Nat}

theorem store_eq (x : mpdigit) (h : i < arr.length) : store arr i x = some (patch arr i [x]) :=
  if_pos h

/-! ## Shifted digits -/

theorem toNat_shiftRight (d : mpdigit) (hi : i < 32) :
    (d >>> UInt32.ofNat i).toNat = d.toNat / 2 ^ i := by
  have h : (UInt32.ofNat i).toNat = i := UInt32.toNat_ofNat_of_lt' (hi.trans (by decide))
  rw [UInt32.toNat_shiftRight, h, mod_eq_of_lt hi, shiftRight_eq_div_pow]

variable {l : Nat}

/-- What is shifted out of a digit, and what stays. -/
theorem mul_two_pow_eq (h1 : l < 32) (x : mpdigit) :
    x.toNat * 2 ^ l = x.toNat * 2 ^ l % R + R * (x.toNat / 2 ^ (32 - l)) := by
  have hR : R = 2 ^ (32 - l) * 2 ^ l := by
    rw [← pow_add, Nat.sub_add_cancel h1.le]
    rfl
  have hdiv : x.toNat * 2 ^ l / R = x.toNat / 2 ^ (32 - l) := by
    rw [hR, Nat.mul_div_mul_right _ _ (Nat.two_pow_pos l)]
  rw [← hdiv, mod_add_div]

/-- The bits that stay of one digit and those shifted out of the next do not overlap. -/
theorem toNat_or_shift (h0 : 0 < l) (h1 : l < 32) (x y : mpdigit) :
    (x <<< UInt32.ofNat l ||| y >>> UInt32.ofNat (Dbits - l)).toNat =
      x.toNat * 2 ^ l % R + y.toNat / 2 ^ (32 - l) := by
  have hR : R = 2 ^ l * 2 ^ (32 - l) := by
    rw [← pow_add, Nat.add_sub_cancel' h1.le]
    rfl
  have hlow : y.toNat / 2 ^ (32 - l) < 2 ^ l := by
    have := toNat_lt y
    rw [hR, mul_comm] at this
    exact Nat.div_lt_of_lt_mul this
  have hhigh : x.toNat * 2 ^ l % R = 2 ^ l * (x.toNat % 2 ^ (32 - l)) := by
    rw [hR, mul_comm, mul_mod_mul_left]
  rw [UInt32.toNat_or, toNat_shiftLeft x h1, Dbits, toNat_shiftRight y (by omega), hhigh,
    two_pow_add_eq_or_of_lt hlow]

/-! ## To the left -/

/-- `for(i = otop-1; i >= 0; i--) res->p[i+d] = b->p[i]`. -/
def copyUp (src : Option (List mpdigit)) (d : Nat) : Nat → List mpdigit → Option (List mpdigit)
  | 0, arr => some arr
  | i + 1, arr => do
    let x ← (src.getD arr)[i]?
    let arr ← store arr (i + d) x
    copyUp src d i arr

/-- The loop of `mpleft` that shifts by `l` bits as well, and the digit after it. -/
def shiftUp (src : Option (List mpdigit)) (d l : Nat) :
    Nat → mpdigit → List mpdigit → Option (List mpdigit)
  | 0, last, arr => store arr d (last <<< UInt32.ofNat l)
  | i + 1, last, arr => do
    let this ← (src.getD arr)[i]?
    let arr ← store arr (i + d + 1)
      (last <<< UInt32.ofNat l ||| this >>> UInt32.ofNat (Dbits - l))
    shiftUp src d l i this arr

/-- `mpleft` for a shift that is not negative and a `b` that has digits. -/
def leftDigits (b : Mpint) (shift : Nat) (res : Option Mpint) : Option Mpint := do
  let otop := b.top
  let r := mpbits (res.getD b) (Dbits * otop + shift)
  let top := (DIGITS (Dbits * otop + shift)).toNat
  let d := shift / Dbits
  let l := shift - d * Dbits
  let src := res.map fun _ => b.p
  let p ← (if l = 0 then copyUp src d otop r.p else shiftUp src d l otop 0 r.p)
  let p ← clear p 0 d
  mpint b.sign (normTop p top) p

/-! ## To the right -/

/-- `for(i = 0; i < b->top-d; i++) res->p[i] = b->p[i+d]`, for the `n` rounds from `i` on. -/
def copyDown (src : Option (List mpdigit)) (d : Nat) :
    Nat → Nat → List mpdigit → Option (List mpdigit)
  | 0, _, arr => some arr
  | n + 1, i, arr => do
    let x ← (src.getD arr)[i + d]?
    let arr ← store arr i x
    copyDown src d n (i + 1) arr

/-- The loop of `mpright` that shifts by `r` bits as well, and the digit after it. -/
def shiftDown (src : Option (List mpdigit)) (d r : Nat) :
    Nat → Nat → mpdigit → List mpdigit → Option (List mpdigit)
  | 0, i, last, arr => store arr i (last >>> UInt32.ofNat r)
  | n + 1, i, last, arr => do
    let this ← (src.getD arr)[i + d + 1]?
    let arr ← store arr i (this <<< UInt32.ofNat (Dbits - r) ||| last >>> UInt32.ofNat r)
    shiftDown src d r n (i + 1) this arr

/-- `mpright` for a shift that is not negative and a `b` that has digits. -/
def rightDigits (b : Mpint) (shift : Nat) (res : Option Mpint) : Option Mpint := do
  let res' := match res with
    | some z => mpbits (z.withSign b.sign) ((Dbits * b.top : Nat) - shift)
    | none => b
  let d := shift / Dbits
  let r := shift - d * Dbits
  let src := res.map fun _ => b.p
  -- shift all the bits out == zero
  if d ≥ b.top then mpint res'.sign 0 res'.p
  else do
    let p ← (if r = 0 then copyDown src d (b.top - d) 0 res'.p
      else ((src.getD res'.p)[d]?).bind fun last => shiftDown src d r (b.top - d - 1) 0 last res'.p)
    let i := normTop p (b.top - d)
    mpint (if i = 0 then 1 else res'.sign) i p

/-! ## Either way -/

/-- The body of `mpright`; `res` is `none` if it is `b`. -/
def right (b : Mpint) (shift : Int) (res : Option Mpint) : Option Mpint :=
  if b.top = 0 then mpint b.sign 0 (res.getD b).p
  else if shift < 0 then leftDigits b (-shift).toNat res
  else rightDigits b shift.toNat res

/-- The body of `mpleft`; `res` is `none` if it is `b`. -/
def left (b : Mpint) (shift : Int) (res : Option Mpint) : Option Mpint :=
  if b.top = 0 then mpint b.sign 0 (res.getD b).p
  else if shift < 0 then right b (-shift) res
  else leftDigits b shift.toNat res

/-- `res = b << shift`. -/
def mpleft (b : Ref) (shift : Int) (res : Ref) (st : Store) : Option Store := do
  let x ← st.get b
  let z ← st.get res
  let r ← left x shift (if res = b then none else some z)
  return st.set res r

/-- `res = b >> shift`. -/
def mpright (b : Ref) (shift : Int) (res : Ref) (st : Store) : Option Store := do
  let x ← st.get b
  let z ← st.get res
  let r ← right x shift (if res = b then none else some z)
  return st.set res r

/-! ## What the loops compute -/

/-- The digits that `shiftUp` stores for the digits `hs` that it still has to read, the highest
first. -/
def shifted (l : Nat) : mpdigit → List mpdigit → List mpdigit
  | last, [] => [last <<< UInt32.ofNat l]
  | last, this :: hs =>
    (last <<< UInt32.ofNat l ||| this >>> UInt32.ofNat (Dbits - l)) :: shifted l this hs

theorem length_shifted (l : Nat) (last : mpdigit) (hs : List mpdigit) :
    (shifted l last hs).length = hs.length + 1 := by
  induction hs generalizing last with
  | nil => rfl
  | cons this hs ih => rw [shifted, length_cons, ih, length_cons]

theorem val_shifted (h0 : 0 < l) (h1 : l < 32) (last : mpdigit) (hs : List mpdigit) :
    val (shifted l last hs).reverse =
      val hs.reverse * 2 ^ l + R ^ hs.length * (last.toNat * 2 ^ l % R) := by
  induction hs generalizing last with
  | nil => simp [shifted, toNat_shiftLeft last h1]
  | cons this hs ih =>
    rw [shifted, reverse_cons, val_append, ih, length_reverse, length_shifted, reverse_cons,
      val_append, length_reverse, val_singleton, val_singleton, toNat_or_shift h0 h1, length_cons]
    have hthis := mul_two_pow_eq h1 this
    generalize this.toNat * 2 ^ l % R = low at *
    generalize this.toNat / 2 ^ (32 - l) = high at *
    calc val hs.reverse * 2 ^ l + R ^ hs.length * low +
          R ^ (hs.length + 1) * (last.toNat * 2 ^ l % R + high)
        = val hs.reverse * 2 ^ l + R ^ hs.length * (low + R * high) +
          R ^ (hs.length + 1) * (last.toNat * 2 ^ l % R) := by ring
      _ = _ := by rw [← hthis]; ring

variable {src : Option (List mpdigit)} {ds xs : List mpdigit} {x : mpdigit}

/-- The digits that are still to be read are not written to. -/
theorem take_getD_patch {n k : Nat} (hsrc : (src.getD arr).take n = ds) (hk : n ≤ k) :
    (src.getD (patch arr k xs)).take n = ds := by
  cases src with
  | some s => exact hsrc
  | none =>
    have : slice (patch arr k xs) 0 n = slice arr 0 n := slice_patch_of_disjoint (.inl (by omega))
    exact this.trans hsrc

theorem getElem?_of_take_concat (h : arr.take (ds ++ [x]).length = ds ++ [x]) :
    arr[ds.length]? = some x ∧ arr.take ds.length = ds := by
  have hlen : (ds ++ [x]).length = ds.length + 1 := by simp
  rw [hlen] at h
  constructor
  · have := congrArg (fun l : List mpdigit => l[ds.length]?) h
    simpa [getElem?_take] using this
  · have := congrArg (take ds.length) h
    simpa [take_take] using this

variable {d : Nat} {last : mpdigit}

theorem shiftUp_eq (hsrc : (src.getD arr).take ds.length = ds)
    (hlen : ds.length + d + 1 ≤ arr.length) :
    shiftUp src d l ds.length last arr =
      some (patch arr d (shifted l last ds.reverse).reverse) := by
  -- the loop goes from the highest digit down
  induction ds using reverseRecOn generalizing last arr with
  | nil => exact store_eq _ (by simp at hlen; omega)
  | append_singleton ds this ih =>
    obtain ⟨hthis, hrest⟩ := getElem?_of_take_concat hsrc
    rw [length_append, length_singleton] at hlen ⊢
    rw [shiftUp, bind_eq_bind, hthis, bind_some, bind_eq_bind, store_eq _ (by omega), bind_some,
      ih (take_getD_patch hrest (by omega)) (by rw [length_patch]; omega)]
    have hxs : (shifted l this ds.reverse).reverse.length = ds.length + 1 := by
      rw [length_reverse, length_shifted, length_reverse]
    have hpos : ds.length + d + 1 = d + (shifted l this ds.reverse).reverse.length := by omega
    rw [hpos, patch_patch_below, reverse_append, reverse_singleton,
      singleton_append, shifted, reverse_cons]

theorem copyUp_eq (hsrc : (src.getD arr).take ds.length = ds) (hlen : ds.length + d ≤ arr.length) :
    copyUp src d ds.length arr = some (patch arr d ds) := by
  induction ds using reverseRecOn generalizing arr with
  | nil => rw [patch_nil]; rfl
  | append_singleton ds x ih =>
    obtain ⟨hx, hrest⟩ := getElem?_of_take_concat hsrc
    rw [length_append, length_singleton] at hlen ⊢
    rw [copyUp, bind_eq_bind, hx, bind_some, bind_eq_bind, store_eq _ (by omega), bind_some,
      ih (take_getD_patch hrest (by omega)) (by rw [length_patch]; omega), add_comm ds.length d,
      patch_patch_below]

/-- The bits of a shift: whole digits, and the rest. -/
theorem shift_bits (shift : Nat) :
    shift - shift / Dbits * Dbits < 32 ∧
      shift = 32 * (shift / Dbits) + (shift - shift / Dbits * Dbits) := by
  rw [Dbits]
  omega

theorem two_pow_shift (shift : Nat) :
    2 ^ shift = R ^ (shift / Dbits) * 2 ^ (shift - shift / Dbits * Dbits) := by
  conv_lhs => rw [(shift_bits shift).2]
  rw [pow_add, pow_mul, R]

/-- The loop of `mpleft`, whichever it is, puts the digits of `b` shifted by the bits at `d`. -/
theorem leftLoop_spec (hsrc : (src.getD arr).take ds.length = ds) (hl : l < 32)
    (hlen : ds.length + d + (if l = 0 then 0 else 1) ≤ arr.length) :
    ∃ xs, (if l = 0 then copyUp src d ds.length arr else shiftUp src d l ds.length 0 arr) =
        some (patch arr d xs) ∧
      xs.length = ds.length + (if l = 0 then 0 else 1) ∧ val xs = val ds * 2 ^ l := by
  by_cases h0 : l = 0
  · simp only [h0, if_true] at hlen ⊢
    exact ⟨ds, copyUp_eq hsrc hlen, rfl, by simp⟩
  · simp only [h0, if_false] at hlen ⊢
    refine ⟨_, shiftUp_eq hsrc hlen, ?_, ?_⟩
    · rw [length_reverse, length_shifted, length_reverse]
    · rw [val_shifted (Nat.pos_of_ne_zero h0) hl, reverse_reverse]
      simp

theorem leftDigits_spec (b : Mpint) (shift : Nat) (res : Option Mpint) :
    ∃ r, leftDigits b shift res = some r ∧ r.sign = b.sign ∧ r.Trimmed ∧
      r.mag = b.mag * 2 ^ shift ∧ (res.getD b).p.length ≤ r.p.length := by
  obtain ⟨hl, hshift⟩ := shift_bits shift
  have hpow := two_pow_shift shift
  simp only [leftDigits, bind_eq_bind]
  generalize shift / Dbits = d at *
  generalize shift - d * Dbits = l at *
  have hdig : (DIGITS (Dbits * b.top + shift)).toNat = b.top + d + (if l = 0 then 0 else 1) := by
    rw [DIGITS_eq (by positivity), Dbits]
    split_ifs <;> omega
  generalize hz : mpbits (res.getD b) (Dbits * b.top + shift) = z
  have hzlen : z.p.length = max (res.getD b).p.length (b.top + d + (if l = 0 then 0 else 1)) := by
    rw [← hz, length_mpbits, hdig]
  have hsrc : ((res.map fun _ => b.p).getD z.p).take b.digits.length = b.digits := by
    rw [Mpint.length_digits]
    cases res with
    | none => rw [← hz]; exact take_mpbits b _
    | some _ => rfl
  obtain ⟨xs, hxs, hxslen, hxsval⟩ := leftLoop_spec (d := d) hsrc hl (by
    rw [Mpint.length_digits]
    omega)
  rw [Mpint.length_digits] at hxs hxslen
  rw [hxs, bind_some, clear_eq (by rw [length_patch]; omega), bind_some, hdig]
  -- the zeros below the digits and the digits are one store
  have hp : patch (patch z.p d xs) 0 (replicate d 0) = patch z.p 0 (replicate d 0 ++ xs) := by
    rw [← patch_patch_below, length_replicate, zero_add]
  rw [hp]
  have htake : (patch z.p 0 (replicate d 0 ++ xs)).take
      (b.top + d + (if l = 0 then 0 else 1)) = replicate d 0 ++ xs :=
    take_patch_digits (by simp; omega) (by omega)
  have hlen : b.top + d + (if l = 0 then 0 else 1) ≤
      (patch z.p 0 (replicate d 0 ++ xs)).length := by
    rw [length_patch]
    omega
  obtain ⟨hval, hlast⟩ := take_normTop hlen
  rw [mpint_eq ((normTop_le _ _).trans hlen)]
  refine ⟨_, rfl, rfl, hlast, ?_, by rw [length_patch]; omega⟩
  rw [Mpint.mag, Mpint.digits, hval, htake, val_append, val_replicate_zero, length_replicate,
    hxsval, hpow, Mpint.mag]
  ring

/-- The digits that `shiftDown` stores for the digits `ds` that it still has to read. -/
def lowered (r : Nat) : mpdigit → List mpdigit → List mpdigit
  | last, [] => [last >>> UInt32.ofNat r]
  | last, this :: ds =>
    (this <<< UInt32.ofNat (Dbits - r) ||| last >>> UInt32.ofNat r) :: lowered r this ds

theorem length_lowered (r : Nat) (last : mpdigit) (ds : List mpdigit) :
    (lowered r last ds).length = ds.length + 1 := by
  induction ds generalizing last with
  | nil => rfl
  | cons this ds ih => rw [lowered, length_cons, ih, length_cons]

variable {r : Nat}

theorem val_lowered (h0 : 0 < r) (h1 : r < 32) (last : mpdigit) (ds : List mpdigit) :
    val (lowered r last ds) = (last.toNat + R * val ds) / 2 ^ r := by
  have hR : R = 2 ^ r * 2 ^ (32 - r) := by
    rw [← pow_add, Nat.add_sub_cancel' h1.le]
    rfl
  have hdiv (x m : Nat) : (x + R * m) / 2 ^ r = x / 2 ^ r + 2 ^ (32 - r) * m := by
    rw [hR, mul_assoc, add_mul_div_left _ _ (Nat.two_pow_pos r)]
  induction ds generalizing last with
  | nil => simp [lowered, toNat_shiftRight last h1]
  | cons this ds ih =>
    have hor := toNat_or_shift (by omega : 0 < 32 - r) (by omega) this last
    have hthis := mul_two_pow_eq (by omega : 32 - r < 32) this
    rw [Dbits, Nat.sub_sub_self h1.le] at hor
    rw [Nat.sub_sub_self h1.le] at hthis
    rw [lowered, val_cons, ih, Dbits, hor, val_cons, hdiv, hdiv]
    generalize this.toNat * 2 ^ (32 - r) % R = low at *
    calc low + last.toNat / 2 ^ r + R * (this.toNat / 2 ^ r + 2 ^ (32 - r) * val ds)
        = last.toNat / 2 ^ r + (low + R * (this.toNat / 2 ^ r)) + R * (2 ^ (32 - r) * val ds) := by
          ring
      _ = _ := by rw [← hthis]; ring

/-- The digits that are still to be read are not written to. -/
theorem slice_getD_patch {q n k : Nat} (hsrc : slice (src.getD arr) q n = ds)
    (hk : k + xs.length ≤ q) : slice (src.getD (patch arr k xs)) q n = ds := by
  cases src with
  | some s => exact hsrc
  | none => exact (slice_patch_of_disjoint (.inr hk)).trans hsrc

theorem getElem?_of_slice_cons {q : Nat} (h : slice arr q (x :: ds).length = x :: ds) :
    arr[q]? = some x ∧ slice arr (q + 1) ds.length = ds := by
  have hsplit : slice arr q ([x] ++ ds).length = [x] ++ ds := h
  obtain ⟨hx, hds⟩ := slice_append_iff.mp hsplit
  exact ⟨slice_eq_iff.mp hx 0 (by simp), hds⟩

theorem shiftDown_eq (hsrc : slice (src.getD arr) (i + d + 1) ds.length = ds)
    (hlen : i + ds.length + 1 ≤ arr.length) :
    shiftDown src d r ds.length i last arr = some (patch arr i (lowered r last ds)) := by
  induction ds generalizing i last arr with
  | nil => exact store_eq _ (by simp at hlen; omega)
  | cons this ds ih =>
    obtain ⟨hthis, hrest⟩ := getElem?_of_slice_cons hsrc
    rw [length_cons] at hlen ⊢
    have hnext : slice (src.getD arr) (i + 1 + d + 1) ds.length = ds := by
      rw [show i + 1 + d + 1 = i + d + 1 + 1 by omega, hrest]
    rw [shiftDown, bind_eq_bind, hthis, bind_some, bind_eq_bind, store_eq _ (by omega), bind_some,
      ih (slice_getD_patch hnext (by simp; omega)) (by rw [length_patch]; omega)]
    exact congrArg some (patch_patch_append arr i [_] _)

theorem copyDown_eq (hsrc : slice (src.getD arr) (i + d) ds.length = ds)
    (hlen : i + ds.length ≤ arr.length) :
    copyDown src d ds.length i arr = some (patch arr i ds) := by
  induction ds generalizing i arr with
  | nil => rw [patch_nil]; rfl
  | cons x ds ih =>
    obtain ⟨hx, hrest⟩ := getElem?_of_slice_cons hsrc
    rw [length_cons] at hlen ⊢
    rw [add_right_comm] at hrest
    rw [copyDown, bind_eq_bind, hx, bind_some, bind_eq_bind, store_eq _ (by omega), bind_some,
      ih (slice_getD_patch hrest (by simp)) (by rw [length_patch]; omega)]
    exact congrArg some (patch_patch_append arr i [x] ds)

/-- The loop of `mpright`, whichever it is, puts the digits from `d` on shifted by the bits at the
start. -/
theorem rightLoop_spec (hsrc : slice (src.getD arr) d ds.length = ds) (hr : r < 32)
    (hpos : 0 < ds.length) (hlen : ds.length ≤ arr.length) :
    ∃ xs, (if r = 0 then copyDown src d ds.length 0 arr
        else ((src.getD arr)[d]?).bind fun last => shiftDown src d r (ds.length - 1) 0 last arr) =
        some (patch arr 0 xs) ∧
      xs.length = ds.length ∧ val xs = val ds / 2 ^ r := by
  by_cases h0 : r = 0
  · simp only [h0, if_true]
    exact ⟨ds, copyDown_eq (by rwa [zero_add]) (by omega), rfl, by simp⟩
  simp only [h0, if_false]
  obtain ⟨last, rest, rfl⟩ := exists_cons_of_length_pos hpos
  obtain ⟨hlast, hrest⟩ := getElem?_of_slice_cons hsrc
  refine ⟨lowered r last rest, ?_, length_lowered r last rest, ?_⟩
  · rw [hlast, bind_some, length_cons, Nat.add_sub_cancel,
      shiftDown_eq (by rwa [zero_add]) (by rw [length_cons] at hlen; omega)]
  · rw [val_lowered (Nat.pos_of_ne_zero h0) hr, val_cons]

theorem val_drop_eq_div (h : d ≤ ds.length) : val (ds.drop d) = val ds / R ^ d := by
  have hlow := val_lt (ds.take d)
  rw [length_take_of_le h] at hlow
  rw [val_take_drop ds d, length_take_of_le h, add_mul_div_left _ _ (Nat.pow_pos R_pos),
    div_eq_of_lt hlow, zero_add]

theorem rightDigits_spec (b : Mpint) (shift : Nat) (res : Option Mpint) :
    ∃ r, rightDigits b shift res = some r ∧ r.Trimmed ∧ r.mag = b.mag / 2 ^ shift ∧
      (r.sign = if shift / Dbits < b.top ∧ r.top = 0 then 1 else b.sign) ∧
      (shift / Dbits < b.top → r.Low) := by
  obtain ⟨hr, hshift⟩ := shift_bits shift
  have hpow := two_pow_shift shift
  simp only [rightDigits, bind_eq_bind]
  generalize hz : (match res with
    | some z => mpbits (z.withSign b.sign) ((Dbits * b.top : Nat) - shift)
    | none => b) = z
  have hsign : z.sign = b.sign := by
    rw [← hz]
    cases res with
    | none => rfl
    | some z => exact sign_mpbits _ _
  by_cases hd : shift / Dbits ≥ b.top
  · -- every bit is shifted out
    rw [if_pos hd, mpint_eq (Nat.zero_le _)]
    refine ⟨_, rfl, by simp [Mpint.Trimmed, Mpint.digits], ?_, ?_, fun h => by omega⟩
    · rw [div_eq_of_lt]
      · rfl
      · calc b.mag < R ^ b.top := b.mag_lt
          _ ≤ R ^ (shift / Dbits) := Nat.pow_le_pow_right R_pos hd
          _ ≤ 2 ^ shift := by
            rw [hpow]
            exact Nat.le_mul_of_pos_right _ (Nat.two_pow_pos _)
    · rw [if_neg (by omega), hsign]
  · rw [if_neg hd]
    generalize shift / Dbits = d at *
    generalize shift - d * Dbits = r at *
    have hlen : b.top - d ≤ z.p.length := by
      rw [← hz]
      cases res with
      | none => exact (sub_le _ _).trans b.top_le
      | some z =>
        refine le_trans (le_of_eq ?_) ((Nat.le_max_right _ _).trans (length_mpbits _ _).ge)
        rw [DIGITS_eq (by rw [Dbits]; omega), Dbits]
        omega
    have hdrop : slice b.p d (b.top - d) = b.digits.drop d := by
      rw [slice, Mpint.digits, drop_take]
    have hdlen : (b.digits.drop d).length = b.top - d := by simp
    have hsrc : slice ((res.map fun _ => b.p).getD z.p) d (b.digits.drop d).length =
        b.digits.drop d := by
      rw [hdlen, ← hdrop, ← hz]
      cases res <;> rfl
    obtain ⟨xs, hxs, hxslen, hxsval⟩ := rightLoop_spec hsrc hr (by omega) (by omega)
    rw [hdlen] at hxs hxslen
    rw [hxs, bind_some]
    have htake := take_patch_digits hxslen hlen
    have hlen' : b.top - d ≤ (patch z.p 0 xs).length := by rwa [length_patch]
    obtain ⟨hval, hlast⟩ := take_normTop hlen'
    rw [mpint_eq ((normTop_le _ _).trans hlen')]
    refine ⟨_, rfl, hlast, ?_, ?_, fun _ => low_of_normTop (by omega) hlen' rfl⟩
    · rw [Mpint.mag, Mpint.digits, hval, htake, hxsval, val_drop_eq_div (by simp; omega),
        Nat.div_div_eq_div_mul, ← hpow, Mpint.mag]
    · simp only [hsign, Nat.lt_of_not_le hd, true_and]

/-! ## The functions -/

/-- **A shift to the left** by a number of bits that is not negative. -/
theorem left_spec (x : Mpint) (shift : Nat) (res : Option Mpint) :
    ∃ r, left x shift res = some r ∧ r.sign = x.sign ∧ r.Trimmed ∧ r.mag = x.mag * 2 ^ shift ∧
      (res.getD x).p.length ≤ r.p.length := by
  unfold left
  split_ifs with hx hneg
  · refine ⟨_, mpint_eq (Nat.zero_le _), rfl, by simp [Mpint.Trimmed, Mpint.digits], ?_, le_refl _⟩
    rw [Mpint.mag_of_top_eq_zero hx, Mpint.mag_of_top_eq_zero rfl, zero_mul]
  · omega
  · exact leftDigits_spec x shift res

/-- **A shift to the right** by a number of bits that is not negative. The sign of zero is set if
some digit is left before the leading zeros are dropped. -/
theorem right_spec (x : Mpint) (shift : Nat) (res : Option Mpint) :
    ∃ r, right x shift res = some r ∧ r.Trimmed ∧ r.mag = x.mag / 2 ^ shift ∧
      (r.sign = if shift / Dbits < x.top ∧ r.top = 0 then 1 else x.sign) ∧
      (shift / Dbits < x.top → r.Low) := by
  unfold right
  split_ifs with hx hneg
  · refine ⟨_, mpint_eq (Nat.zero_le _), by simp [Mpint.Trimmed, Mpint.digits], ?_, ?_,
      fun h => absurd (hx ▸ h) (Nat.not_lt_zero _)⟩
    · rw [Mpint.mag_of_top_eq_zero hx, Mpint.mag_of_top_eq_zero rfl, Nat.zero_div]
    · rw [if_neg fun h => Nat.not_lt_zero _ (hx ▸ h.1)]
  · omega
  · exact rightDigits_spec x shift res

end Plan9Port.Mp
