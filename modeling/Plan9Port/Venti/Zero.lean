import Plan9Port.Venti.Bloom

/-!
# Zero truncation

A block is stored on Venti without the zeros at its end (`zero.c`, `libventi`). What a zero is
depends on the type of the block: a byte, or for a block of pointers the score of the empty block.
The bytes after the last whole score of such a block do not count.

Lengths are natural numbers: they only grow in `vtzeroextend`, so that nothing wraps.

## Main results

* `vtzerotruncate_canonical`: truncation can be undone, and it depends only on the extended block
-/

namespace Plan9Port.Venti

open Memory List

/-- The score of a zero length block. -/
def vtzeroscore : List UInt8 :=
  [0xda, 0x39, 0xa3, 0xee, 0x5e, 0x6b, 0x4b, 0x0d, 0x32, 0x55,
    0xbf, 0xef, 0x95, 0x60, 0x18, 0x90, 0xaf, 0xd8, 0x07, 0x09]

/-- The type of a root. -/
def VtRootType : Int32 := 16

/-- Its size. -/
def VtRootSize : Nat := 300

/-- The loop of `vtzeroextend`, which stores scores from `p` up to `ep`. -/
def extendLoop (ep : Nat) : Nat → Nat → List UInt8 → Nat × List UInt8
  | 0, p, buf => (p, buf)
  | fuel + 1, p, buf =>
    if p < ep then extendLoop ep fuel (p + VtScoreSize) (patch buf p vtzeroscore) else (p, buf)

/-- Zeros are appended. -/
def vtzeroextend (type : Int32) (buf : List UInt8) (n nn : Nat) : List UInt8 :=
  if type &&& 7 = 0 then patch buf n (List.replicate (nn - n) 0)
  else
    let (p, buf) :=
      extendLoop (nn / VtScoreSize * VtScoreSize) nn (n / VtScoreSize * VtScoreSize) buf
    patch buf p (List.replicate (nn - p) 0)

/-- The loops of `vtzerotruncate`, over bytes and over scores: what is left of the first `k` of them
without the zeros at the end. -/
def trim (zero : Nat → Bool) : Nat → Nat
  | 0 => 0
  | k + 1 => if zero k then trim zero k else k + 1

/-- The length without zeros. -/
def vtzerotruncate (type : Int32) (buf : List UInt8) (n : Nat) : Nat :=
  if type = VtRootType then if n < VtRootSize then n else VtRootSize
  else if type &&& 7 = 0 then trim (fun p => buf[p]? = some 0) n
  else trim (fun p => slice buf (p * VtScoreSize) VtScoreSize = vtzeroscore) (n / VtScoreSize) *
    VtScoreSize

/-- The bytes that truncation drops unseen are zero: those after the last whole score of a pointer
block, and those after the contents of a root. -/
def Padded (type : Int32) (buf : List UInt8) : Prop :=
  ∀ i < buf.length, type &&& 7 ≠ 0 ∧ buf.length / VtScoreSize * VtScoreSize ≤ i ∨
    type = VtRootType ∧ VtRootSize ≤ i → buf[i]? = some 0

/-! ## Trimming -/

variable {zero zero' : Nat → Bool} {k k' i : Nat}

theorem trim_le (zero : Nat → Bool) (k : Nat) : trim zero k ≤ k := by
  induction k with
  | zero => exact le_rfl
  | succ k ih =>
    rw [trim]
    split_ifs <;> omega

theorem zero_of_trim_le (h : trim zero k ≤ i) (hi : i < k) : zero i = true := by
  induction k with
  | zero => omega
  | succ k ih =>
    rw [trim] at h
    split_ifs at h with hz
    · rcases Nat.lt_succ_iff_lt_or_eq.mp hi with hlt | rfl
      · exact ih h hlt
      · exact hz
    · omega

/-- Zeros at the end do not matter. -/
theorem trim_eq (hk : k' ≤ k) (hsame : ∀ i < k', zero i = zero' i)
    (hzero : ∀ i, k' ≤ i → i < k → zero i = true) : trim zero k = trim zero' k' := by
  induction k, hk using Nat.le_induction with
  | base =>
    induction k' with
    | zero => rfl
    | succ k' ih =>
      rw [trim, trim, hsame k' k'.lt_succ_self, ih (fun i hi => hsame i (by omega)) (by omega)]
  | succ k hk ih =>
    rw [trim, if_pos (hzero k hk k.lt_succ_self)]
    exact ih fun i hi hlt => hzero i hi (by omega)

/-! ## Extended blocks -/

variable {type : Int32} {m m' : List UInt8} {n n' : Nat}

theorem length_extendLoop (ep fuel p : Nat) (m : List UInt8) :
    (extendLoop ep fuel p m).2.length = m.length := by
  induction fuel generalizing p m with
  | zero => rfl
  | succ fuel ih =>
    rw [extendLoop]
    split_ifs
    · rw [ih, length_patch]
    · rfl

theorem length_vtzeroextend (type : Int32) (m : List UInt8) (n n' : Nat) :
    (vtzeroextend type m n n').length = m.length := by
  rw [vtzeroextend]
  split_ifs
  · exact length_patch ..
  · exact (length_patch ..).trans (length_extendLoop ..)

theorem extendLoop_spec {k q fuel : Nat} (hk : k * VtScoreSize ≤ m.length) (hq : q ≤ k)
    (hfuel : k ≤ q + fuel) :
    ∃ m', extendLoop (k * VtScoreSize) fuel (q * VtScoreSize) m = (k * VtScoreSize, m') ∧
      ∀ i, m'[i]? = if q * VtScoreSize ≤ i ∧ i < k * VtScoreSize
        then vtzeroscore[i % VtScoreSize]? else m[i]? := by
  induction fuel generalizing q m with
  | zero =>
    obtain rfl : q = k := by omega
    exact ⟨m, rfl, fun i => (if_neg (by omega)).symm⟩
  | succ fuel ih =>
    rw [extendLoop]
    rw [VtScoreSize] at hk ⊢
    rcases hq.eq_or_lt with rfl | hlt
    · exact ⟨m, if_neg (Nat.lt_irrefl _), fun i => (if_neg (by omega)).symm⟩
    obtain ⟨m', hrun, hget⟩ := ih (m := patch m (q * 20) vtzeroscore) (q := q + 1)
      (by rwa [length_patch]) hlt (by omega)
    rw [if_pos (by omega), show q * 20 + 20 = (q + 1) * 20 by ring]
    refine ⟨m', hrun, fun i => ?_⟩
    rw [hget, getElem?_patch, show vtzeroscore.length = 20 from rfl]
    rw [VtScoreSize]
    split_ifs <;> first | rfl | omega | skip
    congr 1
    omega

theorem vtzerotruncate_le (type : Int32) (m : List UInt8) (n : Nat) :
    vtzerotruncate type m n ≤ if type &&& 7 = 0 then n else n / VtScoreSize * VtScoreSize := by
  rw [vtzerotruncate]
  by_cases hr : type = VtRootType
  · rw [if_pos hr, if_pos (show type &&& 7 = 0 by rw [hr]; rfl)]
    split_ifs <;> omega
  · rw [if_neg hr]
    split_ifs
    · exact trim_le _ n
    · exact Nat.mul_le_mul_right _ (trim_le _ _)

section

variable (hn : n ≤ n') (hlen : m.length = n') (i : Nat)
include hn hlen

/-- What a block holds after it was extended: zeros, ... -/
theorem getElem?_extend_bytes (ht : type &&& 7 = 0) :
    (vtzeroextend type m n n')[i]? = if n ≤ i ∧ i < n' then some 0 else m[i]? := by
  rw [vtzeroextend, if_pos ht, getElem?_patch, length_replicate, getElem?_replicate]
  split_ifs <;> first | rfl | omega

/-- ... or the scores of empty blocks, and zeros behind the last whole one. -/
theorem getElem?_extend_scores (ht : type &&& 7 ≠ 0) :
    (vtzeroextend type m n n')[i]? =
      if i < n / VtScoreSize * VtScoreSize then m[i]?
      else if i < n' / VtScoreSize * VtScoreSize then vtzeroscore[i % VtScoreSize]?
      else if i < n' then some 0 else m[i]? := by
  have hle : n / VtScoreSize ≤ n' / VtScoreSize := Nat.div_le_div_right hn
  have hfits := Nat.div_mul_le_self n' VtScoreSize
  obtain ⟨m', hrun, hget⟩ := extendLoop_spec (hfits.trans hlen.ge) hle
    ((Nat.div_le_self n' VtScoreSize).trans (Nat.le_add_left n' _))
  have hlen' := length_extendLoop (n' / VtScoreSize * VtScoreSize) n'
    (n / VtScoreSize * VtScoreSize) m
  rw [hrun] at hlen'
  rw [vtzeroextend, if_neg ht, hrun]
  dsimp only at hlen' ⊢
  rw [getElem?_patch, length_replicate, getElem?_replicate, hget]
  have := Nat.mul_le_mul_right VtScoreSize hle
  split_ifs <;> first | rfl | omega

/-- Truncating an extended block is truncating the block. -/
theorem vtzerotruncate_extend (hr : type ≠ VtRootType) :
    vtzerotruncate type (vtzeroextend type m n n') n' = vtzerotruncate type m n := by
  rw [vtzerotruncate, vtzerotruncate, if_neg hr, if_neg hr]
  split_ifs with ht
  · refine trim_eq hn (fun i hi => ?_) fun i hi hlt => ?_
    · rw [getElem?_extend_bytes hn hlen i ht, if_neg (by omega)]
    · rw [getElem?_extend_bytes hn hlen i ht, if_pos ⟨hi, hlt⟩]
      rfl
  · congr 1
    refine trim_eq (Nat.div_le_div_right hn) (fun i hi => ?_) fun i hi hlt => ?_
    · have hbelow := Nat.mul_le_mul_right VtScoreSize hi
      congr 2
      refine slice_congr fun j hj => ?_
      rw [getElem?_extend_scores hn hlen _ ht, if_pos]
      rw [Nat.succ_mul] at hbelow
      omega
    · have hfrom := Nat.mul_le_mul_right VtScoreSize hi
      have hbelow := Nat.mul_le_mul_right VtScoreSize hlt
      rw [Nat.succ_mul] at hbelow
      refine decide_eq_true ((@slice_eq_iff _ _ _ vtzeroscore).mpr fun j hj => ?_)
      replace hj : j < VtScoreSize := hj
      rw [getElem?_extend_scores hn hlen _ ht, if_neg (by omega), if_pos (by omega),
        Nat.mul_add_mod_of_lt hj]

theorem take_vtzeroextend : (vtzeroextend type m n n').take (vtzerotruncate type m n) =
    m.take (vtzerotruncate type m n) := by
  have hle := vtzerotruncate_le type m n
  refine ext_getElem? fun i => ?_
  rw [getElem?_take, getElem?_take]
  split_ifs at hle ⊢ with hi ht
  · rw [getElem?_extend_bytes hn hlen i ht, if_neg (by omega)]
  · rw [getElem?_extend_scores hn hlen i ht, if_pos (by omega)]
  all_goals rfl

end

/-- A block without its zeros is extended to the block. -/
theorem vtzeroextend_truncate {buf : List UInt8} (hlen : m.length = buf.length)
    (hpad : Padded type buf) {k : Nat} (hk : vtzerotruncate type buf buf.length = k)
    (hsame : m.take k = buf.take k) : vtzeroextend type m k buf.length = buf := by
  have hle := vtzerotruncate_le type buf buf.length
  rw [hk] at hle
  have hbelow : ∀ i < k, m[i]? = buf[i]? := by
    intro i hi
    have hget := congrArg (·[i]?) hsame
    simpa [getElem?_take, hi] using hget
  have hout : ∀ i, buf.length ≤ i → m[i]? = buf[i]? := by
    intro i hi
    rw [getElem?_eq_none hi, getElem?_eq_none (hlen.trans_le hi)]
  refine ext_getElem? fun i => ?_
  rw [vtzerotruncate] at hk
  by_cases ht : type &&& 7 = 0
  · rw [if_pos ht] at hle hk
    rw [getElem?_extend_bytes hle hlen i ht]
    split_ifs with hi
    · by_cases hr : type = VtRootType
      · rw [if_pos hr] at hk
        refine (hpad i hi.2 (.inr ⟨hr, ?_⟩)).symm
        split_ifs at hk <;> omega
      · rw [if_neg hr] at hk
        have hzero := zero_of_trim_le (hk.trans_le hi.1) hi.2
        exact (of_decide_eq_true hzero).symm
    · rcases Nat.lt_or_ge i k with hlt | hge
      · exact hbelow i hlt
      · exact hout i (by omega)
  · have hr : type ≠ VtRootType := fun hr => ht (by rw [hr]; rfl)
    rw [if_neg hr, if_neg ht] at hk
    rw [if_neg ht] at hle
    have hfits := Nat.div_mul_le_self buf.length VtScoreSize
    rw [getElem?_extend_scores (hle.trans hfits) hlen i ht, ← hk,
      Nat.mul_div_cancel _ (by decide), hk]
    split_ifs with h1 h2 h3
    · exact hbelow i h1
    · -- the score that the byte belongs to was trimmed
      rw [← hk, Nat.not_lt, ← Nat.le_div_iff_mul_le (by decide)] at h1
      rw [← Nat.div_lt_iff_lt_mul (by decide)] at h2
      have hscore := of_decide_eq_true (zero_of_trim_le h1 h2)
      rw [← hscore, getElem?_slice, if_pos (Nat.mod_lt _ (by decide)), Nat.div_add_mod']
    · exact (hpad i h3 (.inl ⟨ht, by omega⟩)).symm
    · exact hout i (by omega)

/-- **Zero truncation is canonical and reversible.** The first bytes of a block, as many as
`vtzerotruncate` says, extend to the block again, whatever else was in the memory; and blocks that
extend to the same bytes are the same when they are truncated. -/
theorem vtzerotruncate_canonical (type : Int32) :
    (∀ m buf : List UInt8, m.length = buf.length → Padded type buf →
      ∀ k, vtzerotruncate type buf buf.length = k → m.take k = buf.take k →
      vtzeroextend type m k buf.length = buf) ∧
    (type ≠ VtRootType → ∀ (m₁ m₂ : List UInt8) (n₁ n₂ n : Nat), m₁.length = n → m₂.length = n →
      n₁ ≤ n → n₂ ≤ n → vtzeroextend type m₁ n₁ n = vtzeroextend type m₂ n₂ n →
      ∃ k, vtzerotruncate type m₁ n₁ = k ∧ vtzerotruncate type m₂ n₂ = k ∧
        m₁.take k = m₂.take k) := by
  refine ⟨fun m buf hlen hpad k => vtzeroextend_truncate hlen hpad, ?_⟩
  intro hr m₁ m₂ n₁ n₂ n h1 h2 hn1 hn2 heq
  have hcut : vtzerotruncate type m₂ n₂ = vtzerotruncate type m₁ n₁ := by
    rw [← vtzerotruncate_extend hn1 h1 hr, heq, vtzerotruncate_extend hn2 h2 hr]
  refine ⟨_, rfl, hcut, ?_⟩
  rw [← take_vtzeroextend hn1 h1, heq, ← hcut, take_vtzeroextend hn2 h2]

theorem vtzerotruncate_canonical_three : vtzeroextend 0 [7, 9, 9] 1 3 = [7, 0, 0] ∧
    ∃ k, vtzerotruncate 0 [7, 9, 9] 1 = k ∧ vtzerotruncate 0 [7, 0, 8] 2 = k ∧
      [7, 9, 9].take k = [7, 0, (8 : UInt8)].take k :=
  ⟨(vtzerotruncate_canonical 0).1 [7, 9, 9] [7, 0, 0] rfl (by unfold Padded; decide) 1
    (by decide) rfl,
    (vtzerotruncate_canonical 0).2 (by decide) [7, 9, 9] [7, 0, 8] 1 2 3 rfl rfl (by decide)
      (by decide) (by decide)⟩

end Plan9Port.Venti
