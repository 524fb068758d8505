import Plan9Port.Diff.Reg

/-!
# Classes of equal lines

What `prune` finds, and what the classes are: the class of a line of the first file is 0 if no line
of the second one has its hash, and otherwise the place of the first of those lines in `member`,
where all of them follow in order.

## Main definitions

* `Reads b j ys`: the positive entries after `j` are `ys`
* `IsClass`: the class of a hash

## Main results

* `prune_spec`: the equal ends
* `classes_spec`: every line has its class
-/

namespace Plan9Port.Diff

open List Nat

open Function

/-! ## Equal ends -/

variable {n : Nat}

theorem pref_spec {f g : Nat → Int} {len len' : Nat} (fuel : Nat) (hlen : n ≤ len)
    (hlen' : n ≤ len') (heq : ∀ i, i < n → f (i + 1) = g (i + 1)) :
    pref f g len len' fuel n ≤ len ∧ pref f g len len' fuel n ≤ len' ∧
      ∀ i, i < pref f g len len' fuel n → f (i + 1) = g (i + 1) := by
  induction fuel generalizing n with
  | zero => exact ⟨hlen, hlen', heq⟩
  | succ fuel ih =>
    rw [pref]
    split
    · next h =>
      refine ih (by omega) (by omega) fun i hi => ?_
      by_cases hin : i = n
      · rw [hin]
        exact h.2.2
      · exact heq i (by omega)
    · exact ⟨hlen, hlen', heq⟩

theorem suff_spec {f g : Nat → Int} {len len' p : Nat} (fuel : Nat) (hlen : n ≤ len - p)
    (hlen' : n ≤ len' - p) (heq : ∀ i, i < n → f (len - i) = g (len' - i)) :
    suff f g len len' p fuel n ≤ len - p ∧ suff f g len len' p fuel n ≤ len' - p ∧
      ∀ i, i < suff f g len len' p fuel n → f (len - i) = g (len' - i) := by
  induction fuel generalizing n with
  | zero => exact ⟨hlen, hlen', heq⟩
  | succ fuel ih =>
    rw [suff]
    split
    · next h =>
      refine ih (by omega) (by omega) fun i hi => ?_
      by_cases hin : i = n
      · rw [hin]
        exact h.2.2
      · exact heq i (by omega)
    · exact ⟨hlen, hlen', heq⟩

/-- The beginning and the end are equal. -/
theorem prune_spec (f g : Nat → Int) (len len' : Nat) :
    ∃ p q, prune f g len len' = (p, q) ∧ p + q ≤ len ∧ p + q ≤ len' ∧
      (∀ i, i < p → f (i + 1) = g (i + 1)) ∧ ∀ i, i < q → f (len - i) = g (len' - i) := by
  obtain ⟨hlen, hlen', heq⟩ := pref_spec (f := f) (g := g) len (Nat.zero_le len)
    (Nat.zero_le len') fun i hi => absurd hi (Nat.not_lt_zero i)
  obtain ⟨hslen, hslen', hseq⟩ := suff_spec (f := f) (g := g) (p := pref f g len len' len 0) len
    (Nat.zero_le (len - _)) (Nat.zero_le (len' - _)) fun i hi => absurd hi (Nat.not_lt_zero i)
  exact ⟨_, _, rfl, by omega, by omega, heq, hseq⟩

/-! ## The loops of equiv -/

/-- `j` is the first one of the values from 1 to `m` that is `v`, or 0. -/
def IsFirst (w : Nat → Int) (m : Nat) (v : Int) (j : Nat) : Prop :=
  (j = 0 ∧ ∀ t, 1 ≤ t → t ≤ m → w t ≠ v) ∨ 1 ≤ j ∧ j ≤ m ∧ w j = v ∧ ∀ t, 1 ≤ t → t < j → w t ≠ v

/-- From `i` on, the values of `a` are replaced by their first places in `b`. -/
structure Placed (n m : Nat) (b : Nat → Line) (i : Nat) (a a' : Nat → Line) : Prop where
  before : ∀ s, s < i → a' s = a s
  after : ∀ s, i ≤ s → s ≤ n → (a' s).serial = (a s).serial ∧
    ∃ t : Nat, (a' s).value = t ∧ IsFirst (fun t => (b t).value) m (a s).value t

variable {i t : Nat} {a : Nat → Line} {m : Nat} {b : Nat → Line}

theorem Placed.step {a' : Nat → Line}
    (h : Placed n m b (i + 1) (update a i { a i with value := t }) a')
    (hfirst : IsFirst (fun t => (b t).value) m (a i).value t) : Placed n m b i a a' := by
  refine ⟨fun s hs => ?_, fun s hs hsn => ?_⟩
  · rw [h.before s (by omega), update_of_ne (by omega)]
  by_cases hsi : s = i
  · subst hsi
    rw [h.before s (by omega), update_self]
    exact ⟨rfl, t, rfl, hfirst⟩
  · have := h.after s (by omega) hsn
    rwa [update_of_ne hsi] at this

/-- The lines of `a` from `i` on are sorted, and those of `b` before `j` are smaller. -/
structure Behind (n m : Nat) (b : Nat → Line) (i j : Nat) (a : Nat → Line) : Prop where
  sorted : ∀ s t, i ≤ s → s ≤ t → t ≤ n → (a s).value ≤ (a t).value
  smaller : ∀ t s, 1 ≤ t → t < j → t ≤ m → i ≤ s → s ≤ n → (b t).value < (a s).value

variable {j : Nat}

theorem Behind.next (h : Behind n m b i j a) (p : Line) :
    Behind n m b (i + 1) j (update a i p) := by
  refine ⟨fun s t hs hst ht => ?_, fun t s ht htj htm hs hsn => ?_⟩
  · rw [update_of_ne (by omega), update_of_ne (by omega)]
    exact h.sorted s t (by omega) hst ht
  · rw [update_of_ne (by omega)]
    exact h.smaller t s ht htj htm (by omega) hsn

theorem equiv_spec (hb : ∀ s t, 1 ≤ s → s ≤ t → t ≤ m → (b s).value ≤ (b t).value) (fuel : Nat)
    (hfuel : n + 1 - i + (m + 1 - j) ≤ fuel) (hj : 1 ≤ j) (h : Behind n m b i j a) :
    Placed n m b i a (equiv n m b fuel i j a) := by
  induction fuel generalizing i j a with
  | zero => exact ⟨fun _ _ => rfl, fun s hs hsn => by omega⟩
  | succ fuel ih =>
    rw [equiv]
    split
    · next hi =>
      split
      · next hjm =>
        split
        · next hlt =>
          -- all those of `b` from `j` on are larger
          refine (ih (by omega) hj (h.next _)).step (t := 0) (.inl ⟨rfl, fun t ht htm => ?_⟩)
          by_cases htj : t < j
          · exact (h.smaller t i ht htj htm le_rfl hi).ne
          · exact (hlt.trans_le (hb j t hj (by omega) htm)).ne'
        · split
          · next heq =>
            refine (ih (by omega) hj (h.next _)).step (t := j)
              (.inr ⟨hj, hjm, heq.symm, fun t ht htj => ?_⟩)
            exact (h.smaller t i ht htj (by omega) le_rfl hi).ne
          · next hnlt hne =>
            refine ih (by omega) (by omega) ⟨h.sorted, fun t s ht htj htm hs hsn => ?_⟩
            by_cases htj' : t = j
            · subst htj'
              have hle := h.sorted i s le_rfl hs hsn
              omega
            · exact h.smaller t s ht (by omega) htm hs hsn
      · next hjm =>
        refine (ih (by omega) hj (h.next _)).step (t := 0) (.inl ⟨rfl, fun t ht htm => ?_⟩)
        exact (h.smaller t i ht (by omega) htm le_rfl hi).ne
    · next hi => exact ⟨fun _ _ => rfl, fun s hs hsn => by omega⟩

/-- The lines from `j` on that are equal are written without a flag. -/
theorem same_spec (hend : (b (m + 1)).value ≠ (b m).value) (fuel : Nat) (hj : j ≤ m)
    (hfuel : m ≤ j + fuel) (c : Nat → Int) :
    ∃ j' c', same b fuel j c = (j', c') ∧ j ≤ j' ∧ j' ≤ m ∧ (b (j' + 1)).value ≠ (b j').value ∧
      (∀ t, j < t → t ≤ j' → (b t).value = (b (t - 1)).value ∧ c' t = (b t).serial) ∧
      ∀ t, t ≤ j ∨ j' < t → c' t = c t := by
  induction fuel generalizing j c with
  | zero =>
    obtain rfl : j = m := by omega
    exact ⟨j, c, rfl, Nat.le_refl j, hj, hend, fun t ht ht' => by omega, fun _ _ => rfl⟩
  | succ fuel ih =>
    rw [same]
    split
    · next heq =>
      have hjm : j ≠ m := by
        rintro rfl
        exact hend heq
      obtain ⟨j', c', hsame, hle, hm, hne, hin, hout⟩ :=
        ih (j := j + 1) (by omega) (by omega) (update c (j + 1) (b (j + 1)).serial)
      refine ⟨j', c', hsame, by omega, hm, hne, fun t ht ht' => ?_, fun t ht => ?_⟩
      · by_cases htj : t = j + 1
        · subst htj
          rw [hout _ (.inl le_rfl), update_self]
          exact ⟨heq, rfl⟩
        · exact hin t (by omega) ht'
      · rw [hout t (by omega), update_of_ne (by omega)]
    · next hne =>
      exact ⟨j, c, rfl, Nat.le_refl j, hj, hne, fun t ht ht' => by omega, fun _ _ => rfl⟩

/-- The entry for a line: it is flagged if it is the first one of its class. -/
def entry (b : Nat → Line) (t : Nat) : Int :=
  if t = 1 ∨ (b t).value ≠ (b (t - 1)).value then -(b t).serial else (b t).serial

theorem member_spec (hend : 0 < m → (b (m + 1)).value ≠ (b m).value) (fuel : Nat)
    (hj : j = 1 ∨ (b j).value ≠ (b (j - 1)).value) (hpos : 1 ≤ j) (hjm : j ≤ m + 1)
    (hfuel : m + 2 ≤ j + fuel) (c : Nat → Int) :
    (∀ t, t < j → member m b fuel j c t = c t) ∧
      (∀ t, j ≤ t → t ≤ m → member m b fuel j c t = entry b t) ∧
      member m b fuel j c (m + 1) = -1 := by
  induction fuel generalizing j c with
  | zero => omega
  | succ fuel ih =>
    rw [member]
    split
    · next hle =>
      obtain ⟨j', c', hsame, hjj', hm, hne, hin, hout⟩ :=
        same_spec (hend (by omega)) m hle (by omega) (update c j (-(b j).serial))
      rw [hsame]
      dsimp only
      obtain ⟨hbefore, hafter, hlast⟩ := ih (.inr hne) (by omega) (by omega) (by omega) c'
      refine ⟨fun t ht => ?_, fun t ht htm => ?_, hlast⟩
      · rw [hbefore t (by omega), hout t (by omega), update_of_ne (by omega)]
      by_cases htj' : j' < t
      · exact hafter t (by omega) htm
      rw [hbefore t (by omega)]
      by_cases htj : t = j
      · subst htj
        rw [hout t (.inl le_rfl), update_self, entry, if_pos hj]
      · obtain ⟨heq, hc'⟩ := hin t (by omega) (by omega)
        rw [hc', entry, if_neg (not_or.mpr ⟨by omega, not_not.mpr heq⟩)]
    · next hgt =>
      obtain rfl : j = m + 1 := by omega
      refine ⟨fun t ht => update_of_ne (by omega) _ _, fun t ht htm => by omega, update_self _ _ _⟩

theorem unsort_spec {f : Nat → Line} (count : Nat) (a : Nat → Int)
    (hinj : ∀ s t, i ≤ s → s < i + count → i ≤ t → t < i + count → (f s).serial = (f t).serial →
      s = t) {s : Nat} (hs : i ≤ s) (hs' : s < i + count) :
    unsort f count i a (f s).serial = (f s).value := by
  have hkept : ∀ count i (a : Nat → Int) x, (∀ t, i ≤ t → t < i + count → (f t).serial ≠ x) →
      unsort f count i a x = a x := by
    intro count
    induction count with
    | zero =>
      intro i a x _
      rfl
    | succ count ih =>
      intro i a x hx
      rw [unsort, ih _ _ _ fun t ht ht' => hx t (by omega) (by omega),
        update_of_ne (hx i le_rfl (by omega)).symm]
  induction count generalizing i a with
  | zero => omega
  | succ count ih =>
    rw [unsort]
    by_cases hsi : s = i
    · subst hsi
      rw [hkept, update_self]
      intro t ht ht' heq
      have := hinj t s (by omega) (by omega) (by omega) (by omega) heq
      omega
    · exact ih _ (fun s t hs hs' ht ht' => hinj s t (by omega) (by omega) (by omega) (by omega))
        (by omega) (by omega)

/-! ## The classes -/

/-- The entries after `j`, up to one that is flagged. -/
def Reads (b : Nat → Int) : Nat → List Nat → Prop
  | j, [] => b (j + 1) ≤ 0
  | j, y :: ys => b (j + 1) = y ∧ 0 < y ∧ Reads b (j + 1) ys

/-- The class of the hash `v`: the places from 1 to `m` with this hash, in order. -/
def IsClass (w : Nat → Int) (m : Nat) (b : Nat → Int) (v : Int) (j : Int) : Prop :=
  (j = 0 ∧ ∀ y, 1 ≤ y → y ≤ m → w y ≠ v) ∨
    ∃ t : Nat, 0 < t ∧ j = t ∧ ∃ (y : Nat) (ys : List Nat), b t = -(y : Int) ∧ Reads b t ys ∧
      (y :: ys).Pairwise (· < ·) ∧ ys.length ≤ m ∧
      ∀ y', y' ∈ y :: ys ↔ 1 ≤ y' ∧ y' ≤ m ∧ w y' = v

variable {c w : Nat → Int} {τ : Equiv.Perm Nat}

/-- What `member` has for the lines that follow `t` in their class, which ends at `e`. -/
theorem reads_of_entry {e : Nat} (hc : ∀ t, 1 ≤ t → t ≤ m → c t = entry b t)
    (hlast : c (m + 1) = -1) (hem : e ≤ m) (hpos : ∀ t, 1 ≤ t → t ≤ m → 0 < (b t).serial)
    (hend : e < m → (b (e + 1)).value ≠ (b e).value) (count : Nat) (ht : 1 ≤ t)
    (hte : t + count = e) (hsame : ∀ s, t < s → s ≤ e → (b s).value = (b (s - 1)).value) :
    Reads c t ((range' (t + 1) count).map fun s => (b s).serial) := by
  induction count generalizing t with
  | zero =>
    obtain rfl : t = e := by omega
    change c (t + 1) ≤ 0
    by_cases htm : t = m
    · rw [htm, hlast]
      decide
    · rw [hc _ (by omega) (by omega), entry, if_pos (.inr (hend (by omega)))]
      omega
  | succ count ih =>
    rw [range'_succ, map_cons]
    refine ⟨?_, hpos _ (by omega) (by omega), ih (by omega) (by omega)
      fun s hs hse => hsame s (by omega) hse⟩
    rw [hc _ (by omega) (by omega), entry, if_neg]
    exact not_or.mpr ⟨by omega, not_not.mpr (hsame _ (by omega) (by omega))⟩

theorem value_le_of_sorted
    (hsorted : ∀ s t, 1 ≤ s → s < t → t ≤ m → w (τ s) < w (τ t) ∨ w (τ s) = w (τ t) ∧ τ s < τ t)
    (s t : Nat) (hs : 1 ≤ s) (hst : s ≤ t) (ht : t ≤ m) : w (τ s) ≤ w (τ t) := by
  rcases Nat.eq_or_lt_of_le hst with rfl | hlt
  · exact le_rfl
  · rcases hsorted s t hs hlt ht with h | h
    · exact h.le
    · exact h.1.le

/-- The first place of a hash among the sorted lines is its class. -/
theorem IsFirst.isClass (hτ : ∀ t, 1 ≤ t ∧ t ≤ m ↔ 1 ≤ τ t ∧ τ t ≤ m)
    (hsorted : ∀ s t, 1 ≤ s → s < t → t ≤ m → w (τ s) < w (τ t) ∨ w (τ s) = w (τ t) ∧ τ s < τ t)
    (hc : ∀ t, 1 ≤ t → t ≤ m → c t = entry (fun i => ⟨τ i, w (τ i)⟩) t) (hlast : c (m + 1) = -1)
    {v : Int} (h : IsFirst (fun t => w (τ t)) m v j) : IsClass w m c v j := by
  have hle := value_le_of_sorted hsorted
  rcases h with ⟨rfl, hno⟩ | ⟨hj, hjm, hv, hfirst⟩
  · refine .inl ⟨rfl, fun y hy hym => ?_⟩
    have hy' := (hτ (τ.symm y)).mpr (by simpa using ⟨hy, hym⟩)
    simpa using hno (τ.symm y) hy'.1 hy'.2
  -- the class ends at the last place of the hash
  obtain ⟨e, he⟩ : ∃ e, e = findGreatest (fun t => w (τ t) = v) m := ⟨_, rfl⟩
  have hje : j ≤ e := by
    rw [he]
    exact le_findGreatest hjm hv
  have hem : e ≤ m := by
    rw [he]
    exact findGreatest_le m
  have hev : w (τ e) = v := by
    rw [he]
    exact findGreatest_spec (P := fun t => w (τ t) = v) hjm hv
  have hgt : ∀ t, e < t → t ≤ m → w (τ t) ≠ v := by
    intro t ht htm
    rw [he] at ht
    exact findGreatest_is_greatest ht htm
  have hin : ∀ t, j ≤ t → t ≤ e → w (τ t) = v := by
    intro t ht hte
    refine le_antisymm ?_ ?_
    · rw [← hev]
      exact hle t e (by omega) hte hem
    · rw [← hv]
      exact hle j t hj ht (by omega)
  have hmap : (τ j :: (range' (j + 1) (e - j)).map fun s => τ s) =
      (range' j (e - j + 1)).map fun s => τ s := by
    rw [range'_succ, map_cons]
  refine .inr ⟨j, hj, rfl, τ j, (range' (j + 1) (e - j)).map fun s => τ s, ?_, ?_, ?_, ?_,
    fun y => ?_⟩
  · rw [hc j hj hjm, entry, if_pos]
    by_cases hj1 : j = 1
    · exact .inl hj1
    · refine .inr fun heq => hfirst (j - 1) (by omega) (by omega) ?_
      exact heq.symm.trans hv
  · refine reads_of_entry hc hlast hem (fun t ht htm => ((hτ t).mp ⟨ht, htm⟩).1) (fun hlt => ?_)
      _ hj (by omega) fun s hs hse => ?_
    · change w (τ (e + 1)) ≠ w (τ e)
      rw [hev]
      exact hgt _ (by omega) (by omega)
    · change w (τ s) = w (τ (s - 1))
      rw [hin s (by omega) hse, hin (s - 1) (by omega) (by omega)]
  · rw [hmap, pairwise_map]
    refine Pairwise.imp_of_mem ?_ pairwise_lt_range'
    intro s t hs ht hst
    rw [mem_range'_1] at hs ht
    rcases hsorted s t (by omega) hst (by omega) with hlt | ⟨-, hlt⟩
    · rw [hin s (by omega) (by omega), hin t (by omega) (by omega)] at hlt
      exact absurd hlt (lt_irrefl v)
    · exact hlt
  · rw [length_map, length_range']
    omega
  · rw [hmap, mem_map]
    constructor
    · rintro ⟨t, ht, rfl⟩
      rw [mem_range'_1] at ht
      have := (hτ t).mp ⟨by omega, by omega⟩
      exact ⟨this.1, this.2, hin t (by omega) (by omega)⟩
    · rintro ⟨hy, hym, hyv⟩
      have hy' := (hτ (τ.symm y)).mpr (by simpa using ⟨hy, hym⟩)
      have hyv' : w (τ (τ.symm y)) = v := by simpa using hyv
      refine ⟨τ.symm y, ?_, by simp⟩
      rw [mem_range'_1]
      have hge : j ≤ τ.symm y := by
        by_contra hlt
        exact hfirst _ hy'.1 (by omega) hyv'
      have hle' : τ.symm y ≤ e := by
        by_contra hlt
        exact hgt _ (by omega) hy'.2 hyv'
      omega

/-- Every line of the first file has its class. -/
theorem classes_spec (v w : Nat → Int) (n m : Nat) (hw : ∀ y, 1 ≤ y → y ≤ m → w y ≠ 0)
    {cls : Nat → Int} (hb : b = sort (fun i => ⟨i, w i⟩) m)
    (ha : a = equiv n m b (n + m) 1 1 (sort (fun i => ⟨i, v i⟩) n))
    (hc : c = member m (update b (m + 1) { b (m + 1) with value := 0 }) (m + 1) 1 fun _ => 0)
    (hcls : cls = unsort a n 1 fun _ => 0) {x : Nat} (hx : 1 ≤ x) (hxn : x ≤ n) :
    IsClass w m c (v x) (cls x) := by
  obtain ⟨σ, hσ, hsortf, hsortedf⟩ := sort_spec v n
  obtain ⟨τ, hτ, hsortg, hsortedg⟩ := sort_spec w m
  rw [hsortg] at hb
  rw [hsortf] at ha
  have hplaced : Placed n m b 1 (fun i => ⟨σ i, v (σ i)⟩) a := by
    rw [ha]
    refine equiv_spec ?_ _ (by omega) le_rfl ⟨value_le_of_sorted hsortedf,
      fun t s ht htj => by omega⟩
    rw [hb]
    exact value_le_of_sorted hsortedg
  have hend : 0 < m → (update b (m + 1) { b (m + 1) with value := 0 } (m + 1)).value ≠
      (update b (m + 1) { b (m + 1) with value := 0 } m).value := by
    intro hm
    rw [update_self, update_of_ne (by omega), hb]
    have := (hτ m).mp ⟨hm, Nat.le_refl m⟩
    exact (hw _ this.1 this.2).symm
  obtain ⟨-, hentries, hlast⟩ := member_spec hend (m + 1) (.inl rfl) le_rfl (by omega)
    (by omega) fun _ => 0
  rw [← hc] at hentries hlast
  -- the place of `x` among the sorted lines
  obtain ⟨i, rfl⟩ := σ.surjective x
  have hi := (hσ i).mpr ⟨hx, hxn⟩
  obtain ⟨hserial, t, ht, hfirst⟩ := hplaced.after i hi.1 hi.2
  have hclass : cls (σ i) = t := by
    have hunsort := unsort_spec (f := a) n (fun _ => 0) (fun s t hs hs' ht ht' heq => ?_) hi.1
      (by omega : i < 1 + n)
    · rw [hserial, ← hcls] at hunsort
      rw [hunsort, ht]
    · rw [(hplaced.after s hs (by omega)).1, (hplaced.after t ht (by omega)).1] at heq
      exact σ.injective heq
  rw [hclass]
  subst hb
  refine hfirst.isClass hτ hsortedg (fun t ht htm => ?_) hlast
  rw [hentries t ht htm, entry, entry, update_of_ne (by omega), update_of_ne (by omega)]

end Plan9Port.Diff
