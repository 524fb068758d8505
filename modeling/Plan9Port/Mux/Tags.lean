import Plan9Port.Mux.Rpc

/-!
# Tags

Each request has a tag of its own while it waits, the place of its `Muxrpc` in the table `wait`.
`gettag` finds one that is free, or makes the table larger, or sleeps.
-/

namespace Plan9Port.Mux

open Sys Place Option List

/-! ## Where threads are -/

/-- The thread has a tag. -/
def Place.tagged : Place → Bool
  | .tagging | .tagAsleep => false
  | _ => true

/-- The packet that the thread holds. -/
def Place.hand : Place → Option Packet
  | .holding _ p => p
  | _ => none

/-- Only the muxer is here. -/
def Place.muxing : Place → Bool
  | .receiving | .holding _ _ => true
  | _ => false

/-- The thread is inside of the lock. -/
def Place.inside : Place → Bool
  | .running | .leaving => true
  | _ => false

/-- The place after a wakeup. -/
def Place.woken (pl : Place) : Place := if pl = .asleep then .waiting else pl

@[simp] theorem Place.tagged_woken (pl : Place) : pl.woken.tagged = pl.tagged := by
  cases pl <;> rfl

@[simp] theorem Place.hand_woken (pl : Place) : pl.woken.hand = pl.hand := by
  cases pl <;> rfl

@[simp] theorem Place.muxing_woken (pl : Place) : pl.woken.muxing = pl.muxing := by
  cases pl <;> rfl

@[simp] theorem Place.inside_woken (pl : Place) : pl.woken.inside = pl.inside := by
  cases pl <;> rfl

variable {pl : Place}

theorem Place.muxing_of_inside (h : pl.inside = true) : pl.muxing = false := by
  cases pl <;> first | rfl | cases h

theorem Place.hand_of_inside (h : pl.inside = true) : pl.hand = none := by
  cases pl <;> first | rfl | cases h

theorem Place.tagged_of_muxing (h : pl.muxing = true) : pl.tagged = true := by
  cases pl <;> first | rfl | cases h

theorem Place.muxing_of_hand {p : Packet} (h : pl.hand = some p) : pl.muxing = true := by
  cases pl <;> first | rfl | cases h

theorem Place.woken_ne_asleep (pl : Place) : pl.woken ≠ .asleep := by
  cases pl <;> nofun

/-- The thread is awake, and will receive as soon as it can, if it is the muxer. -/
def Rpc.Active (x : Rpc) : Prop :=
  x.place.inside = true ∨
    x.p = none ∧
      (x.place.muxing = true ∨ x.async = false ∧ (x.place = .sending ∨ x.place = .waiting))

variable {s s' : Sys} {r : RpcId} {x : Rpc}

section Put

variable (s : Sys) (r : RpcId) (y : Option Rpc)

@[grind =] theorem Sys.put_rpcs (s : Sys) (r r' : RpcId) (y : Option Rpc) :
    (s.put r y).rpcs r' = if r' = r then y else s.rpcs r' := rfl

@[grind =] theorem Sys.put_sleep : (s.put r y).sleep = s.sleep := rfl

@[grind =] theorem Sys.put_muxer : (s.put r y).muxer = s.muxer := rfl

@[grind =] theorem Sys.put_net : (s.put r y).net = s.net := rfl

@[grind =] theorem Sys.put_hungup : (s.put r y).hungup = s.hungup := rfl

@[grind =] theorem Sys.put_next : (s.put r y).next = s.next := rfl

@[grind =] theorem Sys.put_received : (s.put r y).received = s.received := rfl

@[grind =] theorem Sys.put_returned : (s.put r y).returned = s.returned := rfl

end Put

theorem Sys.put_put (s : Sys) (r : RpcId) (y z : Option Rpc) : (s.put r y).put r z = s.put r z := by
  have hrpcs : ((s.put r y).put r z).rpcs = (s.put r z).rpcs := by
    funext r'
    by_cases heq : r' = r <;> simp [put_rpcs, heq]
  exact congrArg (fun rpcs => { s with rpcs }) hrpcs

theorem Sys.put_self (hx : s.rpcs r = some x) : s.put r (some x) = s := by
  have hrpcs : (s.put r (some x)).rpcs = s.rpcs := by
    funext r'
    by_cases heq : r' = r <;> simp [put_rpcs, heq, hx]
  exact congrArg (fun rpcs => { s with rpcs }) hrpcs

theorem Sys.goto_eq (hx : s.rpcs r = some x) (pl : Place) :
    s.goto r pl = s.put r (some { x with place := pl }) := by
  rw [goto, modify, hx, map_some]

theorem Sys.rwakeup_eq (hx : s.rpcs r = some x) :
    s.rwakeup r = s.put r (some { x with place := x.place.woken }) := by
  rw [rwakeup, modify, hx, map_some, woken]
  congr
  split_ifs <;> rfl

/-! ## Tags -/

/-- The tag of a request, when it has one. -/
def Sys.tagOf (s : Sys) (r : RpcId) : Option UInt32 :=
  (s.rpcs r).bind fun x => if x.place.tagged then some x.tag else none

/-- What a thread does that has no tag yet. -/
def Sys.rendOf (s : Sys) (r : RpcId) : Option Place :=
  (s.rpcs r).bind fun x => if x.place.tagged then none else some x.place

/-- The table `wait` holds those that have tags, each one in its place. Threads sleep in `gettag`
only while there is no free tag that is not for a thread that has been woken. -/
structure Tags (s : Sys) : Prop where
  slot : ∀ i r, s.wait[i]? = some (some r) → s.tagOf r = some (.ofNat i + s.mintag)
  entered : ∀ r t, s.tagOf r = some t → s.wait[(t - s.mintag).toNat]? = some (some r)
  length : s.wait.length = s.mwait
  small : s.mwait < 2 ^ 31
  nwait : s.nwait = s.wait.countP Option.isSome
  freetag : s.freetag ≤ s.mwait
  nodup : s.tagrend.Nodup
  tagrend : ∀ r, r ∈ s.tagrend ↔ s.rendOf r = some .tagAsleep
  full : s.tagrend ≠ [] → (s.maxtag - s.mintag).toNat ≤ s.mwait ∧
    ∃ L : List RpcId, L.Nodup ∧ (∀ r ∈ L, s.rendOf r = some .tagging) ∧ s.mwait ≤ s.nwait + L.length

/-- Different requests have different tags. -/
theorem Tags.tagOf_inj (h : Tags s) {r' : RpcId} {t : UInt32} (hr : s.tagOf r = some t)
    (hr' : s.tagOf r' = some t) : r = r' := by
  have h1 := h.entered r t hr
  rw [h.entered r' t hr'] at h1
  exact (some.inj (some.inj h1)).symm

theorem Tags.nwait_le (h : Tags s) : s.nwait ≤ s.mwait := by
  rw [h.nwait, ← h.length]
  exact countP_le_length

/-- All that `Tags` depends on. -/
structure SameTags (s s' : Sys) : Prop where
  mintag : s'.mintag = s.mintag
  maxtag : s'.maxtag = s.maxtag
  wait : s'.wait = s.wait
  mwait : s'.mwait = s.mwait
  nwait : s'.nwait = s.nwait
  freetag : s'.freetag = s.freetag
  tagrend : s'.tagrend = s.tagrend
  tagOf : ∀ r, s'.tagOf r = s.tagOf r
  rendOf : ∀ r, s'.rendOf r = s.rendOf r

theorem Tags.congr (h : Tags s) (hs : SameTags s s') : Tags s' := by
  obtain ⟨h1, h2, h3, h4, h5, h6, h7, h8, h9⟩ := hs
  constructor
  · simpa only [h1, h3, h8] using h.slot
  · simpa only [h1, h3, h8] using h.entered
  · rw [h3, h4, h.length]
  · rw [h4]
    exact h.small
  · rw [h3, h5, h.nwait]
  · rw [h6, h4]
    exact h.freetag
  · rw [h7]
    exact h.nodup
  · simpa only [h7, h9] using h.tagrend
  · simpa only [h1, h2, h4, h5, h7, h9] using h.full

theorem Tags.of_eq (h : Tags s) (heq : (s'.rpcs, s'.mintag, s'.maxtag, s'.wait, s'.mwait, s'.nwait,
      s'.freetag, s'.tagrend) =
    (s.rpcs, s.mintag, s.maxtag, s.wait, s.mwait, s.nwait, s.freetag, s.tagrend)) : Tags s' := by
  simp only [Prod.mk.injEq] at heq
  obtain ⟨hrpcs, h1, h2, h3, h4, h5, h6, h7⟩ := heq
  exact h.congr ⟨h1, h2, h3, h4, h5, h6, h7, fun _ => by rw [tagOf, hrpcs, tagOf],
    fun _ => by rw [rendOf, hrpcs, rendOf]⟩

/-- A thread moves on, with or without a reply; it has its tag and keeps it. -/
theorem SameTags.put (hx : s.rpcs r = some x) (htag : x.place.tagged = true) {y : Rpc}
    (hy : y.place.tagged = true) (hsame : y.tag = x.tag) : SameTags s (s.put r (some y)) where
  mintag := rfl
  maxtag := rfl
  wait := rfl
  mwait := rfl
  nwait := rfl
  freetag := rfl
  tagrend := rfl
  tagOf := by
    intro r'
    rw [Sys.tagOf, Sys.put_rpcs]
    split_ifs with heq
    · simp [Sys.tagOf, heq, hx, htag, hy, hsame]
    · rfl
  rendOf := by
    intro r'
    rw [Sys.rendOf, Sys.put_rpcs]
    split_ifs with heq
    · simp [Sys.rendOf, heq, hx, htag, hy]
    · rfl

/-! ## Getting and returning tags -/

theorem Sys.tagOf_put (s : Sys) (r r' : RpcId) (y : Option Rpc) :
    (s.put r y).tagOf r' =
      if r' = r then y.bind fun x => if x.place.tagged then some x.tag else none
      else s.tagOf r' := by
  rw [tagOf, put_rpcs]
  split_ifs <;> rfl

theorem Sys.rendOf_put (s : Sys) (r r' : RpcId) (y : Option Rpc) :
    (s.put r y).rendOf r' =
      if r' = r then y.bind fun x => if x.place.tagged then none else some x.place
      else s.rendOf r' := by
  rw [rendOf, put_rpcs]
  split_ifs <;> rfl

theorem index_tag {i : Nat} (hi : i < 2 ^ 32) (mintag : UInt32) :
    (UInt32.ofNat i + mintag - mintag).toNat = i := by
  rw [UInt32.add_sub_cancel, UInt32.toNat_ofNat_of_lt' hi]

theorem Sys.lt_grown (s : Sys) : s.mwait < s.grown := by
  rw [grown]
  split_ifs
  · omega
  · rw [Nat.shiftLeft_eq]
    omega

theorem Tags.grow (h : Tags s) (hfull : s.nwait = s.mwait)
    (hmore : s.mwait < (s.maxtag - s.mintag).toNat) (hsmall : s.grown < 2 ^ 31) :
    Tags s.grow ∧ s.grow.nwait < s.grow.mwait := by
  have hlt := s.lt_grown
  refine ⟨?_, ?_⟩
  · constructor
    · intro i r hi
      have hi' : i < s.wait.length := by
        by_contra hge
        rw [Sys.grow, getElem?_append_right (Nat.le_of_not_lt hge), getElem?_replicate] at hi
        split_ifs at hi
        all_goals simp at hi
      rw [Sys.grow, getElem?_append_left hi'] at hi
      exact h.slot i r hi
    · intro r t ht
      have hold := h.entered r t ht
      rw [Sys.grow, getElem?_append_left (List.getElem?_eq_some_iff.mp hold).1]
      exact hold
    · change (s.wait ++ replicate (s.grown - s.mwait) none).length = s.grown
      rw [length_append, length_replicate, h.length]
      omega
    · exact hsmall
    · simp [Sys.grow, h.nwait, countP_append, countP_replicate]
    · exact Nat.le_of_lt hlt
    · exact h.nodup
    · exact h.tagrend
    · -- nobody sleeps while there may be more tags
      intro hne
      exact absurd (h.full hne).1 (by omega)
  · change s.nwait < s.grown
    omega

/-- There is a free tag, unless all are in use. -/
theorem Tags.freeslot (h : Tags s) (hlt : s.nwait < s.mwait) :
    ∃ i, s.freeslot = some i ∧ s.wait[i]? = some none := by
  have hfree : ∃ i : Nat, s.wait[i]? = some none := by
    by_contra hno
    have hall : ∀ a ∈ s.wait, isSome a = true := by
      intro a ha
      rcases a with _ | r
      · obtain ⟨i, hi⟩ := mem_iff_getElem?.mp ha
        exact absurd ⟨i, hi⟩ hno
      · rfl
    have := countP_eq_length.mpr hall
    have := h.nwait
    have := h.length
    omega
  obtain ⟨i, hi⟩ := hfree
  have hilt := (List.getElem?_eq_some_iff.mp hi).1
  rcases hfind : s.freeslot with _ | j
  · rw [Sys.freeslot, find?_eq_none] at hfind
    have hmem : i ∈ range' s.freetag (s.mwait - s.freetag) ++ range s.freetag := by
      rw [mem_append, mem_range'_1, mem_range]
      have := h.length
      omega
    exact absurd (by simpa using hi) (hfind i hmem)
  · exact ⟨j, rfl, by simpa using find?_some hfind⟩

section

variable (h : Tags s) (hx : s.rpcs r = some x) (hplace : x.place = .tagging)
include h hx hplace

theorem Tags.found {i : Nat} (hi : s.wait[i]? = some none) :
    Tags { s.put r (some { x with tag := .ofNat i + s.mintag, place := .sending }) with
      nwait := s.nwait + 1, wait := s.wait.set i (some r) } := by
  obtain ⟨hilt, hval⟩ := List.getElem?_eq_some_iff.mp hi
  have hsmall := h.small
  have hlength := h.length
  have htag : s.tagOf r = none := by simp [tagOf, hx, hplace, tagged]
  have hrend : s.rendOf r = some .tagging := by simp [rendOf, hx, hplace, tagged]
  have hindex := index_tag (show i < 2 ^ 32 by omega) s.mintag
  obtain ⟨y, hy⟩ : ∃ y : Rpc, y = { x with tag := .ofNat i + s.mintag, place := .sending } :=
    ⟨_, rfl⟩
  rw [← hy]
  have htags : ∀ r', tagOf { s.put r (some y) with
      nwait := s.nwait + 1, wait := s.wait.set i (some r) } r' =
      if r' = r then some (.ofNat i + s.mintag) else s.tagOf r' := by
    intro r'
    rw [hy]
    exact s.tagOf_put r r' _
  have hrends : ∀ r', rendOf { s.put r (some y) with
      nwait := s.nwait + 1, wait := s.wait.set i (some r) } r' =
      if r' = r then none else s.rendOf r' := by
    intro r'
    rw [hy]
    exact s.rendOf_put r r' _
  constructor
  · intro j r' hj
    rw [htags]
    rw [getElem?_set] at hj
    split_ifs at hj with hij
    · cases hj
      subst hij
      rw [if_pos rfl]
      rfl
    · have hold := h.slot j r' hj
      rw [if_neg]
      · exact hold
      · rintro rfl
        simp [htag] at hold
  · intro r' t ht
    rw [htags] at ht
    split_ifs at ht with heq
    · cases ht
      subst heq
      refine (congrArg ((s.wait.set i (some r'))[·]?) hindex).trans ?_
      rw [getElem?_set_self hilt]
    · have hold := h.entered r' t ht
      change (s.wait.set i (some r))[(t - s.mintag).toNat]? = some (some r')
      rw [getElem?_set_ne]
      · exact hold
      · rintro rfl
        simp [hi] at hold
  · change (s.wait.set i (some r)).length = s.mwait
    rw [length_set, hlength]
  · exact hsmall
  · change s.nwait + 1 = (s.wait.set i (some r)).countP isSome
    rw [countP_set hilt, hval, h.nwait]
    rfl
  · exact h.freetag
  · exact h.nodup
  · intro r'
    rw [hrends]
    refine (h.tagrend r').trans ?_
    split_ifs with heq
    · simp [heq, hrend]
    · rfl
  · intro hne
    obtain ⟨hmost, L, hL, htagging, hcount⟩ := h.full hne
    refine ⟨hmost, L.erase r, hL.erase r, ?_, ?_⟩
    · intro r' hr'
      rw [hrends, if_neg (hL.mem_erase_iff.mp hr').1]
      exact htagging r' (mem_of_mem_erase hr')
    · have := le_length_erase (a := r) (l := L)
      change s.mwait ≤ s.nwait + 1 + (L.erase r).length
      omega

theorem Tags.sleep (hfull : s.nwait = s.mwait) (hmost : (s.maxtag - s.mintag).toNat ≤ s.mwait) :
    Tags { s.put r (some { x with place := .tagAsleep }) with tagrend := s.tagrend ++ [r] } := by
  have htag : s.tagOf r = none := by simp [tagOf, hx, hplace, tagged]
  have hrend : s.rendOf r = some .tagging := by simp [rendOf, hx, hplace, tagged]
  have htags : ∀ r', tagOf { s.put r (some { x with place := .tagAsleep }) with
      tagrend := s.tagrend ++ [r] } r' = s.tagOf r' := by
    intro r'
    refine (s.tagOf_put r r' _).trans ?_
    split_ifs with heq
    · rw [heq, htag]
      rfl
    · rfl
  have hrends : ∀ r', rendOf { s.put r (some { x with place := .tagAsleep }) with
      tagrend := s.tagrend ++ [r] } r' = if r' = r then some .tagAsleep else s.rendOf r' :=
    fun r' => s.rendOf_put r r' _
  have hr : r ∉ s.tagrend := by
    rw [h.tagrend, hrend]
    nofun
  constructor
  · intro i r' hi
    rw [htags]
    exact h.slot i r' hi
  · intro r' t ht
    rw [htags] at ht
    exact h.entered r' t ht
  · exact h.length
  · exact h.small
  · exact h.nwait
  · exact h.freetag
  · exact nodup_append.mpr ⟨h.nodup, by simp, by grind⟩
  · intro r'
    rw [hrends, mem_append, mem_singleton, h.tagrend]
    split_ifs with heq <;> simp [heq]
  · intro _
    exact ⟨hmost, [], nodup_nil, nofun, Nat.le_of_eq hfull.symm⟩

end

theorem Tags.start (h : Tags s) (hr : s.rpcs r = none) (hx : x.place = .tagging) :
    Tags (s.put r (some x)) := by
  have htag : s.tagOf r = none := by simp [tagOf, hr]
  have hrend : s.rendOf r = none := by simp [rendOf, hr]
  have htags : ∀ r', (s.put r (some x)).tagOf r' = s.tagOf r' := by
    intro r'
    rw [s.tagOf_put r r']
    split_ifs with heq
    · simp [heq, htag, hx, tagged]
    · rfl
  have hrends : ∀ r', (s.put r (some x)).rendOf r' =
      if r' = r then some .tagging else s.rendOf r' := by
    intro r'
    rw [s.rendOf_put r r']
    simp [hx, tagged]
  constructor
  · intro i r' hi
    rw [htags]
    exact h.slot i r' hi
  · intro r' t ht
    rw [htags] at ht
    exact h.entered r' t ht
  · exact h.length
  · exact h.small
  · exact h.nwait
  · exact h.freetag
  · exact h.nodup
  · intro r'
    rw [hrends]
    refine (h.tagrend r').trans ?_
    split_ifs with heq
    · simp [heq, hrend]
    · rfl
  · intro hne
    obtain ⟨hmost, L, hL, htagging, hcount⟩ := h.full hne
    refine ⟨hmost, L, hL, ?_, hcount⟩
    intro r' hr'
    rw [hrends]
    split_ifs
    · rfl
    · exact htagging r' hr'

/-- What `puttag` leaves. -/
def Sys.released (s : Sys) (r : RpcId) (i : Nat) : Sys :=
  { s with wait := s.wait.set i none, nwait := s.nwait - 1, freetag := i }.tagwakeup.put r none

theorem Sys.tagwakeup_nil (h : s.tagrend = []) : s.tagwakeup = s := by
  rw [tagwakeup]
  split
  · rfl
  · simp_all

theorem Sys.tagwakeup_cons {rs : List RpcId} (h : s.tagrend = r :: rs) (hx : s.rpcs r = some x) :
    s.tagwakeup = { s.put r (some { x with place := .tagging }) with tagrend := rs } := by
  rw [tagwakeup]
  split
  · simp_all
  · next r' rs' heq =>
    cases heq.symm.trans h
    rw [goto_eq hx]

section

variable (h : Tags s) (hx : s.rpcs r = some x) (htagged : x.place.tagged = true)
include h hx htagged

/-- Who is woken by `puttag`. -/
theorem Tags.released_cases (i : Nat) : (s.tagrend = [] ∧ s.released r i =
      { s.put r none with wait := s.wait.set i none, nwait := s.nwait - 1, freetag := i }) ∨
    ∃ r2 x2 rs, s.tagrend = r2 :: rs ∧ r2 ≠ r ∧ s.rpcs r2 = some x2 ∧ x2.place = .tagAsleep ∧
      s.released r i = { (s.put r2 (some { x2 with place := .tagging })).put r none with
        wait := s.wait.set i none, nwait := s.nwait - 1, freetag := i, tagrend := rs } := by
  rcases hrend : s.tagrend with _ | ⟨r2, rs⟩
  · left
    exact ⟨rfl, congrArg (put · r none) (tagwakeup_nil (by exact hrend))⟩
  right
  have hr2 := (h.tagrend r2).mp (by rw [hrend]; exact .head _)
  rw [rendOf, bind_eq_some_iff] at hr2
  obtain ⟨x2, hx2, hplace⟩ := hr2
  split_ifs at hplace with ht
  refine ⟨r2, x2, rs, rfl, ?_, hx2, some.inj hplace, ?_⟩
  · rintro rfl
    cases hx.symm.trans hx2
    exact ht htagged
  · exact congrArg (put · r none) (tagwakeup_cons (by exact hrend)
      (by exact hx2))

theorem Tags.released :
    s.wait[(x.tag - s.mintag).toNat]? = some (some r) ∧
      Tags (s.released r (x.tag - s.mintag).toNat) := by
  have htag : s.tagOf r = some x.tag := by simp [tagOf, hx, htagged]
  have hrend : s.rendOf r = none := by simp [rendOf, hx, htagged]
  obtain ⟨i, hi⟩ : ∃ i, i = (x.tag - s.mintag).toNat := ⟨_, rfl⟩
  have hslot : s.wait[i]? = some (some r) := hi ▸ h.entered r x.tag htag
  obtain ⟨hilt, hval⟩ := List.getElem?_eq_some_iff.mp hslot
  rw [← hi]
  refine ⟨hslot, ?_⟩
  have hcount : s.nwait - 1 = (s.wait.set i none).countP isSome := by
    rw [countP_set hilt, hval, h.nwait]
    rfl
  have hother : ∀ {r' : RpcId} {t : UInt32}, r' ≠ r → s.tagOf r' = some t →
      (s.wait.set i none)[(t - s.mintag).toNat]? = some (some r') := by
    intro r' t hne ht
    have hold := h.entered r' t ht
    rw [getElem?_set_ne]
    · exact hold
    · intro heq
      rw [← heq, hslot] at hold
      exact hne (some.inj (some.inj hold)).symm
  have hslots : ∀ {j : Nat} {r' : RpcId}, (s.wait.set i none)[j]? = some (some r') →
      r' ≠ r ∧ s.tagOf r' = some (.ofNat j + s.mintag) := by
    intro j r' hj
    rw [getElem?_set] at hj
    split_ifs at hj with hij
    · cases hj
    have hold := h.slot j r' hj
    refine ⟨?_, hold⟩
    rintro rfl
    rw [htag] at hold
    refine hij ?_
    have hjlt := (List.getElem?_eq_some_iff.mp hj).1
    have := h.small
    have := h.length
    rw [hi, some.inj hold, index_tag (by omega)]
  have hlength : (s.wait.set i none).length = s.mwait := by rw [length_set, h.length]
  have hilt' : i ≤ s.mwait := by
    have := h.length
    omega
  rcases h.released_cases hx htagged i with ⟨hnil, heq⟩ | ⟨r2, x2, rs, hcons, hne, hx2, hplace, heq⟩
  · rw [heq]
    have htags : ∀ r', tagOf { s.put r none with
        wait := s.wait.set i none, nwait := s.nwait - 1, freetag := i } r' =
        if r' = r then none else s.tagOf r' := fun r' => s.tagOf_put r r' _
    have hrends : ∀ r', rendOf { s.put r none with
        wait := s.wait.set i none, nwait := s.nwait - 1, freetag := i } r' =
        if r' = r then none else s.rendOf r' := fun r' => s.rendOf_put r r' _
    constructor
    · intro j r' hj
      obtain ⟨hne, hold⟩ := hslots hj
      rw [htags, if_neg hne]
      exact hold
    · intro r' t ht
      rw [htags] at ht
      split_ifs at ht with heq'
      exact hother heq' ht
    · exact hlength
    · exact h.small
    · exact hcount
    · exact hilt'
    · exact h.nodup
    · intro r'
      rw [hrends]
      refine (h.tagrend r').trans ?_
      split_ifs with heq'
      · simp [heq', hrend]
      · rfl
    · intro hne
      exact absurd hnil hne
  · rw [heq]
    have htags : ∀ r', tagOf { (s.put r2 (some { x2 with place := .tagging })).put r none with
        wait := s.wait.set i none, nwait := s.nwait - 1, freetag := i, tagrend := rs } r' =
        if r' = r then none else s.tagOf r' := by
      intro r'
      refine (tagOf_put _ r r' _).trans ?_
      rw [tagOf_put]
      split_ifs with h1 h2
      · rfl
      · simp [h2, tagOf, hx2, hplace, tagged]
      · rfl
    have hrends : ∀ r', rendOf { (s.put r2 (some { x2 with place := .tagging })).put r none with
        wait := s.wait.set i none, nwait := s.nwait - 1, freetag := i, tagrend := rs } r' =
        if r' = r then none else if r' = r2 then some .tagging else s.rendOf r' := by
      intro r'
      refine (rendOf_put _ r r' _).trans ?_
      rw [rendOf_put]
      rfl
    have hnodup := h.nodup
    rw [hcons, nodup_cons] at hnodup
    constructor
    · intro j r' hj
      obtain ⟨hne, hold⟩ := hslots hj
      rw [htags, if_neg hne]
      exact hold
    · intro r' t ht
      rw [htags] at ht
      split_ifs at ht with heq'
      exact hother heq' ht
    · exact hlength
    · exact h.small
    · exact hcount
    · exact hilt'
    · exact hnodup.2
    · intro r'
      have hold := h.tagrend r'
      rw [hcons, mem_cons] at hold
      rw [hrends]
      change r' ∈ rs ↔ _
      split_ifs with h1 h2
      · have hno : ¬ (r' = r2 ∨ r' ∈ rs) := by
          rw [hold, h1, hrend]
          nofun
        simpa using fun hmem => hno (.inr hmem)
      · simpa [h2] using hnodup.1
      · rw [← hold]
        simp [h2]
    · -- the free tag is for the one that is woken
      intro _
      obtain ⟨hmost, L, hL, htagging, hcount⟩ := h.full (by rw [hcons]; nofun)
      have hr2 : r2 ∉ L := by
        intro hmem
        have := htagging r2 hmem
        simp [rendOf, hx2, hplace, tagged] at this
      refine ⟨hmost, r2 :: L, nodup_cons.mpr ⟨hr2, hL⟩, ?_, ?_⟩
      · intro r' hr'
        rw [hrends]
        split_ifs with h1 h2
        · subst h1
          rcases mem_cons.mp hr' with h3 | h3
          · exact absurd h3.symm hne
          · simp [htagging r' h3] at hrend
        · rfl
        · exact htagging r' ((mem_cons.mp hr').resolve_left h2)
      · change s.mwait ≤ s.nwait - 1 + (L.length + 1)
        omega

end

end Plan9Port.Mux
