import Plan9Port.Mux.Mail

/-!
# Delivery of replies

Each step of a thread keeps the invariant of tags, roles and mail, so that it holds in all states
that any interleaving reaches. From it: a response is returned by the request with its tag and by no
other, and who waits for a reply never sleeps without a muxer.

A caller that waits for a tag does: if all tags are in use by requests of `muxrpcstart` that nobody
polls, there is no muxer while it sleeps.
-/

namespace Plan9Port.Mux

open Sys Place Option

variable {s s' : Sys} {r : RpcId} {x : Rpc} {pl : Place} {p : Packet} {res : Except Abort Sys}

/-! ## Steps -/

/-- The range that tags are to be in, and the size of `wait`. -/
def Sys.table (s : Sys) : UInt32 × UInt32 × Nat := (s.mintag, s.maxtag, s.mwait)

/-- What a step does to them: `wait` grows below the range only. -/
def Sized (s s' : Sys) : Prop :=
  s'.table = s.table ∨ s'.table = s.grow.table ∧ s.mwait < (s.maxtag - s.mintag).toNat

/-- What holds in every state. -/
structure Inv (s : Sys) : Prop where
  tags : Tags s
  roles : Roles s
  mail : Mail s none
  outside : ∀ r x, s.rpcs r = some x → x.place.inside = false

/-- What holds while `r` is inside of the lock, with the packet `q`. -/
structure Within (s : Sys) (r : RpcId) (q : Option Packet) : Prop where
  tags : Tags s
  roles : Roles s
  mail : Mail s q
  outside : ∀ r' x', r' ≠ r → s.rpcs r' = some x' → x'.place.inside = false

theorem Inv.within (h : Inv s) (r : RpcId) : Within s r none :=
  ⟨h.tags, h.roles, h.mail, fun r' x' _ => h.outside r' x'⟩

/-- Only the muxer holds a packet. -/
theorem Roles.hand_eq_none (h : Roles s) (hmuxer : s.muxer = some r) (hx : s.rpcs r = some x)
    (hhand : x.place.hand = none) : ∀ r' x', s.rpcs r' = some x' → x'.place.hand = none := by
  intro r' x' hx'
  rcases hp : x'.place.hand with _ | p
  · rfl
  · have := (h.muxing r' x' hx' (muxing_of_hand hp)).symm.trans hmuxer
    cases this
    cases hx.symm.trans hx'
    rw [hhand] at hp
    cases hp

section

variable (h : Within s r none) (hx : s.rpcs r = some x) (htag : x.place.tagged = true)
include h hx htag

/-- A thread moves on, and leaves the lock. -/
theorem Within.goto (htag' : pl.tagged = true) (hin : pl.inside = false)
    (hroles : Roles (s.put r (some { x with place := pl })))
    (hmail : Mail (s.put r (some { x with place := pl })) none) :
    Inv (s.put r (some { x with place := pl })) where
  tags := h.tags.congr (.put hx htag htag' rfl)
  roles := hroles
  mail := hmail
  outside := by
    intro r' x' hx'
    rw [put_rpcs] at hx'
    split_ifs at hx' with heq
    · cases hx'
      exact hin
    · exact h.outside r' x' heq hx'

/-- A call returns, and its request is gone. -/
theorem Within.finish (hsleep : r ∉ s.sleep) (hmuxer : s.muxer ≠ some r)
    (hhand : x.place.hand = none) (hdone : x.p ≠ none ∨ s.hungup = true)
    (hothers : x.p ≠ none ∨ ∀ r' x', s.rpcs r' = some x' → x'.place.hand = none) :
    ∃ s', s.finish r x = .ok s' ∧ Inv s' ∧ s'.table = s.table := by
  obtain ⟨hslot, htags⟩ := h.tags.released hx htag
  obtain ⟨i, hi⟩ : ∃ i, i = (x.tag - s.mintag).toNat := ⟨_, rfl⟩
  rw [← hi] at hslot htags
  obtain ⟨hreturned, htable⟩ : (s.released r i).returned = s.returned ∧
      (s.released r i).table = s.table := by
    rcases h.tags.released_cases hx htag i with ⟨-, heq⟩ | ⟨_, _, _, -, -, -, -, heq⟩
    all_goals
      rw [heq]
      exact ⟨rfl, rfl⟩
  refine ⟨{ s.released r i with returned := ⟨x.tx, x.tag, true, x.p⟩ :: s.returned }, ?_, ?_,
    htable⟩
  · have hput : s.puttag r x = .ok (s.released r i) := by
      rw [Sys.puttag, ← hi]
      exact if_pos hslot
    rw [Sys.finish, hput, ← hreturned]
    rfl
  · have htags' : Tags { s.released r i with
        returned := ⟨x.tx, x.tag, true, x.p⟩ :: s.returned } :=
      htags.of_eq rfl
    rcases h.tags.released_cases hx htag i with ⟨-, heq⟩ | ⟨r2, x2, rs, -, hne, hx2, hplace, heq⟩
    · rw [heq] at htags' ⊢
      refine ⟨htags', (h.roles.remove hsleep hmuxer).of_eq rfl,
        (h.mail.finish hx hdone hhand hothers).of_eq rfl, ?_⟩
      intro r' x' hx'
      change (if r' = r then none else s.rpcs r') = some x' at hx'
      split_ifs at hx' with heq'
      exact h.outside r' x' heq' hx'
    · rw [heq] at htags' ⊢
      obtain ⟨s1, hs1⟩ : ∃ s1, s1 = s.put r2 (some { x2 with place := .tagging }) := ⟨_, rfl⟩
      have htag2 : x2.place.tagged = false := by rw [hplace]; rfl
      have hroles : Roles s1 := hs1 ▸ h.roles.goto_untagged hx2 htag2 rfl
      have hmail : Mail s1 none := hs1 ▸ h.mail.goto_untagged hx2 htag2 rfl
      have hx' : s1.rpcs r = some x := by rw [hs1, Sys.put_rpcs, if_neg hne.symm, hx]
      rw [← hs1] at htags' ⊢
      refine ⟨htags', (hroles.remove (by rwa [hs1]) (by rwa [hs1])).of_eq rfl,
        (hmail.finish hx' (by rwa [hs1]) hhand ?_).of_eq (by rw [hs1]; rfl), ?_⟩
      · refine hothers.imp id fun hnone r' x' hx' => ?_
        rw [hs1, Sys.put_rpcs] at hx'
        split_ifs at hx' with heq'
        · cases hx'
          rfl
        · exact hnone r' x' hx'
      · intro r' x' hx'
        change (if r' = r then none else s1.rpcs r') = some x' at hx'
        split_ifs at hx' with heq'
        rw [hs1, Sys.put_rpcs] at hx'
        split_ifs at hx' with heq''
        · cases hx'
          rfl
        · exact h.outside r' x' heq' hx'

end

/-- A call finds that its reply is there. -/
theorem Inv.finish (h : Inv s) (hx : s.rpcs r = some x) (hp : x.p ≠ none) :
    ∃ s', s.finish r x = .ok s' ∧ Inv s' ∧ s'.table = s.table := by
  have htag : x.place.tagged = true := by
    by_contra hno
    exact hp (h.mail.early r x hx (.inl (by simpa using hno)))
  have hmuxer : s.muxer ≠ some r := by
    intro hm
    obtain ⟨y, hy, hact⟩ := h.roles.muxer r hm
    cases hx.symm.trans hy
    rcases hact with hin | ⟨hnone, -⟩
    · simp [h.outside r x hx] at hin
    · exact hp hnone
  refine (h.within r).finish hx htag ?_ hmuxer ?_ (.inl hp) (.inl hp)
  · intro hmem
    obtain ⟨y, hy, -, hnone⟩ := h.roles.sleep r hmem
    cases hx.symm.trans hy
    exact hp hnone
  · rcases hhand : x.place.hand with _ | p
    · rfl
    · exact absurd (h.roles.muxing r x hx (muxing_of_hand hhand)) hmuxer

/-- The muxer hands its role on. -/
theorem Within.electmuxer (h : Within s r none) (hx : s.rpcs r = some x) (hmuxer : s.muxer = some r)
    (hin : x.place.inside = true) (hout : x.async = true ∨ r ∉ s.sleep) :
    Within s.electmuxer r none ∧ s.electmuxer.muxer ≠ some r ∧ s.electmuxer.rpcs r = some x ∧
      s.electmuxer.sleep = s.sleep ∧ s.electmuxer.hungup = s.hungup ∧
      s.electmuxer.table = s.table ∧
      ∀ r' x', s.electmuxer.rpcs r' = some x' → x'.place.hand = none := by
  obtain ⟨hroles, hother⟩ := h.roles.electmuxer hx hmuxer hin hout
  have hnone := h.roles.hand_eq_none hmuxer hx (hand_of_inside hin)
  rcases hfind : s.candidate with _ | m
  · rw [electmuxer_none hfind] at hroles hother ⊢
    exact ⟨⟨h.tags.of_eq rfl, hroles, h.mail.of_eq rfl, h.outside⟩, hother, hx, rfl, rfl, rfl,
      hnone⟩
  obtain ⟨hm, y, hy, hytag, -, hsync⟩ := h.roles.candidate hfind
  have hne : r ≠ m := by
    rintro rfl
    cases hx.symm.trans hy
    rcases hout with hasync | hnot
    · simp [hasync] at hsync
    · exact hnot hm
  rw [electmuxer_some hfind hy] at hroles hother ⊢
  have htags : Tags (s.put m (some { y with place := y.place.woken })) :=
    h.tags.congr (.put hy hytag (by simpa using hytag) rfl)
  have hmail : Mail (s.put m (some { y with place := y.place.woken })) none :=
    h.mail.goto hy (by simp) (by cases y.place <;> simp [woken]) (by simp)
  refine ⟨⟨htags.of_eq rfl, hroles, hmail.of_eq rfl, ?_⟩, hother, ?_, rfl, rfl, rfl, ?_⟩
  · intro r' x' hr' hx'
    change (if r' = m then _ else s.rpcs r') = some x' at hx'
    split_ifs at hx' with heq
    · cases hx'
      subst heq
      simpa using h.outside r' y hr' hy
    · exact h.outside r' x' hr' hx'
  · exact (if_neg hne).trans hx
  · intro r' x' hx'
    change (if r' = m then _ else s.rpcs r') = some x' at hx'
    split_ifs at hx' with heq
    · cases hx'
      simpa using hnone m y hy
    · exact hnone r' x' hx'

theorem toInt32_nonneg {t : UInt32} (h : t.toNat < 2 ^ 31) : ¬ t.toInt32 < 0 := by
  rw [Int32.lt_iff_toInt_lt, Int.not_lt]
  change (0 : Int) ≤ t.toBitVec.toInt
  have hlt : 2 * t.toBitVec.toNat < 2 ^ 32 := (by omega : 2 * t.toNat < 2 ^ 32)
  rw [BitVec.toInt_eq_toNat_cond, if_pos hlt]
  exact Int.natCast_nonneg _

/-- The muxer hands a packet on, to another request or to its own. -/
theorem Within.muxmsgandqlock (h : Within s r (some p)) (hx : s.rpcs r = some x)
    (hplace : x.place = .running) (hmuxer : s.muxer = some r) (hp : x.p = none) :
    ∃ s' x', s.muxmsgandqlock p = .ok s' ∧ Within s' r none ∧ s'.muxer = some r ∧
      s'.rpcs r = some x' ∧ x'.place = .running ∧ s'.table = s.table ∧
      (x'.p = none ∧ r ∈ s'.sleep ∨ x'.p ≠ none ∧ r ∉ s'.sleep) := by
  obtain ⟨⟨r2, x2, hx2, htag2, hsent2, hp2, htx2, hptag2⟩, -⟩ := h.mail.inside p rfl
  have hne : x2.place ≠ .leaving := by
    intro hl
    by_cases heq : r2 = r
    · subst heq
      cases hx.symm.trans hx2
      simp [hplace] at hl
    · simpa [hl, inside] using h.outside r2 x2 heq hx2
  have hsleep2 := h.roles.listed r2 x2 hx2 htag2 hne hp2
  have hslot := h.tags.entered r2 p.tag (by simp [Sys.tagOf, hx2, htag2, hptag2])
  have hlt : (p.tag - s.mintag).toNat < s.mwait := by
    rw [← h.tags.length]
    exact (List.getElem?_eq_some_iff.mp hslot).1
  have hsmall := h.tags.small
  have hrun : s.muxmsgandqlock p = .ok (s.answer r2 x2 p) := by
    rw [Sys.muxmsgandqlock]
    simp only
    have hok : ¬ ((p.tag - s.mintag).toInt32 < 0 ∨ s.mwait ≤ (p.tag - s.mintag).toNat) := by
      rintro (hneg | hge)
      · exact toInt32_nonneg (by omega) hneg
      · omega
    rw [if_neg hok, hslot, show (some (some r2)).join = some r2 from rfl]
    simp only [hsleep2, not_true, if_false, Sys.modify, hx2, map_some, Sys.dequeue,
      Sys.put_sleep, if_true, bind, Except.bind, pure, Except.pure]
    rw [Sys.rwakeup_eq (x := { x2 with p := some p }) (if_pos rfl)]
    exact congrArg (fun t : Sys => Except.ok { t with sleep := s.sleep.erase r2 })
      (Sys.put_put s r2 _ _)
  have hinside : s.muxer = some r2 → x2.place.inside = true := by
    intro hm
    cases hmuxer.symm.trans hm
    cases hx.symm.trans hx2
    rw [hplace]
    rfl
  have hnone := h.roles.hand_eq_none hmuxer hx (by rw [hplace]; rfl)
  have hwithin : Within (s.answer r2 x2 p) r none := by
    refine ⟨?_, h.roles.answer hx2 hinside, ?_, ?_⟩
    · exact (h.tags.congr (.put (y := { x2 with p := some p, place := x2.place.woken }) hx2 htag2
        (by simpa using htag2) rfl)).of_eq rfl
    · exact (h.mail.answer hx2 htag2 hsent2 hp2 htx2 hptag2 hnone).of_eq rfl
    intro r' x' hr' hx'
    change (if r' = r2 then _ else s.rpcs r') = some x' at hx'
    split_ifs at hx' with heq
    · cases hx'
      subst heq
      simpa using h.outside r' x2 hr' hx2
    · exact h.outside r' x' hr' hx'
  have hmem : ∀ r', r' ∈ (s.answer r2 x2 p).sleep ↔ r' ≠ r2 ∧ r' ∈ s.sleep := fun r' =>
    h.roles.nodup.mem_erase_iff
  by_cases heq : r = r2
  · subst heq
    cases hx.symm.trans hx2
    refine ⟨_, { x with p := some p, place := x.place.woken }, hrun, hwithin, hmuxer, if_pos rfl,
      ?_, rfl, .inr ⟨(by simp), ?_⟩⟩
    · rw [hplace]
      rfl
    · rw [hmem]
      exact fun hr => hr.1 rfl
  · refine ⟨_, x, hrun, hwithin, hmuxer, (if_neg heq).trans hx, hplace, rfl, .inl ⟨hp, ?_⟩⟩
    rw [hmem]
    refine ⟨heq, h.roles.listed r x hx ?_ ?_ hp⟩ <;> rw [hplace]
    · rfl
    · simp

section

variable (h : Inv s) (hx : s.rpcs r = some x)
include h hx

/-- The muxer enters the lock with what it has received. -/
theorem Inv.enter (htag : x.place.tagged = true) (hp : x.p = none) {q : Option Packet}
    (hhand : x.place.hand = q) : Within (s.put r (some { x with place := .running })) r q := by
  have hne : x.place ≠ .leaving := by
    intro hl
    simpa [hl, inside] using h.outside r x hx
  refine ⟨h.tags.congr (.put hx htag rfl rfl), ?_, h.mail.enter hx hhand, ?_⟩
  · exact h.roles.goto hx htag.symm (by rintro ⟨⟩) (by simp) (by simp) (by simp) (by simp)
      (fun _ => .inl rfl) (fun _ _ _ => h.roles.listed r x hx htag hne hp)
  · intro r' x' hr' hx'
    rw [put_rpcs, if_neg hr'] at hx'
    exact h.outside r' x' hx'

/-- The muxer has no reply yet. -/
theorem Inv.reply_eq_none (hm : x.place.muxing = true) : s.muxer = some r ∧ x.p = none := by
  have hmuxer := h.roles.muxing r x hx hm
  refine ⟨hmuxer, ?_⟩
  obtain ⟨y, hy, hact⟩ := h.roles.muxer r hmuxer
  cases hx.symm.trans hy
  rcases hact with hin | ⟨hp, -⟩
  · rw [muxing_of_inside hin] at hm
    cases hm
  · exact hp

/-- A muxer that has received a packet. -/
theorem Inv.handon {ret : Bool} (hplace : x.place = .holding ret (some p)) :
    ∃ s', s.handon r p = .ok s' ∧ Inv s' ∧ s'.table = s.table := by
  have htag : x.place.tagged = true := by rw [hplace]; rfl
  obtain ⟨hmuxer, hp⟩ := h.reply_eq_none hx (by rw [hplace]; rfl)
  have hw := h.enter hx htag hp (q := some p) (by rw [hplace]; rfl)
  obtain ⟨s2, x', hrun, hw2, hm2, hx2, hplace2, htable2, hcase⟩ :=
    hw.muxmsgandqlock (x := { x with place := .running }) (if_pos rfl) rfl hmuxer hp
  have htag2 : x'.place.tagged = true := by rw [hplace2]; rfl
  have hin2 : x'.place.inside = true := by rw [hplace2]; rfl
  rw [Sys.handon, Sys.goto_eq hx, hrun]
  simp only [bind, Except.bind, hx2]
  rcases hcase with ⟨hp2, hsleep⟩ | ⟨hp2, hsleep⟩
  · -- the packet was for another one
    rw [if_pos hp2, Sys.goto_eq hx2]
    refine ⟨_, rfl, hw2.goto hx2 htag2 rfl rfl ?_ ?_, htable2⟩
    · exact hw2.roles.goto hx2 htag2.symm (fun _ => hm2) nofun nofun nofun nofun
        (fun _ => .inr ⟨hp2, .inl rfl⟩) (fun _ _ _ => hsleep)
    · exact hw2.mail.goto hx2 htag2.symm nofun (by rw [hplace2]; rfl)
  · rw [if_neg hp2]
    obtain ⟨hw3, hm3, hx3, hs3, -, htable3, -⟩ := hw2.electmuxer hx2 hm2 hin2 (.inr hsleep)
    have hfinish := hw3.finish hx3 htag2 (hs3 ▸ hsleep) hm3 (hand_of_inside hin2) (.inl hp2)
      (.inl hp2)
    rwa [htable3, htable2] at hfinish

end

/-- A call of `muxrpccanfinish` returns without a response. -/
theorem Inv.record (h : Inv s) {e : Return} (he : e.p = none) :
    Inv { s with returned := e :: s.returned } :=
  ⟨h.tags.of_eq rfl, h.roles.of_eq rfl, h.mail.record he, h.outside⟩

/-- A muxer that has received nothing. -/
theorem Inv.nothing (h : Inv s) (hx : s.rpcs r = some x) {ret : Bool}
    (hplace : x.place = .holding ret none) :
    ∃ s', s.nothing r x ret = .ok s' ∧ Inv s' ∧ s'.table = s.table := by
  have htag : x.place.tagged = true := by rw [hplace]; rfl
  obtain ⟨hmuxer, hp⟩ := h.reply_eq_none hx (by rw [hplace]; rfl)
  have hsleep := h.roles.listed r x hx htag (by rw [hplace]; nofun) hp
  rw [Sys.nothing]
  by_cases hasync : x.async = true
  · obtain ⟨y, hy⟩ : ∃ y : Rpc, y = { x with place := .running } := ⟨_, rfl⟩
    have hw := h.enter hx htag hp (q := none) (by rw [hplace]; rfl)
    rw [if_pos hasync, Sys.goto_eq hx]
    rw [← hy] at hw ⊢
    have hxy : (s.put r (some y)).rpcs r = some y := if_pos rfl
    have hin : y.place.inside = true := by rw [hy]; rfl
    have hytag : y.place.tagged = true := by rw [hy]; rfl
    obtain ⟨hw2, hm2, hx2, hs2, -, htable, -⟩ :=
      hw.electmuxer hxy hmuxer hin (.inl (by rw [hy]; exact hasync))
    rw [Sys.pollend, if_neg (by simp [hp]), Sys.goto_eq hx2]
    refine ⟨_, rfl, Inv.record (hw2.goto hx2 hytag rfl rfl ?_ ?_) rfl, htable⟩
    · exact hw2.roles.goto hx2 hytag.symm nofun nofun (fun _ => by rw [hy]; exact hasync) nofun
        nofun (fun hm => absurd hm hm2) (fun _ _ _ => hs2 ▸ hsleep)
    · exact hw2.mail.goto hx2 hytag.symm nofun (hand_of_inside hin).symm
  · -- the end of file: the request leaves the list first
    rw [if_neg hasync, Sys.goto_eq hx]
    obtain ⟨y, hy⟩ : ∃ y : Rpc, y = { x with place := .leaving } := ⟨_, rfl⟩
    obtain ⟨s1, hs1⟩ : ∃ s1 : Sys, s1 = { s.put r (some y) with sleep := s.sleep.erase r } :=
      ⟨_, rfl⟩
    have hmail : Mail (s.put r (some { x with place := .leaving })) none :=
      h.mail.goto hx htag.symm nofun (by rw [hplace]; rfl)
    have htags : Tags (s.put r (some { x with place := .leaving })) :=
      h.tags.congr (.put hx htag rfl rfl)
    have hw : Within s1 r none := by
      rw [hs1, hy]
      refine ⟨htags.of_eq rfl, h.roles.leave x, hmail.of_eq rfl, ?_⟩
      intro r' x' hr' hx'
      exact h.outside r' x' ((if_neg hr').symm.trans hx')
    have hdequeue : (s.put r (some y)).dequeue r = .ok s1 := by
      rw [hs1]
      exact if_pos hsleep
    have hxy : s1.rpcs r = some y := by
      rw [hs1]
      exact if_pos rfl
    have hin : y.place.inside = true := by rw [hy]; rfl
    have hytag : y.place.tagged = true := by rw [hy]; rfl
    have hout : r ∉ s1.sleep := by
      rw [hs1]
      exact fun hr => (h.roles.nodup.mem_erase_iff.mp hr).1 rfl
    have hup : s.hungup = true := h.roles.eof r x ret hx hplace (by simpa using hasync)
    obtain ⟨hw2, hm2, hx2, hs2, hup2, htable, hnone⟩ :=
      hw.electmuxer hxy (by rw [hs1]; exact hmuxer) hin (.inr hout)
    rw [← hy, hdequeue]
    have hsame : s1.electmuxer.finish r x = s1.electmuxer.finish r y := by
      rw [hy]
      rfl
    simp only [bind, Except.bind, hsame]
    have hfinish := hw2.finish hx2 hytag (hs2 ▸ hout) hm2 (hand_of_inside hin)
      (.inr (by rw [hup2, hs1]; exact hup)) (.inr hnone)
    rwa [htable, show s1.table = s.table by rw [hs1]; rfl] at hfinish

/-- A call is put where it is outside of the lock. -/
theorem Inv.outside_put (h : Inv s) (hx : x.place.inside = false) :
    ∀ r' x', (s.put r (some x)).rpcs r' = some x' → x'.place.inside = false := by
  intro r' x' hx'
  change (if r' = r then _ else s.rpcs r') = some x' at hx'
  split_ifs at hx'
  · cases hx'
    exact hx
  · exact h.outside r' x' hx'

section Muxer

variable (h : Inv s) (hx : s.rpcs r = some x)
include h hx

/-- A thread becomes the muxer, and goes to receive. -/
theorem Inv.become (htag : x.place.tagged = true) (hp : x.p = none) (hhand : x.place.hand = none)
    (hfree : s.muxer = none ∨ s.muxer = some r) :
    Inv ({ s with muxer := some r }.goto r .receiving) := by
  have hne : x.place ≠ .leaving := by
    intro hl
    simpa [hl, inside] using h.outside r x hx
  have htags : Tags (s.put r (some { x with place := .receiving })) :=
    h.tags.congr (.put hx htag rfl rfl)
  have hmail : Mail (s.put r (some { x with place := .receiving })) none :=
    h.mail.goto hx htag.symm (by simp) hhand.symm
  rw [goto_eq (by exact hx)]
  exact ⟨htags.of_eq rfl, h.roles.become hx htag hp hne hfree, hmail.of_eq rfl, h.outside_put rfl⟩

/-- `muxrpc` takes the lock. -/
theorem Inv.look (hplace : x.place = .waiting) :
    ∃ s', s.muxrpc r x = .ok s' ∧ Inv s' ∧ s'.table = s.table := by
  have htag : x.place.tagged = true := by rw [hplace]; rfl
  have hne : x.place ≠ .leaving := by rw [hplace]; nofun
  have hhand : x.place.hand = none := by rw [hplace]; rfl
  have hw := h.within r
  have hsync := h.roles.waiting r x hx hplace
  rw [muxrpc]
  by_cases hp : x.p = none
  · have hsleep := h.roles.listed r x hx htag hne hp
    by_cases hother : s.muxer ≠ none ∧ s.muxer ≠ some r
    · rw [if_pos ⟨hother.1, hother.2, hp⟩, goto_eq hx]
      refine ⟨_, rfl, hw.goto hx htag rfl rfl ?_ ?_, rfl⟩
      · exact h.roles.goto hx htag.symm nofun (fun _ => ⟨hsync, hp, hother.1⟩) nofun nofun nofun
          (fun hm => absurd hm hother.2) (fun _ _ _ => hsleep)
      · exact h.mail.goto hx htag.symm nofun hhand.symm
    · have hfree : s.muxer = none ∨ s.muxer = some r := by
        by_contra hno
        exact hother (not_or.mp hno)
      rw [if_neg (fun hc => hother ⟨hc.1, hc.2.1⟩), if_pos hp, if_neg hother]
      exact ⟨_, rfl, h.become hx htag hp hhand hfree, rfl⟩
  · rw [if_neg (fun hc => hp hc.2.2), if_neg hp]
    exact h.finish hx hp

/-- `muxrpccanfinish` takes the lock. -/
theorem Inv.poll (hplace : x.place = .idle) :
    ∃ s', s.muxrpccanfinish r x = .ok s' ∧ Inv s' ∧ s'.table = s.table := by
  have htag : x.place.tagged = true := by rw [hplace]; rfl
  have hhand : x.place.hand = none := by rw [hplace]; rfl
  rw [muxrpccanfinish]
  by_cases hmux : x.p = none ∧ s.muxer = none
  · rw [if_pos hmux]
    exact ⟨_, rfl, h.become hx htag hmux.1 hhand (.inl hmux.2), rfl⟩
  rw [if_neg hmux, pollend]
  by_cases hp : x.p = none
  · rw [if_neg (not_not.mpr hp)]
    have hsame : s.goto r .idle = s := by
      rw [goto_eq hx, ← hplace]
      exact put_self hx
    rw [hsame]
    exact ⟨_, rfl, h.record rfl, rfl⟩
  · rw [if_pos hp]
    exact h.finish hx hp

/-- A request is sent. -/
theorem Inv.send (hplace : x.place = .sending) :
    Inv { s.goto r (if x.async then .idle else .waiting) with net := ⟨x.tag, x.tx⟩ :: s.net } := by
  have htag : x.place.tagged = true := by rw [hplace]; rfl
  have hsleep := h.roles.listed r x hx htag (by rw [hplace]; simp)
  obtain ⟨pl, hpl⟩ : ∃ pl : Place, pl = if x.async then .idle else .waiting := ⟨_, rfl⟩
  have hcase : x.async = true ∧ pl = .idle ∨ x.async = false ∧ pl = .waiting := by
    rw [hpl]
    cases x.async
    · exact .inr ⟨rfl, rfl⟩
    · exact .inl ⟨rfl, rfl⟩
  have hptag : pl.tagged = true := by rcases hcase with ⟨-, rfl⟩ | ⟨-, rfl⟩ <;> rfl
  have hpmux : pl.muxing = false := by rcases hcase with ⟨-, rfl⟩ | ⟨-, rfl⟩ <;> rfl
  have htags : Tags (s.put r (some { x with place := pl })) := h.tags.congr (.put hx htag hptag rfl)
  have hroles : Roles (s.put r (some { x with place := pl })) := by
    refine h.roles.goto hx (hptag.trans htag.symm) ?_ ?_ ?_ ?_ ?_ ?_ (fun _ _ => hsleep)
    · simp [hpmux]
    · rcases hcase with ⟨-, rfl⟩ | ⟨-, rfl⟩ <;> simp
    · rcases hcase with ⟨hasync, -⟩ | ⟨-, rfl⟩
      · exact fun _ => hasync
      · simp
    · rcases hcase with ⟨-, rfl⟩ | ⟨hsync, -⟩
      · simp
      · exact fun _ => hsync
    · rcases hcase with ⟨-, rfl⟩ | ⟨-, rfl⟩ <;> simp
    · -- only a request of muxrpc was elected while it was sending
      intro hm
      obtain ⟨y, hy, hact⟩ := h.roles.muxer r hm
      cases hx.symm.trans hy
      rcases hact with hin | ⟨hp, hmux | ⟨hsync, -⟩⟩
      · simp [hplace, inside] at hin
      · simp [hplace, muxing] at hmux
      · rcases hcase with ⟨hasync, -⟩ | ⟨-, hw⟩
        · simp [hasync] at hsync
        · exact .inr ⟨hp, .inr ⟨hsync, .inr hw⟩⟩
  rw [← hpl, goto_eq hx]
  refine ⟨htags.of_eq rfl, hroles.of_eq rfl, ?_, ?_⟩
  · refine h.mail.send hx hplace hptag ?_ ?_ <;> rcases hcase with ⟨-, rfl⟩ | ⟨-, rfl⟩
    · simp
    · simp
    · rfl
    · rfl
  · refine h.outside_put ?_
    rcases hcase with ⟨-, rfl⟩ | ⟨-, rfl⟩ <;> rfl

/-- Something is received. -/
theorem Inv.recv (hplace : x.place = .receiving) (hup : s.hungup = false) (hp : p ∈ s.net) :
    Inv { s.goto r (.holding true (some p)) with
      net := s.net.erase p, received := p :: s.received } := by
  have htag : x.place.tagged = true := by rw [hplace]; rfl
  have hne : x.place ≠ .leaving := by rw [hplace]; nofun
  obtain ⟨hmuxer, hnone⟩ := h.reply_eq_none hx (by rw [hplace]; rfl)
  have hhands := h.roles.hand_eq_none hmuxer hx (by rw [hplace]; rfl)
  have htags : Tags (s.put r (some { x with place := .holding true (some p) })) :=
    h.tags.congr (.put hx htag rfl rfl)
  have hroles : Roles (s.put r (some { x with place := .holding true (some p) })) :=
    h.roles.goto hx htag.symm (fun _ => hmuxer) nofun nofun nofun nofun
      (fun _ => .inr ⟨hnone, .inl rfl⟩) (fun _ _ _ => h.roles.listed r x hx htag hne hnone)
  rw [goto_eq hx]
  exact ⟨htags.of_eq rfl, hroles.of_eq rfl, h.mail.recv hx hup hp hhands, h.outside_put rfl⟩

/-- Nothing is received. -/
theorem Inv.norecv (hplace : x.place = .receiving) (hsync : x.async = true ∨ s.hungup = true)
    (ret : Bool) : Inv (s.goto r (.holding ret none)) := by
  have htag : x.place.tagged = true := by rw [hplace]; rfl
  have hne : x.place ≠ .leaving := by rw [hplace]; nofun
  obtain ⟨hmuxer, hnone⟩ := h.reply_eq_none hx (by rw [hplace]; rfl)
  rw [goto_eq hx]
  refine (h.within r).goto hx htag rfl rfl ?_ (h.mail.goto hx htag.symm nofun (by rw [hplace]; rfl))
  refine h.roles.goto hx htag.symm (fun _ => hmuxer) nofun nofun nofun ?_
    (fun _ => .inr ⟨hnone, .inl rfl⟩) (fun _ _ _ => h.roles.listed r x hx htag hne hnone)
  intro _ _ hs
  exact hsync.resolve_left (by simp [hs])

end Muxer

theorem Sys.found_eq {i : Nat} (hfree : s.freeslot = some i) (hx : s.rpcs r = some x) :
    s.found r = .ok { s.put r (some { x with tag := .ofNat i + s.mintag, place := .sending }) with
      nwait := s.nwait + 1, wait := s.wait.set i (some r), sleep := r :: s.sleep } := by
  rw [found, hfree]
  simp only [modify, hx, map_some]
  rfl

section

variable (h : Inv s) (hx : s.rpcs r = some x) (hplace : x.place = .tagging)
include h hx hplace

theorem Inv.found (hlt : s.nwait < s.mwait) :
    ∃ s', s.found r = .ok s' ∧ Inv s' ∧ s'.table = s.table := by
  have htag : x.place.tagged = false := by rw [hplace]; rfl
  obtain ⟨i, hfree, hi⟩ := h.tags.freeslot hlt
  refine ⟨_, found_eq hfree hx, ⟨?_, ?_, ?_, ?_⟩, rfl⟩
  · exact (h.tags.found hx hplace hi).of_eq rfl
  · exact (h.roles.found hx htag (h.mail.early r x hx (.inl htag)) _).of_eq rfl
  · exact (h.mail.found hx htag _).of_eq rfl
  · exact h.outside_put rfl

/-- `tagmuxrpc` takes the lock. -/
theorem Inv.tag (hres : s.tagmuxrpc r = some res) : ∃ s', res = .ok s' ∧ Inv s' ∧ Sized s s' := by
  have htag : x.place.tagged = false := by rw [hplace]; rfl
  rw [tagmuxrpc] at hres
  by_cases hfull : s.nwait = s.mwait
  · rw [if_pos hfull] at hres
    split_ifs at hres with hmore hsmall
    · cases hres
      obtain ⟨htags, hlt⟩ := h.tags.grow hfull hmore hsmall
      have hgrow : Inv s.grow := ⟨htags, h.roles.of_eq rfl, h.mail.of_eq rfl, h.outside⟩
      obtain ⟨s', hs', hinv, htable⟩ := hgrow.found hx hplace hlt
      exact ⟨s', hs', hinv, .inr ⟨htable, hmore⟩⟩
    · cases hres
      refine ⟨_, rfl, ?_, .inl rfl⟩
      rw [goto_eq hx]
      exact ⟨h.tags.sleep hx hplace hfull (by omega), (h.roles.goto_untagged hx htag rfl).of_eq rfl,
        (h.mail.goto_untagged hx htag rfl).of_eq rfl, h.outside_put rfl⟩
  · rw [if_neg hfull] at hres
    cases hres
    have hle := h.tags.nwait_le
    obtain ⟨s', hs', hinv, htable⟩ := h.found hx hplace (by omega)
    exact ⟨s', hs', hinv, .inl htable⟩

end

/-- A call begins. -/
theorem Inv.start (h : Inv s) (hr : s.rpcs r = none) (async : Bool) :
    Inv { s.put r (some ⟨s.next, async, 0, none, .tagging⟩) with next := s.next + 1 } := by
  exact ⟨(h.tags.start hr rfl).of_eq rfl, (h.roles.start hr rfl).of_eq rfl, h.mail.start hr async,
    h.outside_put rfl⟩

/-! ## Runs -/

theorem Inv.init (mintag maxtag : UInt32) : Inv (muxinit mintag maxtag) where
  tags := by
    constructor <;> simp [muxinit, tagOf, rendOf]
  roles := by
    constructor <;> simp [muxinit]
  mail := by
    constructor <;> simp [muxinit, settled]
  outside := nofun

/-- **A step keeps the invariant**, and the program does not die. -/
theorem Inv.exec (h : Inv s) {a : Act} (hres : exec s a = some res) :
    ∃ s', res = .ok s' ∧ Inv s' ∧ Sized s s' := by
  cases a with
  | start r async =>
    rw [Mux.exec] at hres
    split_ifs at hres with hr
    cases hres
    exact ⟨_, rfl, h.start hr async, .inl rfl⟩
  | tag r =>
    obtain ⟨x, hx, hres⟩ := bind_eq_some_iff.mp hres
    split_ifs at hres with hplace
    exact h.tag hx hplace hres
  | send r =>
    obtain ⟨x, hx, hres⟩ := bind_eq_some_iff.mp hres
    by_cases hplace : x.place = .sending ∧ x.tag.toNat < 2 ^ 31
    · rw [if_pos hplace] at hres
      cases hres
      exact ⟨_, rfl, h.send hx hplace.1, .inl rfl⟩
    · rw [if_neg hplace] at hres
      cases hres
  | look r =>
    obtain ⟨x, hx, hres⟩ := bind_eq_some_iff.mp hres
    split_ifs at hres with hplace
    cases hres
    obtain ⟨s', hs', hinv, htable⟩ := h.look hx hplace
    exact ⟨s', hs', hinv, .inl htable⟩
  | poll r =>
    obtain ⟨x, hx, hres⟩ := bind_eq_some_iff.mp hres
    split_ifs at hres with hplace
    cases hres
    obtain ⟨s', hs', hinv, htable⟩ := h.poll hx hplace
    exact ⟨s', hs', hinv, .inl htable⟩
  | recv r p =>
    obtain ⟨x, hx, hres⟩ := bind_eq_some_iff.mp hres
    split_ifs at hres with hplace
    cases hres
    exact ⟨_, rfl, h.recv hx hplace.1 hplace.2.1 hplace.2.2, .inl rfl⟩
  | norecv r ret =>
    obtain ⟨x, hx, hres⟩ := bind_eq_some_iff.mp hres
    split_ifs at hres with hplace
    cases hres
    exact ⟨_, rfl, h.norecv hx hplace.1 hplace.2 ret, .inl rfl⟩
  | deliver r =>
    obtain ⟨x, hx, hres⟩ := bind_eq_some_iff.mp hres
    split at hres
    · next ret p hplace =>
      cases hres
      obtain ⟨s', hs', hinv, htable⟩ := h.handon hx hplace
      exact ⟨s', hs', hinv, .inl htable⟩
    · next ret hplace =>
      cases hres
      obtain ⟨s', hs', hinv, htable⟩ := h.nothing hx hplace
      exact ⟨s', hs', hinv, .inl htable⟩
    · cases hres
  | hangup =>
    cases hres
    refine ⟨_, rfl, ⟨h.tags.of_eq rfl, ?_, h.mail.hangup, h.outside⟩, .inl rfl⟩
    obtain ⟨h1, h2, h3, h4, h5, h6, h7, h8, -⟩ := h.roles
    exact ⟨h1, h2, h3, h4, h5, h6, h7, h8, fun _ _ _ _ _ _ => rfl⟩

theorem Reachable.inv {mintag maxtag : UInt32} (h : Reachable mintag maxtag s) : Inv s := by
  induction h with
  | init => exact Inv.init mintag maxtag
  | step a _ hexec ih =>
    obtain ⟨s', heq, hinv, -⟩ := ih.exec hexec
    cases heq
    exact hinv

/-- What the callers see in a state. -/
structure Delivers (s : Sys) : Prop where
  /-- requests that wait have different tags -/
  tags : ∀ r r' x x', s.rpcs r = some x → s.rpcs r' = some x' → x.place.tagged = true →
    x'.place.tagged = true → x.tag = x'.tag → r = r'
  /-- there is at most one muxer -/
  muxer : ∀ r r' x x', s.rpcs r = some x → s.rpcs r' = some x' → x.place.muxing = true →
    x'.place.muxing = true → r = r'
  /-- a request gets its own response -/
  reply : ∀ r x p, s.rpcs r = some x → x.p = some p → p.req = x.tx ∧ p.tag = x.tag
  returned : ∀ e ∈ s.returned, ∀ p, e.p = some p → p.req = e.req ∧ p.tag = e.tag
  once : (settled s.returned).Nodup
  /-- a response that was received is with the muxer while its request waits, or with its request,
  or it was returned -/
  kept : ∀ p ∈ s.received,
    (∃ r x, s.rpcs r = some x ∧ s.muxer = some r ∧ x.place.hand = some p ∧ Awaits s.rpcs p) ∨
    (∃ r x, s.rpcs r = some x ∧ x.p = some p) ∨ ∃ e ∈ s.returned, e.p = some p
  /-- who sleeps has no reply, and there is another one who is the muxer and awake -/
  asleep : ∀ r x, s.rpcs r = some x → x.place = .asleep → x.p = none ∧
    ∃ m y, m ≠ r ∧ s.muxer = some m ∧ s.rpcs m = some y ∧ y.place ≠ .asleep
  /-- who sleeps without a tag does so while all tags are in use, or another one is awake that is
  going to take one -/
  tagAsleep : ∀ r x, s.rpcs r = some x → x.place = .tagAsleep →
    s.nwait = s.mwait ∧ (s.maxtag - s.mintag).toNat ≤ s.mwait ∨
    ∃ r' x', s.rpcs r' = some x' ∧ x'.place = .tagging
  /-- the program does not die -/
  lives : ∀ a res, exec s a = some res → ∃ s', res = .ok s'

/-- **Each reply is delivered to its request**, in every interleaving. -/
theorem mux_delivers {mintag maxtag : UInt32} (h : Reachable mintag maxtag s) : Delivers s := by
  have hinv := h.inv
  have hroles := hinv.roles
  have hmail := hinv.mail
  constructor
  · intro r r' x x' hx hx' htag htag' heq
    refine hinv.tags.tagOf_inj (t := x.tag) ?_ ?_
    · simp [tagOf, hx, htag]
    · simp [tagOf, hx', htag', heq]
  · intro r r' x x' hx hx' hm hm'
    exact some.inj ((hroles.muxing r x hx hm).symm.trans (hroles.muxing r' x' hx' hm'))
  · exact hmail.reply
  · intro e he p hp
    obtain ⟨hreq, htag, -⟩ := hmail.returned e he p hp
    exact ⟨hreq, htag⟩
  · exact hmail.once
  · intro p hp
    rcases hmail.kept p hp with ⟨r, x, hx, hhand | hreply⟩ | hq | he
    · exact .inl ⟨r, x, hx, hroles.muxing r x hx (muxing_of_hand hhand), hhand,
        (hmail.hand r x p hx hhand).1⟩
    · exact .inr (.inl ⟨r, x, hx, hreply⟩)
    · cases hq
    · exact .inr (.inr he)
  · intro r x hx hasleep
    obtain ⟨-, hp, hne⟩ := hroles.asleep r x hx hasleep
    obtain ⟨m, hm⟩ := ne_none_iff_exists'.mp hne
    obtain ⟨y, hy, hact⟩ := hroles.muxer m hm
    refine ⟨hp, m, y, ?_, hm, hy, hact.ne_asleep⟩
    rintro rfl
    cases hx.symm.trans hy
    exact hact.ne_asleep hasleep
  · intro r x hx hasleep
    have hmem : r ∈ s.tagrend := by
      rw [hinv.tags.tagrend]
      simp [rendOf, hx, hasleep, tagged]
    obtain ⟨hmost, L, -, htagging, hcount⟩ := hinv.tags.full (List.ne_nil_of_mem hmem)
    rcases L with _ | ⟨r', L⟩
    · exact .inl ⟨Nat.le_antisymm hinv.tags.nwait_le (by simpa using hcount), hmost⟩
    · have hr' := htagging r' (.head _)
      rw [rendOf, bind_eq_some_iff] at hr'
      obtain ⟨x', hx', hplace⟩ := hr'
      split_ifs at hplace
      exact .inr ⟨r', x', hx', some.inj hplace⟩
  · intro a res hres
    obtain ⟨s', heq, -⟩ := hinv.exec hres
    exact ⟨s', heq⟩

/-- Two calls of `muxrpc`: the first one is the muxer and has received the reply of the second,
which sleeps. -/
theorem mux_delivers_two : ∃ s, Reachable 0 256 s ∧
    (s.rpcs 0).map Rpc.place = some (.holding true (some ⟨1, 1⟩)) ∧
    (s.rpcs 1).map Rpc.place = some .asleep ∧ Delivers s := by
  obtain ⟨s, hs, h0, h1⟩ := Reachable.exists_of_execs 0 256
    [.start 0 false, .start 1 false, .tag 0, .tag 1, .send 0, .send 1, .look 0, .look 1,
      .recv 0 ⟨1, 1⟩]
    (fun s => (s.rpcs 0).map Rpc.place = some (.holding true (some ⟨1, 1⟩)) ∧
      (s.rpcs 1).map Rpc.place = some .asleep) (by decide)
  exact ⟨s, hs, h0, h1, mux_delivers hs⟩

/-- One tag, which is in use by a request that nobody polls: a caller of `muxrpc` sleeps, although
there is no muxer and no reply for it. -/
theorem muxrpc_sleeps_without_muxer : ∃ s, Reachable 0 1 s ∧
    (s.rpcs 1).map Rpc.place = some .tagAsleep ∧ (s.rpcs 1).map Rpc.p = some none ∧
    s.muxer = none :=
  Reachable.exists_of_execs 0 1 [.start 0 true, .tag 0, .send 0, .start 1 false, .tag 1] _
    (by decide)

/-! ## The range of the tags -/

/-- The table is empty, or its size is a power of two within the range. -/
theorem Reachable.mwait_pow {mintag maxtag : UInt32} {k : Nat} (h : Reachable mintag maxtag s)
    (hpow : (maxtag - mintag).toNat = 2 ^ k) :
    s.mintag = mintag ∧ s.maxtag = maxtag ∧ (s.mwait = 0 ∨ ∃ j ≤ k, s.mwait = 2 ^ j) := by
  induction h with
  | init => exact ⟨rfl, rfl, .inl rfl⟩
  | step a hs hexec ih =>
    obtain ⟨hmin, hmax, hmwait⟩ := ih
    obtain ⟨s', heq, -, hsized⟩ := hs.inv.exec hexec
    cases heq
    simp only [Sized, table, grow, Prod.mk.injEq] at hsized
    rcases hsized with ⟨h1, h2, h3⟩ | ⟨⟨h1, h2, h3⟩, hmore⟩
    · exact ⟨h1.trans hmin, h2.trans hmax, h3 ▸ hmwait⟩
    refine ⟨h1.trans hmin, h2.trans hmax, .inr ?_⟩
    rw [hmin, hmax, hpow] at hmore
    rw [h3, grown]
    rcases hmwait with hzero | ⟨j, hj, heq⟩
    · exact ⟨0, Nat.zero_le k, if_pos hzero⟩
    · rw [heq] at hmore ⊢
      refine ⟨j + 1, (Nat.pow_lt_pow_iff_right (by omega)).mp hmore, ?_⟩
      rw [if_neg (Nat.ne_of_gt (Nat.two_pow_pos j)), Nat.shiftLeft_eq, Nat.pow_succ]
      rfl

/-- **Tags stay in their range**, if there is a power of two of them: `gettag` gives none outside of
it, and sleeps when all of them are in use. -/
theorem gettag_in_range {mintag maxtag : UInt32} {k : Nat} (hlt : mintag < maxtag)
    (hpow : (maxtag - mintag).toNat = 2 ^ k) (h : Reachable mintag maxtag s) :
    (∀ r t, s.tagOf r = some t → mintag ≤ t ∧ t < maxtag) ∧
    ∀ r s', s.nwait = (maxtag - mintag).toNat → exec s (.tag r) = some (.ok s') →
      (s'.rpcs r).map Rpc.place = some .tagAsleep := by
  obtain ⟨rfl, rfl, hmwait⟩ := h.mwait_pow hpow
  have htags := h.inv.tags
  have hle : s.mwait ≤ (s.maxtag - s.mintag).toNat := by
    rcases hmwait with hzero | ⟨j, hj, heq⟩
    · omega
    · rw [heq, hpow]
      exact Nat.pow_le_pow_right (by omega) hj
  refine ⟨fun r t ht => ?_, fun r s' hall hexec => ?_⟩
  · have hi := (List.getElem?_eq_some_iff.mp (htags.entered r t ht)).1
    rw [htags.length] at hi
    rw [UInt32.toNat_sub_of_le _ _ (UInt32.le_of_lt hlt)] at hle
    rw [UInt32.lt_iff_toNat_lt] at hlt
    have hmax := s.maxtag.toNat_lt
    -- a tag is its place in the table and `mintag`
    have hsum := congrArg UInt32.toNat (UInt32.sub_add_cancel t s.mintag)
    rw [UInt32.toNat_add, Nat.mod_eq_of_lt (by omega)] at hsum
    rw [UInt32.le_iff_toNat_le, UInt32.lt_iff_toNat_lt]
    omega
  · obtain ⟨x, hx, hexec⟩ := bind_eq_some_iff.mp hexec
    split_ifs at hexec
    have hcount := htags.nwait_le
    rw [tagmuxrpc, if_pos (by omega), if_neg (by omega)] at hexec
    cases hexec
    simp [goto_eq hx, put_rpcs]

/-- Two tags, both in use, and a third request. -/
theorem gettag_in_range_two : ∃ s s', Reachable 5 7 s ∧ exec s (.tag 2) = some (.ok s') ∧
    (∀ r t, s.tagOf r = some t → 5 ≤ t ∧ t < 7) ∧
    (s'.rpcs 2).map Rpc.place = some .tagAsleep := by
  obtain ⟨s, hs, hn, hasks⟩ := Reachable.exists_of_execs 5 7
    [.start 0 false, .start 1 false, .start 2 false, .tag 0, .tag 1]
    (fun s => s.nwait = 2 ∧ (exec s (.tag 2)).isSome) (by decide)
  obtain ⟨res, hexec⟩ := isSome_iff_exists.mp hasks
  obtain ⟨s', rfl, -⟩ := hs.inv.exec hexec
  obtain ⟨hrange, hsleep⟩ := gettag_in_range (k := 1) (by decide) (by decide) hs
  exact ⟨s, s', hs, hexec, hrange, hsleep 2 s' hn hexec⟩

/-- Three tags, and four requests: `wait` has four places then, and the tag of the last request is
outside of the range. -/
theorem gettag_outside_range : ∃ s, Reachable 0 3 s ∧ s.tagOf 3 = some 3 :=
  Reachable.exists_of_execs 0 3 [.start 0 false, .start 1 false, .start 2 false, .start 3 false,
    .tag 0, .tag 1, .tag 2, .tag 3] _ (by decide)

end Plan9Port.Mux
