import Plan9Port.Mux.Tags

/-!
# Roles and mail

Who is the muxer, who sleeps, and where the responses are. Nobody sleeps without a muxer that is
awake, and only the muxer holds a response that is not delivered yet.
-/

namespace Plan9Port.Mux

open Sys Place List

variable {s s' : Sys} {r : RpcId} {x : Rpc} {p : Packet} {pl : Place}

/-! ## Roles -/

/-- Who is on the list `sleep`, who is the muxer, and who sleeps. -/
structure Roles (s : Sys) : Prop where
  nodup : s.sleep.Nodup
  sleep : ∀ r ∈ s.sleep, ∃ x, s.rpcs r = some x ∧ x.place.tagged = true ∧ x.p = none
  listed : ∀ r x, s.rpcs r = some x → x.place.tagged = true → x.place ≠ .leaving → x.p = none →
    r ∈ s.sleep
  muxer : ∀ m, s.muxer = some m → ∃ x, s.rpcs m = some x ∧ x.Active
  muxing : ∀ r x, s.rpcs r = some x → x.place.muxing = true → s.muxer = some r
  asleep : ∀ r x, s.rpcs r = some x → x.place = .asleep →
    x.async = false ∧ x.p = none ∧ s.muxer ≠ none
  idle : ∀ r x, s.rpcs r = some x → x.place = .idle → x.async = true
  waiting : ∀ r x, s.rpcs r = some x → x.place = .waiting → x.async = false
  eof : ∀ r x ret, s.rpcs r = some x → x.place = .holding ret none → x.async = false →
    s.hungup = true

theorem Rpc.Active.ne_asleep (h : x.Active) : x.place ≠ .asleep := by
  intro heq
  simp [Rpc.Active, heq, inside, muxing] at h

theorem Rpc.Active.tagged (h : x.Active) : x.place.tagged = true := by
  rcases x with ⟨_, _, _, _, _ | _⟩ <;>
    simp_all [Rpc.Active, inside, muxing, tagged]

section

variable (h : Roles s) (hx : s.rpcs r = some x)
include h hx

/-- A thread moves on. -/
theorem Roles.goto (htag : pl.tagged = x.place.tagged)
    (hmuxing : pl.muxing = true → s.muxer = some r)
    (hasleep : pl = .asleep → x.async = false ∧ x.p = none ∧ s.muxer ≠ none)
    (hidle : pl = .idle → x.async = true) (hwaiting : pl = .waiting → x.async = false)
    (heof : ∀ ret, pl = .holding ret none → x.async = false → s.hungup = true)
    (hactive : s.muxer = some r → Rpc.Active { x with place := pl })
    (hlisted : pl.tagged = true → pl ≠ .leaving → x.p = none → r ∈ s.sleep) :
    Roles (s.put r (some { x with place := pl })) := by
  cases h
  constructor <;> first | assumption | grind

/-- A thread without a tag has no role. -/
theorem Roles.goto_untagged (htag : x.place.tagged = false) (htag' : pl.tagged = false) :
    Roles (s.put r (some { x with place := pl })) := by
  refine h.goto hx (htag'.trans htag.symm) ?_ ?_ ?_ ?_ ?_ ?_ ?_
  · intro hm
    simp [tagged_of_muxing hm] at htag'
  · rintro rfl
    cases htag'
  · rintro rfl
    cases htag'
  · rintro rfl
    cases htag'
  · rintro ret rfl
    cases htag'
  · intro hm
    obtain ⟨y, hy, hact⟩ := h.muxer r hm
    cases hx.symm.trans hy
    simp [hact.tagged] at htag
  · simp [htag']

/-- A thread becomes the muxer. -/
theorem Roles.become (htag : x.place.tagged = true) (hp : x.p = none) (hl : x.place ≠ .leaving)
    (hfree : s.muxer = none ∨ s.muxer = some r) :
    Roles { s.put r (some { x with place := .receiving }) with muxer := some r } := by
  have hact : Rpc.Active { x with place := .receiving } := .inr ⟨hp, .inl rfl⟩
  have ht : receiving.tagged = true := rfl
  have hr := h.listed r x hx htag hl hp
  cases h
  constructor <;> first | assumption | grind

end

/-! ## Replies -/

/-- The state with a reply for `r`. -/
def Sys.answer (s : Sys) (r : RpcId) (x : Rpc) (p : Packet) : Sys :=
  { s.put r (some { x with p := some p, place := x.place.woken }) with sleep := s.sleep.erase r }

theorem Roles.answer (h : Roles s) (hx : s.rpcs r = some x)
    (hact : s.muxer = some r → x.place.inside = true) : Roles (s.answer r x p) := by
  have hne := x.place.woken_ne_asleep
  have hact' : x.place.inside = true →
      Rpc.Active { x with p := some p, place := x.place.woken } := by
    intro hin
    exact .inl (by simpa using hin)
  have hwoken : x.place.woken = .waiting → x.place = .waiting ∨ x.place = .asleep := by
    cases x.place <;> simp [woken]
  have hidle : x.place.woken = .idle → x.place = .idle := by
    cases x.place <;> simp [woken]
  have heof : ∀ ret, x.place.woken = .holding ret none → x.place = .holding ret none := by
    cases x.place <;> simp [woken]
  have hmem : ∀ r', r' ∈ s.sleep.erase r ↔ r' ≠ r ∧ r' ∈ s.sleep := fun r' =>
    h.nodup.mem_erase_iff
  have hnodup : (s.sleep.erase r).Nodup := h.nodup.erase r
  cases h
  unfold Sys.answer
  constructor <;> first | assumption | grind [muxing_woken, tagged_woken]

/-- A request is given up. -/
theorem Roles.leave (h : Roles s) (x : Rpc) :
    Roles { s.put r (some { x with place := .leaving }) with sleep := s.sleep.erase r } := by
  have hactive : Rpc.Active { x with place := .leaving } := .inl rfl
  have hm : leaving.muxing = false := rfl
  have hmem : ∀ r', r' ∈ s.sleep.erase r ↔ r' ≠ r ∧ r' ∈ s.sleep := fun r' =>
    h.nodup.mem_erase_iff
  have hnodup : (s.sleep.erase r).Nodup := h.nodup.erase r
  cases h
  constructor <;> first | assumption | grind

/-- Whom `electmuxer` finds. -/
def Sys.candidate (s : Sys) : Option RpcId := s.sleep.find? fun r => (s.rpcs r).any (!·.async)

theorem Sys.electmuxer_none (h : s.candidate = none) : s.electmuxer = { s with muxer := none } := by
  rw [candidate] at h
  rw [electmuxer, h]

theorem Sys.electmuxer_some (h : s.candidate = some r) (hx : s.rpcs r = some x) :
    s.electmuxer = { s.put r (some { x with place := x.place.woken }) with muxer := some r } := by
  rw [candidate] at h
  rw [electmuxer, h]
  exact rwakeup_eq hx

section

variable (h : Roles s)
include h

/-- A candidate waits in a call of `muxrpc`. -/
theorem Roles.candidate (hr : s.candidate = some r) :
    r ∈ s.sleep ∧
      ∃ x, s.rpcs r = some x ∧ x.place.tagged = true ∧ x.p = none ∧ x.async = false := by
  rw [Sys.candidate] at hr
  have hmem := mem_of_find?_eq_some hr
  obtain ⟨x, hx, htag, hp⟩ := h.sleep r hmem
  exact ⟨hmem, x, hx, htag, hp, by simpa [hx] using find?_some hr⟩

/-- A thread hands the role of the muxer on. -/
theorem Roles.electmuxer (hx : s.rpcs r = some x) (hmuxer : s.muxer = some r)
    (hin : x.place.inside = true) (hout : x.async = true ∨ r ∉ s.sleep) :
    Roles s.electmuxer ∧ s.electmuxer.muxer ≠ some r := by
  have hnone : ∀ r' x', s.rpcs r' = some x' → x'.place.muxing = false := by
    intro r' x' hx'
    by_contra hm
    have heq := (h.muxing r' x' hx' (by simpa using hm)).symm.trans hmuxer
    cases heq
    cases hx.symm.trans hx'
    exact hm (Place.muxing_of_inside hin)
  rcases hfind : s.candidate with _ | m
  · -- whoever sleeps would have been found
    have hall : ∀ r' x', s.rpcs r' = some x' → x'.place ≠ .asleep := by
      intro r' x' hx' hasleep
      obtain ⟨hsync, hp, -⟩ := h.asleep r' x' hx' hasleep
      have hr' := h.listed r' x' hx' (by simp [hasleep, Place.tagged]) (by simp [hasleep]) hp
      simpa [hx', hsync] using find?_eq_none.mp hfind r' hr'
    rw [electmuxer_none hfind]
    refine ⟨?_, (by simp)⟩
    cases h
    constructor <;> first | assumption | grind
  · obtain ⟨hm, y, hy, htag, hp, hsync⟩ := h.candidate hfind
    have hne : m ≠ r := by
      rintro rfl
      cases hx.symm.trans hy
      rcases hout with hasync | hnot
      · simp [hasync] at hsync
      · exact hnot hm
    rw [electmuxer_some hfind hy]
    refine ⟨?_, by simpa using hne⟩
    have hidle := h.idle m y hy
    have hactive : Rpc.Active { y with place := y.place.woken } := by
      have := hnone m y hy
      rw [Rpc.Active]
      rcases hpl : y.place <;> simp_all [Place.woken, Place.inside, Place.muxing, Place.tagged]
    have hwoken : y.place.woken ≠ .idle ∧ y.place.woken ≠ .asleep := by
      cases hpl : y.place <;> simp_all [Place.woken]
    have heof : ∀ ret, y.place.woken ≠ .holding ret none := by
      intro ret
      have := hnone m y hy
      cases hpl : y.place <;> simp_all [Place.woken, Place.muxing]
    have hleaving : y.place.woken ≠ .leaving → y.place ≠ .leaving := by
      cases hpl : y.place <;> simp_all [Place.woken]
    cases h
    constructor <;> first | assumption | grind [Place.muxing_woken, Place.tagged_woken]

theorem Roles.of_eq (heq : (s'.rpcs, s'.sleep, s'.muxer, s'.hungup) =
    (s.rpcs, s.sleep, s.muxer, s.hungup)) : Roles s' := by
  simp only [Prod.mk.injEq] at heq
  obtain ⟨hrpcs, hsleep, hmuxer, hhungup⟩ := heq
  obtain ⟨h1, h2, h3, h4, h5, h6, h7, h8, h9⟩ := h
  rw [← hrpcs] at h2 h3 h4 h5 h6 h7 h8 h9
  rw [← hsleep] at h1 h2 h3
  rw [← hmuxer] at h4 h5 h6
  rw [← hhungup] at h9
  exact ⟨h1, h2, h3, h4, h5, h6, h7, h8, h9⟩

theorem Roles.start (hr : s.rpcs r = none) (hx : x.place = .tagging) :
    Roles (s.put r (some x)) := by
  have ht : tagging.tagged = false := rfl
  have hm : tagging.muxing = false := rfl
  cases h
  constructor <;> first | assumption | grind

/-- A thread has got its tag. -/
theorem Roles.found (hx : s.rpcs r = some x) (htag : x.place.tagged = false) (hp : x.p = none)
    (t : UInt32) :
    Roles { s.put r (some { x with tag := t, place := .sending }) with sleep := r :: s.sleep } := by
  have ht : sending.tagged = true := rfl
  have hm : sending.muxing = false := rfl
  have hactive : ∀ y : Rpc, y.Active → y.place.tagged = true := fun _ hy => hy.tagged
  cases h
  constructor <;> first | assumption | grind

theorem Roles.remove (hr : r ∉ s.sleep) (hm : s.muxer ≠ some r) : Roles (s.put r none) := by
  cases h
  constructor <;> first | assumption | grind

end

/-! ## Mail -/

/-- The request of a packet is still waiting for it. -/
def Awaits (rpcs : RpcId → Option Rpc) (p : Packet) : Prop :=
  ∃ r x, rpcs r = some x ∧ x.place.tagged = true ∧ x.place ≠ .sending ∧ x.p = none ∧
    x.tx = p.req ∧ x.tag = p.tag

/-- A thread holds the packet, or has got it as its reply. -/
def Keeps (rpcs : RpcId → Option Rpc) (p : Packet) : Prop :=
  ∃ r x, rpcs r = some x ∧ (x.place.hand = some p ∨ x.p = some p)

/-- The requests for which a response was returned. -/
def settled (returned : List Return) : List Nat := (returned.filter (·.p.isSome)).map Return.req

/-- Where responses are, and whose; `q` is the packet of the thread inside of the lock. -/
structure Mail (s : Sys) (q : Option Packet) : Prop where
  net : s.hungup = false → (s.net.map Packet.req).Nodup ∧ ∀ p ∈ s.net, Awaits s.rpcs p
  hand : ∀ r x p, s.rpcs r = some x → x.place.hand = some p →
    Awaits s.rpcs p ∧ (s.hungup = false → p.req ∉ s.net.map Packet.req)
  inside : ∀ p, q = some p → Awaits s.rpcs p ∧ (s.hungup = false → p.req ∉ s.net.map Packet.req)
  reply : ∀ r x p, s.rpcs r = some x → x.p = some p → p.req = x.tx ∧ p.tag = x.tag
  early : ∀ r x, s.rpcs r = some x → x.place.tagged = false ∨ x.place = .sending → x.p = none
  lt : ∀ r x, s.rpcs r = some x → x.tx < s.next
  inj : ∀ r r' x x', s.rpcs r = some x → s.rpcs r' = some x' → x.tx = x'.tx → r = r'
  returned : ∀ e ∈ s.returned, ∀ p, e.p = some p → p.req = e.req ∧ p.tag = e.tag ∧
    e.req < s.next ∧ ∀ r x, s.rpcs r = some x → x.tx ≠ e.req
  once : (settled s.returned).Nodup
  kept : ∀ p ∈ s.received, Keeps s.rpcs p ∨ q = some p ∨ ∃ e ∈ s.returned, e.p = some p

variable {q : Option Packet}

theorem Mail.of_eq (h : Mail s q)
    (heq : (s'.rpcs, s'.net, s'.hungup, s'.next, s'.received, s'.returned) =
      (s.rpcs, s.net, s.hungup, s.next, s.received, s.returned)) : Mail s' q := by
  simp only [Prod.mk.injEq] at heq
  cases h
  constructor <;> simpa only [heq]

theorem Awaits.put (h : Awaits s.rpcs p) (hx : s.rpcs r = some x) {y : Rpc}
    (hy : x.place.tagged = true → x.place ≠ .sending → x.p = none → x.tx = p.req →
      y.place.tagged = true ∧ y.place ≠ .sending ∧ y.p = none ∧ y.tx = x.tx ∧ y.tag = x.tag) :
    Awaits (s.put r (some y)).rpcs p := by
  obtain ⟨r', x', hx', h1, h2, h3, h4, h5⟩ := h
  by_cases heq : r' = r
  · subst heq
    cases hx.symm.trans hx'
    obtain ⟨g1, g2, g3, g4, g5⟩ := hy h1 h2 h3 h4
    exact ⟨r', y, by rw [put_rpcs, if_pos rfl], g1, g2, g3, g4.trans h4, g5.trans h5⟩
  · exact ⟨r', x', by rwa [put_rpcs, if_neg heq], h1, h2, h3, h4, h5⟩

theorem Keeps.put (h : Keeps s.rpcs p) {y : Option Rpc}
    (hy : ∀ x, s.rpcs r = some x → x.place.hand = some p ∨ x.p = some p →
      ∃ z, y = some z ∧ (z.place.hand = some p ∨ z.p = some p)) : Keeps (s.put r y).rpcs p := by
  obtain ⟨r', x', hx', hkeep⟩ := h
  by_cases heq : r' = r
  · subst heq
    obtain ⟨z, hz, hkeep'⟩ := hy x' hx' hkeep
    exact ⟨r', z, by rw [put_rpcs, if_pos rfl, hz], hkeep'⟩
  · exact ⟨r', x', by rwa [put_rpcs, if_neg heq], hkeep⟩

/-- A thread moves on. -/
theorem Mail.goto (h : Mail s q) (hx : s.rpcs r = some x)
    (htag : pl.tagged = x.place.tagged) (hsending : pl = .sending → x.place = .sending)
    (hhand : pl.hand = x.place.hand) : Mail (s.put r (some { x with place := pl })) q := by
  have hawaits : ∀ p, Awaits s.rpcs p → Awaits (s.put r (some { x with place := pl })).rpcs p := by
    intro p hp
    exact hp.put hx fun h1 h2 h3 _ => ⟨htag.trans h1, fun hs => h2 (hsending hs), h3, rfl, rfl⟩
  have hkeeps : ∀ p, Keeps s.rpcs p → Keeps (s.put r (some { x with place := pl })).rpcs p := by
    intro p hp
    refine hp.put fun x' hx' hkeep => ⟨_, rfl, ?_⟩
    cases hx.symm.trans hx'
    rwa [hhand]
  cases h
  constructor <;> first | assumption | grind

theorem Place.hand_untagged (h : pl.tagged = false) : pl.hand = none := by
  cases pl <;> first | rfl | cases h

theorem Mail.goto_untagged (h : Mail s q) (hx : s.rpcs r = some x) (htag : x.place.tagged = false)
    (htag' : pl.tagged = false) : Mail (s.put r (some { x with place := pl })) q := by
  refine h.goto hx (htag'.trans htag.symm) ?_ ?_
  · rintro rfl
    cases htag'
  · rw [hand_untagged htag, hand_untagged htag']

/-- A thread enters the lock with the packet that it holds. -/
theorem Mail.enter (h : Mail s none) (hx : s.rpcs r = some x) (hhand : x.place.hand = q) :
    Mail (s.put r (some { x with place := .running })) q := by
  have hawaits : ∀ p, Awaits s.rpcs p →
      Awaits (s.put r (some { x with place := .running })).rpcs p := by
    intro p hp
    exact hp.put hx fun _ _ h3 _ => ⟨rfl, nofun, h3, rfl, rfl⟩
  have hkeeps : ∀ p, Keeps s.rpcs p →
      Keeps (s.put r (some { x with place := .running })).rpcs p ∨ q = some p := by
    intro p hp
    by_cases hq : q = some p
    · exact .inr hq
    · refine .inl (hp.put fun x' hx' hkeep => ⟨_, rfl, ?_⟩)
      cases hx.symm.trans hx'
      exact .inr (by simpa [hhand, hq] using hkeep)
  have ht : running.hand = none := rfl
  have ht' : running.tagged = true := rfl
  cases h
  constructor <;> first | assumption | grind

/-- The packet is handed on. -/
theorem Mail.answer (h : Mail s (some p)) (hx : s.rpcs r = some x) (htag : x.place.tagged = true)
    (hsent : x.place ≠ .sending) (hp : x.p = none) (htx : x.tx = p.req) (hptag : x.tag = p.tag)
    (hhand : ∀ r' x', s.rpcs r' = some x' → x'.place.hand = none) :
    Mail (s.put r (some { x with p := some p, place := x.place.woken })) none := by
  obtain ⟨y, hy⟩ : ∃ y : Rpc, y = { x with p := some p, place := x.place.woken } := ⟨_, rfl⟩
  rw [← hy]
  have hawaits : ∀ p', p'.req ≠ p.req → Awaits s.rpcs p' → Awaits (s.put r (some y)).rpcs p' := by
    intro p' hne hp'
    exact hp'.put hx fun _ _ _ htx' => absurd (htx'.symm.trans htx) hne
  have hkeeps : ∀ p', Keeps s.rpcs p' → Keeps (s.put r (some y)).rpcs p' := by
    intro p' hp'
    refine hp'.put fun x' hx' hkeep => ?_
    cases hx.symm.trans hx'
    simp [hp, hhand r x hx] at hkeep
  have hnew : Keeps (s.put r (some y)).rpcs p :=
    ⟨r, y, by rw [put_rpcs, if_pos rfl], .inr (by rw [hy])⟩
  have hyhand : y.place.hand = none := by rw [hy, hand_woken, hhand r x hx]
  have hytag : y.place.tagged = true := by rw [hy, tagged_woken, htag]
  have hysent : y.place ≠ .sending := by
    rw [hy]
    cases hpl : x.place <;> simp_all [woken]
  obtain ⟨h1, h2, h3, h4, h5, h6, h7, h8, h9, h10⟩ := h
  obtain ⟨-, hfresh⟩ := h3 p rfl
  have hnet : ∀ p' ∈ s.net, s.hungup = false → p'.req ≠ p.req := by
    intro p' hp' hup heq
    exact hfresh hup (heq ▸ mem_map_of_mem hp')
  constructor <;> first | assumption | grind

/-- A thread has got its tag. -/
theorem Mail.found (h : Mail s q) (hx : s.rpcs r = some x) (htag : x.place.tagged = false)
    (t : UInt32) : Mail (s.put r (some { x with tag := t, place := .sending })) q := by
  have hp := h.early r x hx (.inl htag)
  have ht : Place.sending.tagged = true := rfl
  have hm : Place.sending.hand = none := rfl
  have hno : x.place.hand = none := by
    cases hpl : x.place <;> simp_all [Place.tagged, Place.hand]
  have hawaits : ∀ p, Awaits s.rpcs p →
      Awaits (s.put r (some { x with tag := t, place := .sending })).rpcs p := by
    intro p hp
    exact hp.put hx fun h1 => by simp [htag] at h1
  have hkeeps : ∀ p, Keeps s.rpcs p →
      Keeps (s.put r (some { x with tag := t, place := .sending })).rpcs p := by
    intro p hkeep
    refine hkeep.put fun x' hx' hk => ?_
    cases hx.symm.trans hx'
    simp [hp, hno] at hk
  cases h
  constructor <;> first | assumption | grind

/-- A new request. -/
theorem Mail.start (h : Mail s q) (hr : s.rpcs r = none) (async : Bool) :
    Mail { s.put r (some ⟨s.next, async, 0, none, .tagging⟩) with next := s.next + 1 } q := by
  have hother : ∀ r' x', s.rpcs r' = some x' →
      (s.put r (some ⟨s.next, async, 0, none, .tagging⟩)).rpcs r' = some x' := by
    intro r' x' hx'
    rw [put_rpcs, if_neg]
    · exact hx'
    · rintro rfl
      simp [hr] at hx'
  have hawaits : ∀ p, Awaits s.rpcs p →
      Awaits (s.put r (some ⟨s.next, async, 0, none, .tagging⟩)).rpcs p := by
    rintro p ⟨r', x', hx', hrest⟩
    exact ⟨r', x', hother r' x' hx', hrest⟩
  have hkeeps : ∀ p, Keeps s.rpcs p →
      Keeps (s.put r (some ⟨s.next, async, 0, none, .tagging⟩)).rpcs p := by
    rintro p ⟨r', x', hx', hrest⟩
    exact ⟨r', x', hother r' x' hx', hrest⟩
  have hh : tagging.hand = none := rfl
  cases h
  constructor <;> first | assumption | grind

/-- A request is sent. -/
theorem Mail.send (h : Mail s q) (hx : s.rpcs r = some x) (hsending : x.place = .sending)
    (htag : pl.tagged = true) (hne : pl ≠ .sending) (hhand : pl.hand = none) :
    Mail { s.put r (some { x with place := pl }) with net := ⟨x.tag, x.tx⟩ :: s.net } q := by
  have hp := h.early r x hx (.inr hsending)
  have hfresh : ∀ p, Awaits s.rpcs p → p.req ≠ x.tx := by
    rintro p ⟨r', x', hx', -, hns, -, htx, -⟩ heq
    obtain rfl := h.inj r' r x' x hx' hx (htx.trans heq)
    cases hx.symm.trans hx'
    exact hns hsending
  have hnet : s.hungup = false → x.tx ∉ s.net.map Packet.req := by
    intro hup hmem
    obtain ⟨p, hpm, heq⟩ := mem_map.mp hmem
    exact hfresh p ((h.net hup).2 p hpm) heq
  have hgoto : Mail (s.put r (some { x with place := pl })) q :=
    h.goto hx (by rw [htag, hsending]; rfl) (fun hs => absurd hs hne) (by rw [hhand, hsending]; rfl)
  have hnew : Awaits (s.put r (some { x with place := pl })).rpcs ⟨x.tag, x.tx⟩ :=
    ⟨r, { x with place := pl }, by rw [put_rpcs, if_pos rfl], htag, hne, hp, rfl, rfl⟩
  have hinside := h.inside
  have hold := h.hand
  cases hgoto
  constructor <;> first | assumption | grind

/-- A response is received. -/
theorem Mail.recv (h : Mail s none) (hx : s.rpcs r = some x) (hup : s.hungup = false)
    (hp : p ∈ s.net) (hhand : ∀ r' x', s.rpcs r' = some x' → x'.place.hand = none) :
    Mail { s.put r (some { x with place := .holding true (some p) }) with
      net := s.net.erase p, received := p :: s.received } none := by
  obtain ⟨y, hy⟩ : ∃ y : Rpc, y = { x with place := .holding true (some p) } := ⟨_, rfl⟩
  have hyhand : y.place.hand = some p := by rw [hy]; rfl
  have hytag : y.place.tagged = true := by rw [hy]; rfl
  rw [← hy]
  have hawaits : ∀ p', Awaits s.rpcs p' → Awaits (s.put r (some y)).rpcs p' := by
    intro p' hp'
    exact hp'.put hx fun _ _ h3 _ => ⟨hytag, by rw [hy]; nofun, by rwa [hy], by rw [hy], by rw [hy]⟩
  have hkeeps : ∀ p', Keeps s.rpcs p' → Keeps (s.put r (some y)).rpcs p' := by
    intro p' hp'
    refine hp'.put fun x' hx' hkeep => ⟨y, rfl, ?_⟩
    cases hx.symm.trans hx'
    rw [hhand r x hx] at hkeep
    exact .inr (by simpa [hy] using hkeep)
  have hnew : Keeps (s.put r (some y)).rpcs p := ⟨r, y, by rw [put_rpcs, if_pos rfl], .inl hyhand⟩
  obtain ⟨h1, h2, h3, h4, h5, h6, h7, h8, h9, h10⟩ := h
  obtain ⟨hnodup, hall⟩ := h1 hup
  -- no other packet answers the same request
  have hrest : ((s.net.erase p).map Packet.req).Nodup ∧ p.req ∉ (s.net.erase p).map Packet.req := by
    have hperm := (perm_cons_erase hp).map Packet.req
    have := hperm.nodup_iff.mp hnodup
    rw [map_cons, nodup_cons] at this
    exact ⟨this.2, this.1⟩
  have hmem : ∀ p' ∈ s.net.erase p, p' ∈ s.net := fun p' => mem_of_mem_erase
  constructor <;> first | assumption | grind

/-- A call returns, and its request is gone. -/
theorem Mail.finish (h : Mail s none) (hx : s.rpcs r = some x)
    (hdone : x.p ≠ none ∨ s.hungup = true) (hhand : x.place.hand = none)
    (hothers : x.p ≠ none ∨ ∀ r' x', s.rpcs r' = some x' → x'.place.hand = none) :
    Mail { s.put r none with returned := ⟨x.tx, x.tag, true, x.p⟩ :: s.returned } none := by
  have hawaits : ∀ p, x.p ≠ none → Awaits s.rpcs p → Awaits (s.put r none).rpcs p := by
    rintro p hne ⟨r', x', hx', h1, h2, h3, hrest⟩
    refine ⟨r', x', ?_, h1, h2, h3, hrest⟩
    rw [put_rpcs, if_neg]
    · exact hx'
    · rintro rfl
      cases hx.symm.trans hx'
      exact hne h3
  have hkeeps : ∀ p, x.p ≠ some p → Keeps s.rpcs p → Keeps (s.put r none).rpcs p := by
    intro p hne hp
    refine hp.put fun x' hx' hkeep => ?_
    cases hx.symm.trans hx'
    simp [hne, hhand] at hkeep
  obtain ⟨h1, h2, h3, h4, h5, h6, h7, h8, h9, h10⟩ := h
  have honce : (settled (⟨x.tx, x.tag, true, x.p⟩ :: s.returned)).Nodup := by
    rcases hp : x.p with _ | p
    · exact h9
    refine nodup_cons.mpr ⟨?_, h9⟩
    intro hmem
    obtain ⟨e, he, heq⟩ := mem_map.mp hmem
    obtain ⟨he, hsome⟩ := mem_filter.mp he
    obtain ⟨p', hp'⟩ := Option.isSome_iff_exists.mp hsome
    exact (h8 e he p' hp').2.2.2 r x hx heq.symm
  constructor
  case once => exact honce
  case kept =>
    intro p hp
    rcases h10 p hp with hkeep | hq | ⟨e, he, hep⟩
    · by_cases heq : x.p = some p
      · exact .inr (.inr ⟨_, .head _, heq⟩)
      · exact .inl (hkeeps p heq hkeep)
    · cases hq
    · exact .inr (.inr ⟨e, mem_cons_of_mem _ he, hep⟩)
  all_goals grind

/-- A call returns without a response. -/
theorem Mail.record (h : Mail s q) {e : Return} (he : e.p = none) :
    Mail { s with returned := e :: s.returned } q := by
  cases h
  have honce : settled (e :: s.returned) = settled s.returned := by
    simp [settled, he]
  constructor <;> first | assumption | grind

theorem Mail.hangup (h : Mail s q) : Mail { s with hungup := true } q := by
  cases h
  constructor <;> first | assumption | grind

end Plan9Port.Mux
