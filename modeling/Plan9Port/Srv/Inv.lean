import Plan9Port.Srv.Respond

/-!
# The invariants of the requests

A flush that finds the request it names waits in its array, and is answered when the request was.
One that does not find it has to wait for the lock that is held while the reply is written.

Here are the invariants, and the steps that change one request up to when its reply is written.

## Main results

* `Base.moved`, `Pending.moved`, `Calls.moved`: what one request has to keep
* `Inv.enter_wlock` and the others: the steps of a call until the reply is written
-/

namespace Plan9Port.Srv

open List

open Function

variable {π : Type}

/-! ## What a point of a call says -/

namespace Pc

/-- The request is still in the pool. -/
def pooled : Pc → Bool
  | .handler | .sflush | .enter | .rflush _ | .delayed | .wlock | .remove => true
  | _ => false

/-- `responded` is set. -/
def marked : Pc → Bool
  | .write | .free | .flush _ | .calling _ | .done => true
  | _ => false

/-- The reply was written. -/
def written : Pc → Bool
  | .free | .flush _ | .calling _ | .done => true
  | _ => false

/-- The call has `srv->wlock`. -/
def holdsW : Pc → Bool
  | .remove | .mark | .write => true
  | _ => false

/-- The call has `r->lk`. -/
def holdsLk : Pc → Bool
  | .flush _ | .calling _ => true
  | _ => false

/-- A process is in the call. -/
def active : Pc → Bool
  | .handler | .delayed | .done => false
  | _ => true

/-- The request may still have an `oldreq`. -/
def early : Pc → Bool
  | .handler | .enter | .rflush _ | .delayed => true
  | _ => false

/-- How many of the flushes of the request were answered, or are answered now. -/
def index : Pc → Nat
  | .flush i => i
  | .calling i => i + 1
  | _ => 0

end Pc

/-! ## The invariants -/

/-- The flushes of a request that are not answered yet. -/
def Sys.pending (s : Sys π) (r : Nat) : List Nat := (s.req r).flush.drop (s.req r).pc.index

/-- A request agrees with where it is. -/
structure Local (s : Sys π) (r : Nat) : Prop where
  responded : (s.req r).responded = (s.req r).pc.marked
  lk : s.lk r = (s.req r).pc.holdsLk
  wlock : s.wlock = some r ↔ (s.req r).pc.holdsW = true
  written : s.log.count (.write r) = if (s.req r).pc.written then 1 else 0
  early : ∀ {or}, (s.req r).oldreq = some or → (s.req r).pc.early = true
  rflush : ∀ {or}, (s.req r).pc = .rflush or → (s.req r).oldreq = some or
  done : (s.req r).pc = .done → (s.req r).flush = []

/-- Who is in the pool. -/
structure Pool (s : Sys π) : Prop where
  lookup : ∀ {t r}, s.rpool.lookupkey t = some r ↔
    r < s.nreq ∧ (s.req r).tag = t ∧ (s.req r).pool = true ∧ (s.req r).pc.pooled = true
  kind : ∀ {r or}, r < s.nreq → (s.req r).oldreq = some or →
    or ≤ r ∧ (s.req r).pool = true ∧ ∃ t, (s.req r).kind = .flush t ∧ (s.req or).tag = t
  fake : ∀ {r}, r < s.nreq → (s.req r).pool = false →
    (s.req r).error = true ∧ ((s.req r).kind ≠ .other → (s.req r).pc = .enter)

/-- The flushes that wait for a request, and those that were answered after it. -/
structure Pending (s : Sys π) : Prop where
  mem : ∀ {r f}, r < s.nreq → (f ∈ s.pending r ↔
    f < s.nreq ∧ (s.req f).pc = .delayed ∧ (s.req f).oldreq = some r)
  nodup : ∀ {r}, r < s.nreq → (s.pending r).Nodup
  delayed : ∀ {f}, f < s.nreq → (s.req f).pc = .delayed →
    ∃ r, r < s.nreq ∧ (s.req f).oldreq = some r
  past : ∀ {r j f}, r < s.nreq → (s.req r).flush[j]? = some f → j < (s.req r).pc.index →
    f < s.nreq ∧ ((s.req f).pc = .done ∨
      (s.req r).pc = .calling j ∧ (s.req f).pc.active = true ∧ (s.req f).caller = .req r)

/-- Who is in which call. -/
structure Calls (reader : π) (s : Sys π) : Prop where
  callee : ∀ {r i}, r < s.nreq → (s.req r).pc = .calling i →
    ∃ f, f < s.nreq ∧ (s.req f).pc.active = true ∧ (s.req f).caller = .req r
  caller : ∀ {f r}, f < s.nreq → (s.req f).pc.active = true → (s.req f).caller = .req r →
    r < f ∧ (∃ i, (s.req r).pc = .calling i) ∧ (s.req f).oldreq = none ∧
      (s.req f).pc ≠ .sflush ∧ (s.req f).pool = true
  unique : ∀ {f f' r}, f < s.nreq → f' < s.nreq → (s.req f).pc.active = true →
    (s.req f').pc.active = true → (s.req f).caller = .req r → (s.req f').caller = .req r → f = f'
  proc : ∀ {f p}, f < s.nreq → (s.req f).pc.active = true → (s.req f).caller = .proc p →
    s.calls p = some f
  calls : ∀ {p f}, s.calls p = some f →
    f < s.nreq ∧ (s.req f).pc.active = true ∧ (s.req f).caller = .proc p
  fake : ∀ {r}, r < s.nreq → (s.req r).pool = false →
    (s.req r).pc = .done ∨ (s.req r).pc.active = true ∧ (s.req r).caller = .proc reader
  sflush : ∀ {r}, r < s.nreq → (s.req r).pc = .sflush →
    r + 1 = s.nreq ∧ (s.req r).caller = .proc reader ∧ (s.req r).oldreq = none ∧
      ∃ t, (s.req r).kind = .flush t

/-- The request `r` was read and not answered yet when `f` was read. -/
def Names (log : List Event) (f r : Nat) : Prop :=
  ∃ l₁ l₂, log = l₁ ++ .read f :: l₂ ∧ .read r ∈ l₁ ∧ .write r ∉ l₁

/-- The answer to `r` comes before the one to `f`. -/
def Precedes (log : List Event) (r f : Nat) : Prop :=
  ∀ l₁ l₂, log = l₁ ++ .write f :: l₂ → .write r ∈ l₁

/-- Why the flush `f` of the tag `t` will be answered after `r`: `r` was answered, or its call has
the lock, or `f` knows `r` or is going to find it, or `f` is not answered at all. -/
def Due (s : Sys π) (f r t : Nat) : Prop :=
  .write r ∈ s.log ∨ (s.req f).pc.written = false ∧
    ((s.req r).pc = .mark ∨ (s.req r).pc = .write ∨ (s.req f).oldreq = some r ∨
      ((s.req f).pc = .sflush ∧ s.rpool.lookupkey t = some r) ∨ (s.req f).pool = false)

/-- A flush is answered after the requests that it names. -/
structure Order (s : Sys π) : Prop where
  read : ∀ {r}, .read r ∈ s.log ↔ r < s.nreq
  write : ∀ {r}, .write r ∈ s.log → r < s.nreq
  due : ∀ {f r t}, Names s.log f r → f ≠ r → (s.req f).kind = .flush t → (s.req r).tag = t →
    Due s f r t
  precedes : ∀ {f r t}, Names s.log f r → f ≠ r → (s.req f).kind = .flush t →
    (s.req r).tag = t → Precedes s.log r f

/-! ## The log grows -/

section Log

variable {log : List Event} {e : Event} {f r : Nat}

theorem append_singleton_eq {α : Type} {l l₁ l₂ : List α} {a b : α} (h : l ++ [a] = l₁ ++ b :: l₂) :
    (a = b ∧ l = l₁) ∨ ∃ l3, l = l₁ ++ b :: l3 := by
  rcases eq_nil_or_concat l₂ with rfl | ⟨l3, c, rfl⟩
  · obtain ⟨hl, ha⟩ := append_inj' h rfl
    exact .inl ⟨singleton_inj.mp ha, hl⟩
  · rw [concat_eq_append, ← cons_append, ← append_assoc] at h
    exact .inr ⟨l3, (append_inj' h rfl).1⟩

theorem Names.of_append (h : Names (log ++ [e]) f r) :
    Names log f r ∨ e = .read f ∧ .read r ∈ log ∧ .write r ∉ log := by
  obtain ⟨l₁, l₂, hlog, hr, hw⟩ := h
  rcases append_singleton_eq hlog with ⟨he, rfl⟩ | ⟨l3, rfl⟩
  · exact .inr ⟨he, hr, hw⟩
  · exact .inl ⟨l₁, l3, rfl, hr, hw⟩

theorem Precedes.append (h : Precedes log r f) (he : e = .write f → .write r ∈ log) :
    Precedes (log ++ [e]) r f := by
  intro l₁ l₂ hlog
  rcases append_singleton_eq hlog with ⟨hf, rfl⟩ | ⟨l3, rfl⟩
  · exact he hf
  · exact h l₁ l3 rfl

end Log

/-- The invariants that do not depend on who has called whom. -/
structure Base (s : Sys π) : Prop where
  locals : ∀ {r}, r < s.nreq → Local s r
  lk : ∀ {r}, s.nreq ≤ r → s.lk r = false
  wlock : ∀ {r}, s.wlock = some r → r < s.nreq
  pool : Pool s
  order : Order s

/-- All the invariants. -/
structure Inv (reader : π) (s : Sys π) : Prop extends Base s where
  pending : Pending s
  calls : Calls reader s

/-! ## A request moves -/

variable {reader : π} {s s' : Sys π} {r : Nat} {q : Req π}

/-- A request that a step does not touch. -/
theorem Local.congr (h : Local s r) (hreq : s'.req r = s.req r) (hlk : s'.lk r = s.lk r)
    (hwlock : s'.wlock = some r ↔ s.wlock = some r)
    (hlog : s'.log.count (.write r) = s.log.count (.write r)) : Local s' r := by
  obtain ⟨h1, h2, h3, h4, h5, h6, h7⟩ := h
  refine ⟨?_, ?_, ?_, ?_, ?_, ?_, ?_⟩
  · rw [hreq]
    exact h1
  · rw [hlk, hreq]
    exact h2
  · rw [hwlock, hreq]
    exact h3
  · rw [hlog, hreq]
    exact h4
  · rw [hreq]
    exact h5
  · rw [hreq]
    exact h6
  · rw [hreq]
    exact h7

/-- The request `r` becomes `q`, and nothing else of the requests changes. -/
structure Moved (s s' : Sys π) (r : Nat) (q : Req π) : Prop where
  req : s'.req = update s.req r q
  nreq : s'.nreq = s.nreq
  lt : r < s.nreq
  tag : q.tag = (s.req r).tag
  kind : q.kind = (s.req r).kind
  pool : q.pool = (s.req r).pool

theorem Moved.req_self (h : Moved s s' r q) : s'.req r = q := by rw [h.req, update_self]

variable {t : Nat}

theorem Moved.req_of_ne (h : Moved s s' r q) (ht : t ≠ r) : s'.req t = s.req t := by
  rw [h.req, update_of_ne ht]

/-- What `q` has in common with the request is the same for every request. -/
theorem Moved.eq {β : Type} (h : Moved s s' r q) {f : Req π → β} (hf : f q = f (s.req r))
    (t : Nat) : f (s'.req t) = f (s.req t) := by
  by_cases ht : t = r
  · rw [ht, h.req_self, hf]
  · rw [h.req_of_ne ht]

theorem Moved.tag_eq (h : Moved s s' r q) (t : Nat) : (s'.req t).tag = (s.req t).tag := h.eq h.tag t

theorem Moved.kind_eq (h : Moved s s' r q) (t : Nat) : (s'.req t).kind = (s.req t).kind :=
  h.eq h.kind t

theorem Pool.moved (h : Pool s) (hm : Moved s s' r q)
    (hlookup : ∀ t x, s'.rpool.lookupkey t = some x ↔ s.rpool.lookupkey t = some x ∧
      (x = r → q.pc.pooled = true)) (hpooled : q.pc.pooled = true → (s.req r).pc.pooled = true)
    (hold : ∀ or, q.oldreq = some or → or ≤ r ∧ q.pool = true ∧
      ∃ t, q.kind = .flush t ∧ (s.req or).tag = t)
    (hfake : q.pool = false → q.error = true ∧ (q.kind ≠ .other → q.pc = .enter)) : Pool s' := by
  refine ⟨fun {t x} => ?_, fun {x or} hx hor => ?_, fun {x} hx hp => ?_⟩
  · rw [hlookup, h.lookup, hm.nreq]
    by_cases hx : x = r
    · subst hx
      rw [hm.req_self, hm.tag, hm.pool]
      constructor
      · rintro ⟨⟨h1, h2, h3, -⟩, h5⟩
        exact ⟨h1, h2, h3, h5 rfl⟩
      · rintro ⟨h1, h2, h3, h4⟩
        exact ⟨⟨h1, h2, h3, hpooled h4⟩, fun _ => h4⟩
    · rw [hm.req_of_ne hx]
      exact and_iff_left fun h => absurd h hx
  · rw [hm.nreq] at hx
    rw [hm.tag_eq]
    by_cases hxr : x = r
    · subst hxr
      rw [hm.req_self] at hor ⊢
      exact hold or hor
    · rw [hm.req_of_ne hxr] at hor ⊢
      exact h.kind hx hor
  · rw [hm.nreq] at hx
    by_cases hxr : x = r
    · subst hxr
      rw [hm.req_self] at hp ⊢
      exact hfake hp
    · rw [hm.req_of_ne hxr] at hp ⊢
      exact h.fake hx hp

variable {pc₀ pc : Pc} {x y : Nat}

/-- The flushes are the same ones if the request stays delayed or not, and its array and its place
in it stay the same. -/
theorem Pending.moved (h : Pending s) (hpc : (s.req r).pc = pc₀) (hm : Moved s s' r q)
    (hflush : q.flush = (s.req r).flush) (hindex : q.pc.index = pc₀.index)
    (hcalling : ∀ j, pc₀ = .calling j → q.pc = .calling j ∨ ∀ f, (s.req r).flush[j]? = some f →
      (s.req f).pc = .done)
    (hdelayed : ∀ o, q.pc = .delayed ∧ q.oldreq = some o ↔ pc₀ = .delayed ∧
      (s.req r).oldreq = some o) (hdone : pc₀ ≠ .done)
    (hcallee : ∀ x, pc₀.active = true → (s.req r).caller = .req x → q.pc.active = true ∧
      q.caller = .req x) (hsome : q.pc = .delayed → ∃ o, o < s.nreq ∧ q.oldreq = some o) :
    Pending s' := by
  subst hpc
  have hflushes := hm.eq (f := Req.flush) hflush
  have hindexes := hm.eq (f := fun q => q.pc.index) hindex
  have hpending : ∀ x, s'.pending x = s.pending x := by
    intro x
    rw [Sys.pending, Sys.pending, hflushes, hindexes]
  refine ⟨fun {x f} hx => ?_, fun {x} hx => ?_, fun {f} hf hd => ?_, fun {x j f} hx hj hlt => ?_⟩
  · rw [hm.nreq] at hx ⊢
    rw [hpending, h.mem hx]
    by_cases hf : f = r
    · rw [hf, hm.req_self, hdelayed]
    · rw [hm.req_of_ne hf]
  · rw [hm.nreq] at hx
    rw [hpending]
    exact h.nodup hx
  · rw [hm.nreq] at hf ⊢
    by_cases hfr : f = r
    · rw [hfr, hm.req_self] at hd ⊢
      exact hsome hd
    · rw [hm.req_of_ne hfr] at hd ⊢
      exact h.delayed hf hd
  · rw [hm.nreq] at hx ⊢
    rw [hflushes] at hj
    rw [hindexes] at hlt
    obtain ⟨hf, hpast⟩ := h.past hx hj hlt
    refine ⟨hf, ?_⟩
    have hkeep : (s.req f).pc = .done → (s'.req f).pc = .done := by
      intro hd
      by_cases hfr : f = r
      · exact absurd (hfr ▸ hd) hdone
      · rw [hm.req_of_ne hfr]
        exact hd
    rcases hpast with hd | ⟨hc, ha, hcl⟩
    · exact .inl (hkeep hd)
    have hf' : (s'.req f).pc.active = true ∧ (s'.req f).caller = .req x := by
      by_cases hfr : f = r
      · rw [hfr] at ha hcl ⊢
        rw [hm.req_self]
        exact hcallee x ha hcl
      · rw [hm.req_of_ne hfr]
        exact ⟨ha, hcl⟩
    by_cases hxr : x = r
    · subst hxr
      rcases hcalling j hc with hq | hq
      · exact .inr ⟨by rw [hm.req_self]; exact hq, hf'⟩
      · exact .inl (hkeep (hq f hj))
    · exact .inr ⟨by rw [hm.req_of_ne hxr]; exact hc, hf'⟩

theorem ne_of_pc {c d : Pc} (hx : (s.req x).pc = c) (hy : (s.req y).pc = d) (h : c ≠ d) :
    x ≠ y := by
  rintro rfl
  exact h (hx.symm.trans hy)

/-- Whoever is in the call for `x` stays in it. -/
structure Stays (s s' : Sys π) (x : Nat) : Prop where
  active : (s'.req x).pc.active = (s.req x).pc.active
  caller : (s'.req x).caller = (s.req x).caller
  oldreq : (s'.req x).oldreq = (s.req x).oldreq
  sflush : (s'.req x).pc = .sflush ↔ (s.req x).pc = .sflush
  done : (s.req x).pc = .done → (s'.req x).pc = .done
  pool : (s'.req x).pool = (s.req x).pool
  kind : (s'.req x).kind = (s.req x).kind

theorem Stays.of_flush {l : List Nat} (h : s'.req x = { s.req x with flush := l }) :
    Stays s s' x := by
  constructor <;> rw [h]
  exact id

theorem Stays.of_pc {pc' : Pc} (hpc : (s.req x).pc = pc) (h : s'.req x = { s.req x with pc := pc' })
    (hactive : pc'.active = pc.active) (hsflush : pc' = .sflush ↔ pc = .sflush)
    (hdone : pc ≠ .done) :
    Stays s s' x := by
  subst hpc
  constructor <;> rw [h]
  · exact hactive
  · exact hsflush
  · exact fun hd => absurd hd hdone

/-- Only the call for `y` begins, goes on or ends. -/
theorem Calls.change (h : Calls reader s) (hlt : ∀ x, x < s'.nreq ↔ x < s.nreq ∨ x = y)
    (hstays : ∀ x, x ≠ y → Stays s s' x) (hy : y < s.nreq → ∀ i, (s.req y).pc ≠ .calling i)
    (hcalling : ∀ x i, x ≠ y → (s.req x).pc = .calling i → (s'.req x).pc = .calling i ∨
      y < s.nreq ∧ (s.req y).pc.active = true ∧ (s.req y).caller = .req x)
    (hcallee : ∀ x i, (s'.req x).pc = .calling i → x ≠ y ∧
      ((s'.req y).pc.active = true ∧ (s'.req y).caller = .req x ∨ (s.req x).pc = .calling i ∧
        (y < s.nreq → (s.req y).pc.active = true → (s.req y).caller ≠ .req x)))
    (hcaller : ∀ x, (s'.req y).pc.active = true → (s'.req y).caller = .req x →
      (x < y ∧ (∃ i, (s'.req x).pc = .calling i) ∧ (s'.req y).oldreq = none ∧
        (s'.req y).pc ≠ .sflush ∧ (s'.req y).pool = true) ∧
      ∀ f, f < s.nreq → f ≠ y → (s.req f).pc.active = true → (s.req f).caller ≠ .req x)
    (hcalls : ∀ p f, s'.calls p = some f ↔ s.calls p = some f ∧ f ≠ y ∨
      f = y ∧ (s'.req y).pc.active = true ∧ (s'.req y).caller = .proc p)
    (hnreq : ∀ x, x < s.nreq → (s.req x).pc = .sflush → s'.nreq = s.nreq)
    (hfake : (s'.req y).pool = false → (s'.req y).pc = .done ∨
      (s'.req y).pc.active = true ∧ (s'.req y).caller = .proc reader)
    (hsflush : (s'.req y).pc = .sflush → y + 1 = s'.nreq ∧ (s'.req y).caller = .proc reader ∧
      (s'.req y).oldreq = none ∧ ∃ t, (s'.req y).kind = .flush t) : Calls reader s' := by
  -- the others are in the calls they were in
  have hold : ∀ {f c}, f < s'.nreq → f ≠ y → (s'.req f).pc.active = true → (s'.req f).caller = c →
      f < s.nreq ∧ (s.req f).pc.active = true ∧ (s.req f).caller = c := by
    intro f c hf hfy ha hc
    have hst := hstays f hfy
    exact ⟨((hlt f).mp hf).resolve_right hfy, hst.active.symm.trans ha, hst.caller.symm.trans hc⟩
  have hnew : ∀ {f c}, f ≠ y → f < s.nreq ∧ (s.req f).pc.active = true ∧ (s.req f).caller = c →
      f < s'.nreq ∧ (s'.req f).pc.active = true ∧ (s'.req f).caller = c := by
    rintro f c hfy ⟨hf, ha, hc⟩
    have hst := hstays f hfy
    exact ⟨(hlt f).mpr (.inl hf), hst.active.trans ha, hst.caller.trans hc⟩
  refine ⟨fun {x i} hx hc => ?_, fun {f x} hf ha hc => ?_, fun {f f' x} hf hf' ha ha' hc hc' => ?_,
    fun {f p} hf ha hc => ?_, fun {p f} hc => ?_, fun {x} hx hp => ?_, fun {x} hx hs => ?_⟩
  · obtain ⟨hxy, hc' | ⟨hc, hyx⟩⟩ := hcallee x i hc
    · exact ⟨y, (hlt y).mpr (.inr rfl), hc'⟩
    · obtain ⟨f, hf, ha, hc'⟩ := h.callee (((hlt x).mp hx).resolve_right hxy) hc
      refine ⟨f, hnew ?_ ⟨hf, ha, hc'⟩⟩
      rintro rfl
      exact hyx hf ha hc'
  · by_cases hfy : f = y
    · subst hfy
      exact (hcaller x ha hc).1
    obtain ⟨hf, ha, hc⟩ := hold hf hfy ha hc
    obtain ⟨hxf, ⟨i, hi⟩, ho, hs, hp⟩ := h.caller hf ha hc
    have hst := hstays f hfy
    have hxy : x ≠ y := by
      rintro rfl
      exact hy (Nat.lt_trans hxf hf) i hi
    -- `x` had called `f` only
    have hi := (hcalling x i hxy hi).resolve_right fun ⟨hy, hay, hcy⟩ =>
      hfy (h.unique hf hy ha hay hc hcy)
    exact ⟨hxf, ⟨i, hi⟩, hst.oldreq.trans ho, mt hst.sflush.mp hs, hst.pool.trans hp⟩
  · by_cases hfy : f = y
    · by_cases hfy' : f' = y
      · rw [hfy, hfy']
      · obtain ⟨hf', ha', hc'⟩ := hold hf' hfy' ha' hc'
        exact absurd hc' ((hcaller x (hfy ▸ ha) (hfy ▸ hc)).2 f' hf' hfy' ha')
    · obtain ⟨hf, ha, hc⟩ := hold hf hfy ha hc
      by_cases hfy' : f' = y
      · exact absurd hc ((hcaller x (hfy' ▸ ha') (hfy' ▸ hc')).2 f hf hfy ha)
      · obtain ⟨hf', ha', hc'⟩ := hold hf' hfy' ha' hc'
        exact h.unique hf hf' ha ha' hc hc'
  · rw [hcalls]
    by_cases hfy : f = y
    · subst hfy
      exact .inr ⟨rfl, ha, hc⟩
    · obtain ⟨hf, ha, hc⟩ := hold hf hfy ha hc
      exact .inl ⟨h.proc hf ha hc, hfy⟩
  · rcases (hcalls p f).mp hc with ⟨hc, hfy⟩ | ⟨rfl, hf⟩
    · exact hnew hfy (h.calls hc)
    · exact ⟨(hlt f).mpr (.inr rfl), hf⟩
  · by_cases hxy : x = y
    · subst hxy
      exact hfake hp
    · have hst := hstays x hxy
      rw [hst.pool] at hp
      rw [hst.active, hst.caller]
      exact (h.fake (((hlt x).mp hx).resolve_right hxy) hp).imp_left hst.done
  · by_cases hxy : x = y
    · subst hxy
      exact hsflush hs
    · have hx := ((hlt x).mp hx).resolve_right hxy
      have hst := hstays x hxy
      have hs := hst.sflush.mp hs
      rw [hst.caller, hst.oldreq, hst.kind, hnreq x hx hs]
      exact h.sflush hx hs

theorem lt_iff_of_nreq (hnreq : s'.nreq = s.nreq) (hy : y < s.nreq) (x : Nat) :
    x < s'.nreq ↔ x < s.nreq ∨ x = y := by
  rw [hnreq]
  exact ⟨.inl, fun hx => hx.elim id fun hx => hx ▸ hy⟩

/-- A call goes on. -/
theorem Calls.moved (h : Calls reader s) (hm : Moved s s' r q) (hcalls : s'.calls = s.calls)
    (hactive : (s.req r).pc.active = true) (hqactive : q.pc.active = true)
    (hcalling : ∀ i, (s.req r).pc ≠ .calling i) (hqcalling : ∀ i, q.pc ≠ .calling i)
    (hcaller : q.caller = (s.req r).caller)
    (hold : (s.req r).oldreq = none → q.oldreq = none ∨ (s.req r).pc = .sflush)
    (hsflush : q.pc ≠ .sflush) : Calls reader s' := by
  have hr := hm.lt
  have hcall : ∀ {x i}, (s.req x).pc = .calling i → (s'.req x).pc = .calling i := by
    intro x i hc
    rw [hm.req_of_ne]
    · exact hc
    · rintro rfl
      exact hcalling i hc
  refine h.change (lt_iff_of_nreq hm.nreq hr) (fun x hx => .of_flush (hm.req_of_ne hx))
    (fun _ => hcalling) (fun x i _ hc => .inl (hcall hc)) (fun x i hc => ?_)
    (fun x _ hc => ?_) (fun p f => ?_) (fun _ _ _ => hm.nreq) (fun hp => ?_) fun hs => ?_
  · have hxr : x ≠ r := by
      rintro rfl
      rw [hm.req_self] at hc
      exact hqcalling i hc
    rw [hm.req_of_ne hxr] at hc
    rw [hm.req_self, hcaller]
    by_cases hx : (s.req r).caller = .req x
    · exact ⟨hxr, .inl ⟨hqactive, hx⟩⟩
    · exact ⟨hxr, .inr ⟨hc, fun _ _ => hx⟩⟩
  · rw [hm.req_self, hcaller] at hc
    obtain ⟨hx, ⟨i, hi⟩, ho, hs, hp⟩ := h.caller hr hactive hc
    rw [hm.req_self, hm.pool]
    exact ⟨⟨hx, ⟨i, hcall hi⟩, (hold ho).resolve_right hs, hsflush, hp⟩,
      fun f hf hfr ha hc' => hfr (h.unique hf hr ha hactive hc' hc)⟩
  · rw [hcalls, hm.req_self, hcaller]
    by_cases hf : f = r
    · subst hf
      simpa [hqactive] using ⟨fun hc => (h.calls hc).2.2, h.proc hr hactive⟩
    · simp [hf]
  · rw [hm.req_self] at hp ⊢
    rw [hcaller]
    exact (h.fake hr (hm.pool.symm.trans hp)).imp (fun hd => by rw [hd] at hactive; cases hactive)
      fun hd => ⟨hqactive, hd.2⟩
  · rw [hm.req_self] at hs
    exact absurd hs hsflush

/-- The order, if nothing is read or written. -/
theorem Order.moved (h : Order s) (hm : Moved s s' r q) (hlog : s'.log = s.log)
    (hself : ∀ x t, r ≠ x → q.kind = .flush t → Due s r x t → Due s' r x t)
    (hmark : (s.req r).pc = .mark ∨ (s.req r).pc = .write → q.pc = .mark ∨ q.pc = .write)
    (hlookup : ∀ t x, s.rpool.lookupkey t = some x → s'.rpool.lookupkey t = some x ∨
      x = r ∧ (q.pc = .mark ∨ q.pc = .write)) : Order s' := by
  refine ⟨fun {x} => ?_, fun {x} => ?_, fun {f x t} hn hne hk ht => ?_,
    fun {f x t} hn hne hk ht => ?_⟩
  · rw [hlog, hm.nreq]
    exact h.read
  · rw [hlog, hm.nreq]
    exact h.write
  · rw [hlog] at hn
    rw [hm.kind_eq] at hk
    rw [hm.tag_eq] at ht
    have hdue := h.due hn hne hk ht
    by_cases hfr : f = r
    · subst hfr
      exact hself x t hne (hm.kind.trans hk) hdue
    rw [Due, hlog, hm.req_of_ne hfr]
    refine hdue.imp_right fun ⟨hw, hcase⟩ => ⟨hw, ?_⟩
    have hpc : (s.req x).pc = .mark ∨ (s.req x).pc = .write →
        (s'.req x).pc = .mark ∨ (s'.req x).pc = .write := by
      intro hx
      by_cases hxr : x = r
      · rw [hxr, hm.req_self]
        exact hmark (hxr ▸ hx)
      · rw [hm.req_of_ne hxr]
        exact hx
    rcases hcase with hx | hx | hx | ⟨hs, hl⟩ | hx
    · rcases hpc (.inl hx) with hx | hx
      · exact .inl hx
      · exact .inr (.inl hx)
    · rcases hpc (.inr hx) with hx | hx
      · exact .inl hx
      · exact .inr (.inl hx)
    · exact .inr (.inr (.inl hx))
    · rcases hlookup t x hl with hl' | ⟨rfl, hq | hq⟩
      · exact .inr (.inr (.inr (.inl ⟨hs, hl'⟩)))
      · exact .inl (by rw [hm.req_self]; exact hq)
      · exact .inr (.inl (by rw [hm.req_self]; exact hq))
    · exact .inr (.inr (.inr (.inr hx)))
  · rw [hlog] at hn ⊢
    rw [hm.kind_eq] at hk
    rw [hm.tag_eq] at ht
    exact h.precedes hn hne hk ht

/-- A call goes on, and its request changes only as far as the steps before the loop over the
flushes change it. -/
structure Advanced (s s' : Sys π) (r : Nat) (q : Req π) : Prop extends Moved s s' r q where
  flush : q.flush = (s.req r).flush
  caller : q.caller = (s.req r).caller
  error : q.error = (s.req r).error
  calls : s'.calls = s.calls
  active : (s.req r).pc.active = true
  qactive : q.pc.active = true
  index : (s.req r).pc.index = 0
  qindex : q.pc.index = 0
  qsflush : q.pc ≠ .sflush

theorem not_calling (h : pc.index = 0) (i : Nat) : pc ≠ .calling i := by
  rintro rfl
  cases h

theorem not_delayed (h : pc.active = true) : pc ≠ .delayed := by
  rintro rfl
  cases h

theorem not_done (h : pc.active = true) : pc ≠ .done := by
  rintro rfl
  cases h

theorem Base.of_moved (h : Base s) (hm : Moved s s' r q) (hlocal : Local s' r)
    (hlk : ∀ x, x ≠ r → s'.lk x = s.lk x)
    (hwlock : ∀ x, x ≠ r → (s'.wlock = some x ↔ s.wlock = some x))
    (hcount : ∀ x, x ≠ r → s'.log.count (.write x) = s.log.count (.write x)) (hpool : Pool s')
    (horder : Order s') : Base s' := by
  refine ⟨fun {x} hx => ?_, fun {x} hx => ?_, fun {x} hx => ?_, hpool, horder⟩
  · rw [hm.nreq] at hx
    by_cases hxr : x = r
    · rw [hxr]
      exact hlocal
    · exact (h.locals hx).congr (hm.req_of_ne hxr) (hlk x hxr) (hwlock x hxr) (hcount x hxr)
  · rw [hm.nreq] at hx
    rw [hlk x (Nat.ne_of_gt (Nat.lt_of_lt_of_le hm.lt hx)), h.lk hx]
  · rw [hm.nreq]
    by_cases hxr : x = r
    · exact hxr ▸ hm.lt
    · exact h.wlock ((hwlock x hxr).mp hx)

theorem Inv.advanced (h : Inv reader s) (ha : Advanced s s' r q)
    (hold : q.oldreq = (s.req r).oldreq ∨ q.oldreq = none ∨ (s.req r).pc = .sflush)
    (hbase : Base s') : Inv reader s' := by
  refine ⟨hbase, h.pending.moved rfl ha.toMoved ha.flush ?_ (fun j hj => ?_)
    (fun o => ?_) (not_done ha.active) (fun x _ hc => ⟨ha.qactive, ha.caller.trans hc⟩)
    fun hd => ?_,
    h.calls.moved ha.toMoved ha.calls ha.active ha.qactive (not_calling ha.index)
      (not_calling ha.qindex) ha.caller (fun hn => ?_) ha.qsflush⟩
  · rw [ha.qindex, ha.index]
  · exact absurd hj (not_calling ha.index j)
  · exact iff_of_false (fun h => not_delayed ha.qactive h.1) fun h => not_delayed ha.active h.1
  · exact absurd hd (not_delayed ha.qactive)
  · rcases hold with hold | hold | hold
    · exact .inl (hold.trans hn)
    · exact .inl hold
    · exact .inr hold

theorem moved_goto (s : Sys π) (hr : r < s.nreq) (pc : Pc) :
    Moved s (s.goto r pc) r { s.req r with pc := pc } :=
  ⟨rfl, rfl, hr, rfl, rfl, rfl⟩

/-- What a request that is not a fake flush has to keep for the order. -/
theorem Due.congr {f : Nat} (h : Due s f x t) (hm : Moved s s' f q) (hne : f ≠ x)
    (hlog : s'.log = s.log) (hwritten : (s.req f).pc.written = false → q.pc.written = false)
    (hold : (s.req f).oldreq = some x → q.oldreq = some x ∨ Event.write x ∈ s.log ∨
      (s.req x).pc = .mark ∨ (s.req x).pc = .write)
    (hsflush : (s.req f).pc = .sflush → s.rpool.lookupkey t = some x → q.oldreq = some x) :
    Due s' f x t := by
  rw [Due, hlog, hm.req_self, hm.req_of_ne (Ne.symm hne), hm.pool]
  rcases h with h | ⟨hw, hcase⟩
  · exact .inl h
  rcases hcase with h | h | h | ⟨hs, hl⟩ | h
  · exact .inr ⟨hwritten hw, .inl h⟩
  · exact .inr ⟨hwritten hw, .inr (.inl h)⟩
  · rcases hold h with h | h | h | h
    · exact .inr ⟨hwritten hw, .inr (.inr (.inl h))⟩
    · exact .inl h
    · exact .inr ⟨hwritten hw, .inl h⟩
    · exact .inr ⟨hwritten hw, .inr (.inl h)⟩
  · exact .inr ⟨hwritten hw, .inr (.inr (.inl (hsflush hs hl)))⟩
  · exact .inr ⟨hwritten hw, .inr (.inr (.inr (.inr h)))⟩

section Quiet

variable (hpc : (s.req r).pc = pc₀) (hm : Moved s s' r q)
  (hmoved : Moved s { s with req := update s.req r q } r q)
  (hresponded : q.responded = q.pc.marked) (hw : q.pc.holdsW = pc₀.holdsW)
  (hwritten : q.pc.written = pc₀.written) (hearly : ∀ {or}, q.oldreq = some or → q.pc.early = true)
  (hrflush : ∀ {or}, q.pc = .rflush or → q.oldreq = some or) (hpooled : q.pc.pooled = pc₀.pooled)
  (hkind : ∀ or, q.oldreq = some or → or ≤ r ∧ q.pool = true ∧ ∃ t, q.kind = .flush t ∧
    (s.req or).tag = t) (hmark : pc₀ = .mark ∨ pc₀ = .write → q.pc = .mark ∨ q.pc = .write)
  (hdue : ∀ x t, r ≠ x → q.kind = .flush t → (s.req r).oldreq = some x → q.oldreq = some x ∨
    Event.write x ∈ s.log ∨ (s.req x).pc = .mark ∨ (s.req x).pc = .write)
  (hsflush : ∀ x t, q.kind = .flush t → pc₀ = .sflush → s.rpool.lookupkey t = some x →
    q.oldreq = some x)
include hpc hresponded hw hwritten hearly hrflush hpooled hkind hmark hdue hsflush

include hm in
/-- A request changes, and its reply is not written. -/
theorem Base.moved (h : Base s) (hrpool : s'.rpool = s.rpool) (hwlock : s'.wlock = s.wlock)
    (hlog : s'.log = s.log) (hlk : s'.lk r = q.pc.holdsLk) (hlks : ∀ x, x ≠ r → s'.lk x = s.lk x)
    (hdone : q.pc = .done → q.flush = [])
    (hfake : q.pool = false → q.error = true ∧ (q.kind ≠ .other → q.pc = .enter)) : Base s' := by
  subst hpc
  have hl := h.locals hm.lt
  refine h.of_moved hm ⟨?_, ?_, ?_, ?_, ?_, ?_, ?_⟩ hlks (fun _ _ => by rw [hwlock])
    (fun _ _ => by rw [hlog]) (h.pool.moved hm (fun t x => ?_) ?_ hkind hfake)
    (h.order.moved hm hlog (fun x t hne hk hd => ?_) hmark fun t x hx => .inl (by rw [hrpool, hx]))
  · rw [hm.req_self]
    exact hresponded
  · rw [hm.req_self]
    exact hlk
  · rw [hm.req_self, hw, hwlock]
    exact hl.wlock
  · rw [hm.req_self, hwritten, hlog]
    exact hl.written
  · rw [hm.req_self]
    exact hearly
  · rw [hm.req_self]
    exact hrflush
  · rw [hm.req_self]
    exact hdone
  · rw [hrpool]
    refine (and_iff_left_of_imp ?_).symm
    rintro hx rfl
    rw [hpooled]
    exact (h.pool.lookup.mp hx).2.2.2
  · rw [hpooled]
    exact id
  · exact hd.congr hm hne hlog (fun hw => hwritten.trans hw) (hdue x t hne hk) (hsflush x t hk)

include hmoved in
/-- A step that changes only the request, before its reply is written. -/
theorem Inv.advanced_quiet (h : Inv reader s) (hflush : q.flush = (s.req r).flush)
    (hcaller : q.caller = (s.req r).caller) (herror : q.error = (s.req r).error)
    (hactive : pc₀.active = true) (hqactive : q.pc.active = true) (hindex : pc₀.index = 0)
    (hqindex : q.pc.index = 0) (hqsflush : q.pc ≠ .sflush)
    (hold : q.oldreq = (s.req r).oldreq ∨ q.oldreq = none ∨ pc₀ = .sflush)
    (hlk : q.pc.holdsLk = pc₀.holdsLk)
    (hfake : q.pool = false → q.kind ≠ .other → q.pc = .enter) :
    Inv reader { s with req := update s.req r q } := by
  subst hpc
  refine h.advanced ⟨hmoved, hflush, hcaller, herror, rfl, hactive, hqactive, hindex, hqindex,
    hqsflush⟩ hold (h.toBase.moved rfl hmoved hresponded hw hwritten hearly hrflush hpooled hkind
      hmark hdue hsflush rfl rfl rfl ?_ (fun _ _ => rfl) ?_ fun hp => ⟨?_, hfake hp⟩)
  · rw [hlk]
    exact (h.locals hmoved.lt).lk
  · exact fun hd => absurd hd (not_done hqactive)
  · rw [herror]
    exact (h.pool.fake hmoved.lt (hmoved.pool.symm.trans hp)).1

end Quiet

/-! ## The steps of a call -/

variable {or : Nat}

section Go

variable (h : Inv reader s) (hr : r < s.nreq)
include h hr

theorem Inv.oldreq_none (hpc : (s.req r).pc.early = false) : (s.req r).oldreq = none := by
  cases ho : (s.req r).oldreq with
  | none => rfl
  | some or => exact absurd ((h.locals hr).early ho) (by rw [hpc]; simp)

/-- A fake that is past the beginning of `respond` is no flush. -/
theorem Inv.kind_of_fake (hp : (s.req r).pool = false) (hpc : (s.req r).pc ≠ .enter) :
    (s.req r).kind = .other := by
  by_contra hk
  exact hpc ((h.pool.fake hr hp).2 hk)

theorem Inv.enter_wlock (hpc : (s.req r).pc = .enter)
    (herror : ¬((s.req r).kind ≠ .other ∧ (s.req r).error = true))
    (hold : (s.req r).oldreq = none) : Inv reader (s.goto r .wlock) := by
  have hl := h.locals hr
  rw [Sys.goto]
  apply h.advanced_quiet hpc (moved_goto s hr _)
  case hresponded =>
    rw [hl.responded, hpc]
    rfl
  case hearly =>
    intro or hor
    rw [hold] at hor
    cases hor
  case hkind =>
    intro or hor
    exact h.pool.kind hr hor
  case hfake =>
    intro hp hk
    exact absurd ⟨hk, (h.pool.fake hr hp).1⟩ herror
  case hdue =>
    intro x t _ _ hx
    exact .inl hx
  all_goals first | rfl | simp

theorem Inv.enter_rflush (hpc : (s.req r).pc = .enter) (hold : (s.req r).oldreq = some or) :
    Inv reader (s.goto r (.rflush or)) := by
  have hl := h.locals hr
  have hpool := (h.pool.kind hr hold).2.1
  rw [Sys.goto]
  apply h.advanced_quiet hpc (moved_goto s hr _)
  case hresponded =>
    rw [hl.responded, hpc]
    rfl
  case hearly =>
    intro _ _
    rfl
  case hrflush =>
    rintro or' hor
    cases hor
    exact hold
  case hkind =>
    intro or' hor
    exact h.pool.kind hr hor
  case hfake =>
    intro hp
    rw [hpool] at hp
    cases hp
  case hdue =>
    intro x t _ _ hx
    exact .inl hx
  all_goals first | rfl | simp

/-- A request that has `responded` set was answered, or its call has the lock. -/
theorem Inv.responded (hres : (s.req r).responded = true) :
    Event.write r ∈ s.log ∨ (s.req r).pc = .mark ∨ (s.req r).pc = .write := by
  have hl := h.locals hr
  rw [hl.responded] at hres
  have hwritten := hl.written
  by_cases hw : (s.req r).pc.written = true
  · rw [if_pos hw] at hwritten
    exact .inl (count_pos_iff.mp (by omega))
  · refine .inr (.inr ?_)
    generalize (s.req r).pc = pc at hres hw
    cases pc <;> first | rfl | exact absurd rfl hw | cases hres

theorem Inv.rflush_wlock (hpc : (s.req r).pc = .rflush or) (hres : (s.req or).responded = true) :
    Inv reader { s with req := update s.req r { s.req r with oldreq := none, pc := .wlock } } := by
  have hl := h.locals hr
  have hold := hl.rflush hpc
  have hor := h.pool.kind hr hold
  apply h.advanced_quiet hpc (q := { s.req r with oldreq := none, pc := .wlock })
    ⟨rfl, rfl, hr, rfl, rfl, rfl⟩
  case hresponded =>
    rw [hl.responded, hpc]
    rfl
  case hearly =>
    intro _ hx
    cases hx
  case hkind =>
    intro _ hx
    cases hx
  case hfake =>
    intro hp
    rw [hor.2.1] at hp
    cases hp
  case hdue =>
    intro x t _ _ hx
    obtain rfl : or = x := Option.some.inj (hold.symm.trans hx)
    exact .inr (h.responded (Nat.lt_of_le_of_lt hor.1 hr) hres)
  all_goals first | rfl | simp

/-- What `sflush` finds. -/
theorem Inv.sflush_oldreq (hpc : (s.req r).pc = .sflush) (hkind : (s.req r).kind = .flush t)
    (hor : s.rpool.lookupkey t = some or) :
    or ≤ r ∧ (s.req r).pool = true ∧ ∃ t, (s.req r).kind = .flush t ∧ (s.req or).tag = t := by
  obtain ⟨hlt, htag, -⟩ := h.pool.lookup.mp hor
  -- nothing was read after `r`
  have hlast := (h.calls.sflush hr hpc).1
  refine ⟨by omega, ?_, t, hkind, htag⟩
  cases hp : (s.req r).pool with
  | true => rfl
  | false => cases hkind.symm.trans (h.kind_of_fake hr hp (by rw [hpc]; simp))

theorem Inv.sflush_enter (hpc : (s.req r).pc = .sflush) (hkind : (s.req r).kind = .flush t) :
    Inv reader
      { s with
        req := update s.req r { s.req r with oldreq := s.rpool.lookupkey t, pc := .enter } } := by
  have hl := h.locals hr
  apply h.advanced_quiet hpc (q := { s.req r with oldreq := s.rpool.lookupkey t, pc := .enter })
    ⟨rfl, rfl, hr, rfl, rfl, rfl⟩
  case hresponded =>
    rw [hl.responded, hpc]
    rfl
  case hearly =>
    intro _ _
    rfl
  case hkind =>
    intro or hor
    exact h.sflush_oldreq hr hpc hkind hor
  case hdue =>
    intro x t' _ _ hx
    have := hl.early hx
    rw [hpc] at this
    cases this
  case hsflush =>
    intro x t' hk _ hx
    obtain rfl : t = t' := by
      rw [hkind] at hk
      exact Kind.flush.inj hk
    exact hx
  all_goals first | rfl | simp

theorem Inv.mark_write (hpc : (s.req r).pc = .mark) :
    Inv reader
      { s with req := update s.req r { s.req r with responded := true, pc := .write } } := by
  have hold := h.oldreq_none hr (by rw [hpc]; rfl)
  apply h.advanced_quiet hpc (q := { s.req r with responded := true, pc := .write })
    ⟨rfl, rfl, hr, rfl, rfl, rfl⟩
  case hearly =>
    intro or hor
    rw [hold] at hor
    cases hor
  case hkind =>
    intro or hor
    exact h.pool.kind hr hor
  case hfake =>
    intro hp hk
    exact absurd (h.kind_of_fake hr hp (by rw [hpc]; simp)) hk
  case hdue =>
    intro x t _ _ hx
    exact .inl hx
  all_goals first | rfl | simp

/-- A step after `rflush`, with the locks, that changes only where the call is. -/
theorem Inv.advanced_pc (hpc : (s.req r).pc = pc₀) (pc : Pc) (hreq : s'.req = (s.goto r pc).req)
    (hnreq : s'.nreq = s.nreq) (hcalls : s'.calls = s.calls) (hactive : pc₀.active = true)
    (hindex : pc₀.index = 0) (hearly : pc₀.early = false) (hsflush : pc₀ ≠ .sflush)
    (hqactive : pc.active = true) (hqindex : pc.index = 0) (hqsflush : pc ≠ .sflush)
    (hqrflush : ∀ or, pc ≠ .rflush or) (hresponded : pc.marked = pc₀.marked)
    (hlk : s'.lk r = pc.holdsLk) (hw : s'.wlock = some r ↔ pc.holdsW = true)
    (hwritten : s'.log.count (.write r) = if pc.written then 1 else 0)
    (hlks : ∀ x, x ≠ r → s'.lk x = s.lk x)
    (hwlock : ∀ x, x ≠ r → (s'.wlock = some x ↔ s.wlock = some x))
    (hcount : ∀ x, x ≠ r → s'.log.count (.write x) = s.log.count (.write x))
    (hlookup : ∀ t x, s'.rpool.lookupkey t = some x ↔ s.rpool.lookupkey t = some x ∧ (x = r →
      pc.pooled = true)) (hpooled : pc.pooled = true → pc₀.pooled = true) (horder : Order s') :
    Inv reader s' := by
  subst hpc
  have hm : Moved s s' r { s.req r with pc := pc } := ⟨hreq, hnreq, hr, rfl, rfl, rfl⟩
  have hold := h.oldreq_none hr hearly
  have henter : (s.req r).pc ≠ .enter := by
    intro he
    rw [he] at hearly
    cases hearly
  refine h.advanced ⟨hm, rfl, rfl, rfl, hcalls, hactive, hqactive, hindex, hqindex, hqsflush⟩
    (.inl rfl) (h.toBase.of_moved hm
      ⟨?_, ?_, ?_, ?_, fun {or} hor => ?_, fun {or} hor => ?_, fun hd => ?_⟩ hlks hwlock hcount
      (h.pool.moved hm hlookup hpooled (fun or hor => h.pool.kind hr hor) fun hp => ?_) horder)
  · rw [hm.req_self]
    exact (h.locals hr).responded.trans hresponded.symm
  · rw [hm.req_self]
    exact hlk
  · rw [hm.req_self]
    exact hw
  · rw [hm.req_self]
    exact hwritten
  · rw [hm.req_self] at hor
    cases hold.symm.trans hor
  · rw [hm.req_self] at hor
    exact absurd hor (hqrflush or)
  · rw [hm.req_self] at hd
    exact absurd hd (not_done hqactive)
  · exact ⟨(h.pool.fake hr hp).1, fun hk => absurd (h.kind_of_fake hr hp henter) hk⟩

/-- Such a step keeps the order if nothing is written. -/
theorem Inv.order_pc (hpc : (s.req r).pc = pc₀) (pc : Pc) (hreq : s'.req = (s.goto r pc).req)
    (hnreq : s'.nreq = s.nreq) (hlog : s'.log = s.log) (hearly : pc₀.early = false)
    (hsflush : pc₀ ≠ .sflush) (hwritten : pc.written = pc₀.written)
    (hmark : pc₀ = .mark ∨ pc₀ = .write → pc = .mark ∨ pc = .write)
    (hlookup : ∀ t x, s.rpool.lookupkey t = some x → s'.rpool.lookupkey t = some x ∨ x = r ∧
      (pc = .mark ∨ pc = .write)) : Order s' := by
  subst hpc
  have hm : Moved s s' r { s.req r with pc := pc } := ⟨hreq, hnreq, hr, rfl, rfl, rfl⟩
  refine h.order.moved hm hlog (fun x t hne _ hd => ?_) hmark hlookup
  refine hd.congr hm hne hlog (fun hw => hwritten.trans hw) .inl fun hs => absurd hs hsflush

theorem Inv.wlock_remove (hpc : (s.req r).pc = .wlock) (hfree : s.wlock = none) :
    Inv reader { s.goto r .remove with wlock := some r } := by
  have hl := h.locals hr
  apply h.advanced_pc hr hpc .remove
  case horder =>
    apply h.order_pc hr hpc .remove
    case hlookup => exact fun t x hx => .inl hx
    all_goals first | rfl | simp
  case hlk => exact hl.lk.trans (by rw [hpc]; rfl)
  case hwritten => exact hl.written.trans (by rw [hpc]; rfl)
  case hwlock =>
    intro x hx
    rw [hfree]
    exact iff_of_false (fun he => hx (Option.some.inj he).symm) (by simp)
  case hlookup =>
    intro t x
    exact (and_iff_left fun _ => rfl).symm
  all_goals first | rfl | simp [Sys.goto, Pc.holdsW, Pc.pooled]

theorem Inv.remove_mark (hpc : (s.req r).pc = .remove) :
    Inv reader { s.goto r .mark with
      rpool := if (s.req r).pool then s.rpool.deletekey (s.req r).tag else s.rpool } := by
  have hl := h.locals hr
  -- the tag of a fake belongs to another request
  have hlookup : ∀ t x, (if (s.req r).pool then s.rpool.deletekey (s.req r).tag
      else s.rpool).lookupkey t = some x ↔ s.rpool.lookupkey t = some x ∧ x ≠ r := by
    intro t x
    cases hp : (s.req r).pool with
    | false =>
      refine (and_iff_left_of_imp ?_).symm
      rintro hx rfl
      rw [(h.pool.lookup.mp hx).2.2.1] at hp
      cases hp
    | true =>
      have hmem : s.rpool.lookupkey (s.req r).tag = some r :=
        h.pool.lookup.mpr ⟨hr, rfl, hp, by rw [hpc]; rfl⟩
      rw [if_pos rfl, Intmap.lookupkey_deletekey]
      by_cases ht : t = (s.req r).tag
      · rw [if_pos ht, ht, hmem]
        refine iff_of_false (by simp) fun hx => hx.2 (Option.some.inj hx.1).symm
      · rw [if_neg ht]
        refine (and_iff_left_of_imp ?_).symm
        rintro hx rfl
        exact ht (h.pool.lookup.mp hx).2.1.symm
  apply h.advanced_pc hr hpc .mark
  case horder =>
    apply h.order_pc hr hpc .mark
    case hlookup =>
      intro t x hx
      by_cases hxr : x = r
      · exact .inr ⟨hxr, .inl rfl⟩
      · exact .inl ((hlookup t x).mpr ⟨hx, hxr⟩)
    all_goals first | rfl | simp
  case hlk => exact hl.lk.trans (by rw [hpc]; rfl)
  case hwritten => exact hl.written.trans (by rw [hpc]; rfl)
  case hw => exact hl.wlock.trans (by rw [hpc]; rfl)
  case hlookup =>
    intro t x
    rw [hlookup]
    simp [Pc.pooled]
  all_goals first | rfl | simp [Sys.goto, Pc.pooled]

theorem Inv.free_flush (hpc : (s.req r).pc = .free) :
    Inv reader { s.goto r (.flush 0) with lk := update s.lk r true } := by
  have hl := h.locals hr
  apply h.advanced_pc hr hpc (.flush 0)
  case horder =>
    apply h.order_pc hr hpc (.flush 0)
    case hlookup => exact fun t x hx => .inl hx
    all_goals first | rfl | simp
  case hlk => exact update_self ..
  case hlks => exact fun x hx => update_of_ne hx ..
  case hwritten => exact hl.written.trans (by rw [hpc]; rfl)
  case hw => exact hl.wlock.trans (by rw [hpc]; rfl)
  case hlookup =>
    intro t x
    refine (and_iff_left_of_imp ?_).symm
    rintro hx rfl
    have := (h.pool.lookup.mp hx).2.2.2
    rw [hpc] at this
    cases this
  all_goals first | rfl | simp [Sys.goto, Pc.pooled]

/-- A flush whose reply is going to be written has nothing left to wait for. -/
theorem Inv.written_before (hpc : (s.req r).pc = .write) (hn : Names s.log r x) (hne : r ≠ x)
    (hk : (s.req r).kind = .flush t) (ht : (s.req x).tag = t) : .write x ∈ s.log := by
  have hx : x < s.nreq := by
    obtain ⟨l₁, l₂, hlog, hread, -⟩ := hn
    exact h.order.read.mp (by rw [hlog]; exact mem_append_left _ hread)
  -- only one call has the lock
  have hlock : (s.req x).pc.holdsW = false := by
    have hw := (h.locals hr).wlock.mpr (by rw [hpc]; rfl)
    cases hwx : (s.req x).pc.holdsW with
    | false => rfl
    | true => exact absurd (Option.some.inj (hw.symm.trans ((h.locals hx).wlock.mpr hwx))) hne
  rcases h.order.due hn hne hk ht with hw | ⟨-, hm | hm | hold | ⟨hs, -⟩ | hp⟩
  · exact hw
  · rw [hm] at hlock
    cases hlock
  · rw [hm] at hlock
    cases hlock
  · cases hold.symm.trans (h.oldreq_none hr (by rw [hpc]; rfl))
  · cases hpc.symm.trans hs
  · cases hk.symm.trans (h.kind_of_fake hr hp (by rw [hpc]; simp))

theorem Inv.write_free (hpc : (s.req r).pc = .write) :
    Inv reader { s.goto r .free with log := s.log ++ [.write r], wlock := none } := by
  have hl := h.locals hr
  have hm := moved_goto s hr .free
  have hwlock := hl.wlock.mpr (by rw [hpc]; rfl)
  have hcount : s.log.count (.write r) = 0 := hl.written.trans (by rw [hpc]; rfl)
  apply h.advanced_pc hr hpc .free
  case horder =>
    refine ⟨fun {x} => ?_, fun {x} hx => ?_, fun {f x t} hn hne hk ht => ?_,
      fun {f x t} hn hne hk ht => ?_⟩
    · rw [mem_append, h.order.read]
      simp [Sys.goto]
    · rcases mem_append.mp hx with hx | hx
      · exact h.order.write hx
      · cases mem_singleton.mp hx
        exact hr
    all_goals
      replace hn := hn.of_append.resolve_right (by simp)
      replace hk := (hm.kind_eq f).symm.trans hk
      replace ht := (hm.tag_eq x).symm.trans ht
    · by_cases hf : f = r
      · subst hf
        exact .inl (mem_append_left _ (h.written_before hr hpc hn hne hk ht))
      by_cases hx : x = r
      · subst hx
        exact .inl (mem_append_right _ (mem_singleton.mpr rfl))
      have hdue := h.order.due hn hne hk ht
      rw [Due, ← hm.req_of_ne hf, ← hm.req_of_ne hx] at hdue
      exact hdue.imp_left (mem_append_left _)
    · refine (h.order.precedes hn hne hk ht).append fun he => ?_
      cases he
      exact h.written_before hr hpc hn hne hk ht
  case hlk => exact hl.lk.trans (by rw [hpc]; rfl)
  case hwritten => simp [Pc.written, hcount]
  case hw => simp [Pc.holdsW]
  case hwlock =>
    intro x hx
    rw [hwlock]
    exact iff_of_false (by simp) fun he => hx (Option.some.inj he).symm
  case hcount =>
    intro x hx
    have : Event.write r ≠ Event.write x := fun he => hx (Event.write.inj he).symm
    simp [this]
  case hlookup =>
    intro t x
    refine (and_iff_left_of_imp ?_).symm
    rintro hx rfl
    have := (h.pool.lookup.mp hx).2.2.2
    rw [hpc] at this
    cases this
  all_goals first | rfl | simp [Sys.goto, Pc.pooled]

end Go

end Plan9Port.Srv
