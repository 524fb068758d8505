import Plan9Port.Lib9.Atoi
import Plan9Port.Utf.Rune

/-!
# The event log of acme

`acme/logf.c`: the log that programs read to follow what happens to windows. Events are kept in an
array from the absolute position `start` on; each fid that is open on the log has its own absolute
position. When the array is full, the events that all of these fids have read are dropped.

All of it runs under one lock. A read that finds nothing sleeps and releases the lock; once it is
woken up it looks again, whenever it gets the lock back. What `resume` does is one such turn. The
threads that serve requests belong to one process and are not preempted, so that a read answers
before another one gets on.

`nf`, `mf`, `nread` and `mread` are the lengths and the capacities of two arrays that hold lists.
-/

namespace Plan9Port.Acme.Log

open Plan9Port.Utf List
open Function (update update_apply update_of_ne)

/-! ## Events -/

/-- The names of a file. -/
structure File where
  ename : Option (List Rune)
  name : Option (List Rune)

/-- A window with its file. -/
structure Window where
  id : Int
  file : File

/-- The text of the runes, up to the first null. -/
def runetobyte (r : Option (List Rune)) : Option (List UInt8) :=
  r.map fun r => (r.takeWhile (· ≠ 0)).flatMap runetochar

/-- `smprint("%d %s %s\n", w->id, op, name)`. -/
def message (w : Window) (op : List UInt8) : List UInt8 :=
  let name :=
    match w.file.ename with
    | some (r :: rs) => runetobyte (some (r :: rs))
    | _ => runetobyte w.file.name
  let id := (if w.id < 0 then [0x2d] else []) ++ Lib9.decimal w.id.natAbs
  id ++ [0x20] ++ op ++ [0x20] ++ name.getD [] ++ [0x0a]

/-! ## The log -/

/-- The events from `start` on, the fids and the requests that sleep. -/
structure Eventlog (φ χ : Type) where
  start : Nat
  ev : List (List UInt8)
  mev : Nat
  f : List φ
  read : List χ

/-- A request to read. -/
structure Xfid (φ : Type) where
  f : φ
  tag : Nat
  flushed : Bool

/-- The log, the positions of the fids, the requests, and which of them sleep. -/
structure State (φ χ : Type) where
  eventlog : Eventlog φ χ
  logoff : φ → Nat
  xfid : χ → Xfid φ
  asleep : χ → Bool

variable {φ χ : Type} [DecidableEq φ] [DecidableEq χ] {st : State φ χ} {F : χ → Bool} {x : χ}

/-- `a[i] = a[--n]` for the first `i` at which `a` holds `x`. -/
def remove {α : Type} [DecidableEq α] (x : α) (a : List α) : List α :=
  if x ∈ a then (a.set (a.idxOf x) (a.getLast?.getD x)).dropLast else a

/-- All that sleep are woken up. -/
def rwakeupall (st : State φ χ) : State φ χ := { st with asleep := fun _ => false }

/-- A fid is opened on the log, at its end. -/
def xfidlogopen (f : φ) (st : State φ χ) : State φ χ :=
  { st with eventlog := { st.eventlog with f := st.eventlog.f ++ [f] },
            logoff := Function.update st.logoff f
              (st.eventlog.start + st.eventlog.ev.length) }

/-- A fid is closed. -/
def xfidlogclose (f : φ) (st : State φ χ) : State φ χ :=
  { st with eventlog := { st.eventlog with f := remove f st.eventlog.f } }

/-- What a read comes to. -/
inductive Outcome (φ χ : Type) where
  | done
  | blocked
  | flushed (x : χ)
  | respond (x : χ) (f : φ) (data : List UInt8)

/-- A turn of the loop in `xfidlogread`, and what follows it. -/
def resume (x : χ) (st : State φ χ) : Option (State φ χ × Outcome φ χ) :=
  let f := (st.xfid x).f
  let log := st.eventlog
  if st.logoff f ≥ log.start + log.ev.length ∧ (st.xfid x).flushed = false then
    some ({ st with asleep := Function.update st.asleep x true }, .blocked)
  else
    let st := { st with eventlog := { log with read := remove x log.read } }
    if (st.xfid x).flushed then some (st, .flushed x)
    else if st.logoff f < log.start then none
    else do
      let p ← log.ev[st.logoff f - log.start]?
      return ({ st with logoff := Function.update st.logoff f (st.logoff f + 1) }, .respond x f p)

/-- A read begins. -/
def xfidlogread (x : χ) (f : φ) (tag : Nat) (st : State φ χ) :
    Option (State φ χ × Outcome φ χ) :=
  resume x
    { st with eventlog := { st.eventlog with read := st.eventlog.read ++ [x] },
              xfid := Function.update st.xfid x ⟨f, tag, false⟩ }

/-- A request that has the tag is marked. -/
def flush (oldtag : Nat) (st : State φ χ) (rx : χ) : State φ χ :=
  if (st.xfid rx).tag = oldtag then
    rwakeupall { st with xfid := Function.update st.xfid rx { st.xfid rx with flushed := true } }
  else st

/-- The requests with the tag are flushed. -/
def xfidlogflush (oldtag : Nat) (st : State φ χ) : State φ χ :=
  st.eventlog.read.foldl (flush oldtag) st

/-- The smallest of the positions of the fids and of `min`. -/
def lowest (logoff : φ → Nat) (f : List φ) (min : Nat) : Nat :=
  f.foldl (fun min f => if min > logoff f then logoff f else min) min

/-- Drops what all have read. -/
def discard (logoff : φ → Nat) (log : Eventlog φ χ) : Eventlog φ χ :=
  let min := lowest logoff log.f (log.start + log.ev.length)
  if min > log.start then
    { log with start := log.start + (min - log.start), ev := log.ev.drop (min - log.start) }
  else log

/-- A full array is made twice as large. -/
def grow (log : Eventlog φ χ) : Eventlog φ χ :=
  if log.ev.length ≥ log.mev then
    { log with mev := if log.mev * 2 = 0 then 8 else log.mev * 2 }
  else log

/-- An event is logged. -/
def xfidlog (w : Window) (op : List UInt8) (st : State φ χ) : State φ χ :=
  let log :=
    if st.eventlog.ev.length ≥ st.eventlog.mev then grow (discard st.logoff st.eventlog)
    else st.eventlog
  rwakeupall { st with eventlog := { log with ev := log.ev ++ [message w op] } }

/-! ## Runs -/

/-- The calls, and the turn of a read that was woken up. -/
inductive Op (φ χ : Type) where
  | xfidlog (w : Window) (op : List UInt8)
  | xfidlogopen (f : φ)
  | xfidlogread (x : χ) (f : φ) (tag : Nat)
  | resume (x : χ)
  | xfidlogflush (oldtag : Nat)
  | xfidlogclose (f : φ)

/-- What a call does. -/
def exec : Op φ χ → State φ χ → Option (State φ χ × Outcome φ χ)
  | .xfidlog w op, st => some (Log.xfidlog w op st, .done)
  | .xfidlogopen f, st => some (Log.xfidlogopen f st, .done)
  | .xfidlogread x f tag, st => Log.xfidlogread x f tag st
  | .resume x, st => Log.resume x st
  | .xfidlogflush oldtag, st => some (Log.xfidlogflush oldtag st, .done)
  | .xfidlogclose f, st => some (Log.xfidlogclose f st, .done)

/-- A request reads from a fid that is open, and serves nothing else meanwhile; a read goes on after
it has been woken up; no fid is closed while it is being read. -/
def Allowed (st : State φ χ) : Op φ χ → Prop
  | .xfidlogread x f _ => x ∉ st.eventlog.read ∧ f ∈ st.eventlog.f
  | .resume x => x ∈ st.eventlog.read ∧ st.asleep x = false
  | .xfidlogclose f => ∀ x ∈ st.eventlog.read, (st.xfid x).f ≠ f
  | _ => True

instance (st : State φ χ) (op : Op φ χ) : Decidable (Allowed st op) :=
  match op with
  | .xfidlogread x f _ => inferInstanceAs (Decidable (x ∉ st.eventlog.read ∧ f ∈ st.eventlog.f))
  | .resume x => inferInstanceAs (Decidable (x ∈ st.eventlog.read ∧ st.asleep x = false))
  | .xfidlogclose f => inferInstanceAs (Decidable (∀ x ∈ st.eventlog.read, (st.xfid x).f ≠ f))
  | .xfidlog _ _ | .xfidlogopen _ | .xfidlogflush _ => inferInstanceAs (Decidable True)

/-- A call that was made. -/
structure Step (φ χ : Type) where
  before : State φ χ
  op : Op φ χ
  out : Outcome φ χ
  after : State φ χ

/-- Nothing is logged or open. -/
def initial (logoff : φ → Nat) (xfid : χ → Xfid φ) : State φ χ :=
  ⟨⟨0, [], 0, [], []⟩, logoff, xfid, fun _ => false⟩

/-- A run, with its steps. -/
inductive Run (init : State φ χ) : List (Step φ χ) → State φ χ → Prop
  | nil : Run init [] init
  | snoc {trace : List (Step φ χ)} {st st' : State φ χ} {op : Op φ χ} {out : Outcome φ χ} :
    Run init trace st → Allowed st op → exec op st = some (st', out) →
      Run init (trace ++ [⟨st, op, out, st'⟩]) st'

/-- All the events of a run. -/
def logged (trace : List (Step φ χ)) : List (List UInt8) :=
  trace.filterMap fun s =>
    match s.op with
    | .xfidlog w op => some (message w op)
    | _ => none

/-- The events since the fid was opened. -/
def loggedSince (f : φ) (trace : List (Step φ χ)) : List (List UInt8) :=
  trace.foldl (fun es s =>
    match s.op with
    | .xfidlog w op => es ++ [message w op]
    | .xfidlogopen g => if g = f then [] else es
    | _ => es) []

/-- The events that reads of the fid have returned since it was opened. -/
def returned (f : φ) (trace : List (Step φ χ)) : List (List UInt8) :=
  trace.foldl (fun es s =>
    match s.op, s.out with
    | .xfidlogopen g, _ => if g = f then [] else es
    | _, .respond _ g data => if g = f then es ++ [data] else es
    | _, _ => es) []

/-- Whether the request that `x` serves has been flushed. -/
def flushedSince (x : χ) (trace : List (Step φ χ)) : Bool :=
  trace.foldl (fun b s =>
    match s.op with
    | .xfidlogread y _ _ => if y = x then false else b
    | .xfidlogflush oldtag =>
      b || (decide (x ∈ s.before.eventlog.read) && decide ((s.before.xfid x).tag = oldtag))
    | _ => b) false

/-! ## The arrays -/

section Remove

variable {α : Type} [DecidableEq α] {a : List α}

/-- Up to order, `remove` takes one occurrence away. -/
theorem remove_perm (x : α) (a : List α) : (remove x a).Perm (a.erase x) := by
  rw [remove]
  split_ifs with hx
  · obtain ⟨l, r, rfl, hl⟩ := eq_append_cons_of_mem hx
    rw [idxOf_append_of_notMem hl, idxOf_cons_self, add_zero,
      erase_append_right _ hl, erase_cons_head]
    rcases eq_nil_or_concat r with rfl | ⟨r, y, rfl⟩
    · simp
    -- the last element moves to where `x` was
    have hset : ((l ++ x :: (r ++ [y])).set l.length y).dropLast = l ++ y :: r := by
      rw [set_append_right _ _ le_rfl, Nat.sub_self, set_cons_zero,
        ← cons_append, ← append_assoc, dropLast_concat]
    rw [concat_eq_append]
    simp only [← cons_append, ← append_assoc, getLast?_concat, Option.getD_some]
    rw [append_assoc, cons_append, hset, append_assoc]
    exact (perm_append_singleton y r).symm.append_left l
  · rw [erase_of_not_mem hx]

theorem mem_of_mem_remove {x y : α} (h : y ∈ remove x a) : y ∈ a :=
  mem_of_mem_erase ((remove_perm x a).mem_iff.mp h)

theorem mem_remove_of_ne {x y : α} (h : y ∈ a) (hne : y ≠ x) : y ∈ remove x a :=
  (remove_perm x a).mem_iff.mpr ((mem_erase_of_ne hne).mpr h)

theorem nodup_remove {x : α} (h : a.Nodup) : (remove x a).Nodup :=
  (remove_perm x a).nodup_iff.mpr (h.erase x)

end Remove

omit [DecidableEq φ] in
theorem lowest_le (logoff : φ → Nat) (f : List φ) (min : Nat) :
    lowest logoff f min ≤ min ∧ ∀ g ∈ f, lowest logoff f min ≤ logoff g := by
  induction f generalizing min with
  | nil => exact ⟨le_rfl, by simp⟩
  | cons g f ih =>
    obtain ⟨hmin, hall⟩ := ih (if min > logoff g then logoff g else min)
    rw [lowest, foldl_cons]
    change lowest logoff f _ ≤ _ ∧ ∀ h ∈ g :: f, lowest logoff f _ ≤ _
    refine ⟨?_, forall_mem_cons.mpr ⟨?_, hall⟩⟩
    · split_ifs at hmin ⊢ <;> omega
    · split_ifs at hmin ⊢ <;> omega

omit [DecidableEq φ] [DecidableEq χ] in
/-- What is dropped has been read by all the fids. -/
theorem discard_spec (logoff : φ → Nat) {log : Eventlog φ χ}
    (h : ∀ g ∈ log.f, log.start ≤ logoff g) :
    ∃ n ≤ log.ev.length, discard logoff log =
        { log with start := log.start + n, ev := log.ev.drop n } ∧
      ∀ g ∈ log.f, log.start + n ≤ logoff g := by
  obtain ⟨hmin, hall⟩ := lowest_le logoff log.f (log.start + log.ev.length)
  rw [discard]
  split_ifs with hlt
  · refine ⟨_, by omega, rfl, fun g hg => ?_⟩
    have := hall g hg
    omega
  · exact ⟨0, Nat.zero_le _, by simp, by simpa using h⟩

/-! ## The invariant -/

/-- The events `L` have been logged in all, `S g` since `g` was opened, of which `R g` have been
returned; `F x` says whether the request `x` has been flushed. -/
structure Inv (L : List (List UInt8)) (S R : φ → List (List UInt8)) (F : χ → Bool)
    (st : State φ χ) : Prop where
  held : st.eventlog.ev = L.drop st.eventlog.start
  start_le : st.eventlog.start ≤ L.length
  past : ∀ g ∈ st.eventlog.f, st.eventlog.start ≤ st.logoff g ∧ st.logoff g ≤ L.length
  rest : ∀ g ∈ st.eventlog.f, S g = R g ++ L.drop (st.logoff g)
  in_order : ∀ g, R g <+: S g
  reads : ∀ x ∈ st.eventlog.read, (st.xfid x).f ∈ st.eventlog.f
  nodup : st.eventlog.read.Nodup
  flushed : ∀ x ∈ st.eventlog.read, (st.xfid x).flushed = F x
  asleep : ∀ x, st.asleep x = true → x ∈ st.eventlog.read ∧ (st.xfid x).flushed = false ∧
    L.length ≤ st.logoff (st.xfid x).f

section Inv

variable {L : List (List UInt8)} {S R : φ → List (List UInt8)}

omit [DecidableEq φ] [DecidableEq χ] in
/-- The end of the array is the end of the log. -/
theorem Inv.end_eq (h : Inv L S R F st) :
    st.eventlog.start + st.eventlog.ev.length = L.length := by
  have := h.start_le
  rw [h.held, length_drop]
  omega

omit [DecidableEq φ] [DecidableEq χ] in
theorem Inv.xfidlog (h : Inv L S R F st) (w : Window) (op : List UInt8) :
    Inv (L ++ [message w op]) (fun g => S g ++ [message w op]) R F (xfidlog w op st) := by
  -- whatever room is made, the array holds the events from its start on
  obtain ⟨log, hlog, hf, hread, hheld, hstart, hpast⟩ : ∃ log : Eventlog φ χ,
      Log.xfidlog w op st =
        rwakeupall { st with eventlog := { log with ev := log.ev ++ [message w op] } } ∧
      log.f = st.eventlog.f ∧ log.read = st.eventlog.read ∧ log.ev = L.drop log.start ∧
      log.start ≤ L.length ∧ ∀ g ∈ st.eventlog.f, log.start ≤ st.logoff g := by
    have hend := h.end_eq
    refine ⟨_, rfl, ?_⟩
    split_ifs
    · obtain ⟨n, hn, hdiscard, hall⟩ := discard_spec st.logoff fun g hg =>
        (h.past g hg).1
      have hgrow : ∀ log : Eventlog φ χ, (grow log).f = log.f ∧ (grow log).read = log.read ∧
          (grow log).ev = log.ev ∧ (grow log).start = log.start := by
        intro log
        rw [grow]
        split_ifs <;> exact ⟨rfl, rfl, rfl, rfl⟩
      obtain ⟨hf, hread, hev, hstart⟩ := hgrow (discard st.logoff st.eventlog)
      rw [hf, hread, hev, hstart, hdiscard]
      refine ⟨rfl, rfl, ?_, ?_, hall⟩
      · simp only [h.held, drop_drop]
      · change st.eventlog.start + n ≤ L.length
        omega
    · exact ⟨rfl, rfl, h.held, h.start_le, fun g hg => (h.past g hg).1⟩
  rw [hlog]
  refine ⟨?_, ?_, fun g hg => ?_, fun g hg => ?_, fun g => ?_, fun x hx => ?_, ?_, fun x hx => ?_,
    fun x hx => absurd hx (by simp [rwakeupall])⟩
  · simp only [rwakeupall, hheld, drop_append_of_le_length hstart]
  · simp only [rwakeupall, length_append]
    omega
  · have hg' : g ∈ st.eventlog.f := hf ▸ hg
    have hle := (h.past g hg').2
    refine ⟨hpast g hg', ?_⟩
    simp only [rwakeupall, length_append]
    omega
  · have hg' : g ∈ st.eventlog.f := hf ▸ hg
    simp only [rwakeupall, drop_append_of_le_length (h.past g hg').2]
    rw [h.rest g hg', append_assoc]
  · exact (h.in_order g).trans (prefix_append _ _)
  · have hx' : x ∈ st.eventlog.read := hread ▸ hx
    simp only [rwakeupall, hf]
    exact h.reads x hx'
  · simp only [rwakeupall, hread]
    exact h.nodup
  · exact h.flushed x (hread ▸ hx)

omit [DecidableEq χ] in
theorem Inv.xfidlogopen (h : Inv L S R F st) (f : φ) :
    Inv L (update S f []) (update R f []) F (xfidlogopen f st) := by
  have hend := h.end_eq
  have hlogoff : ∀ g, (Log.xfidlogopen f st).logoff g =
      if g = f then L.length else st.logoff g := by
    intro g
    simp only [Log.xfidlogopen, hend, update_apply]
  have hmem : ∀ g ∈ (Log.xfidlogopen f st).eventlog.f, g ≠ f → g ∈ st.eventlog.f := by
    intro g hg hne
    exact (mem_append.mp hg).resolve_right fun hg => hne (mem_singleton.mp hg)
  refine ⟨h.held, h.start_le, fun g hg => ?_, fun g hg => ?_, fun g => ?_, fun x hx => ?_, h.nodup,
    h.flushed, fun x hx => ?_⟩
  · rw [hlogoff]
    split_ifs with hgf
    · exact ⟨h.start_le, le_rfl⟩
    · exact h.past g (hmem g hg hgf)
  · rw [hlogoff]
    by_cases hgf : g = f
    · subst hgf
      simp
    · rw [if_neg hgf, update_of_ne hgf, update_of_ne hgf]
      exact h.rest g (hmem g hg hgf)
  · by_cases hgf : g = f
    · subst hgf
      simp
    · rw [update_of_ne hgf, update_of_ne hgf]
      exact h.in_order g
  · exact mem_append_left _ (h.reads x hx)
  · obtain ⟨hmem, hflushed, hle⟩ := h.asleep x hx
    refine ⟨hmem, hflushed, ?_⟩
    rw [hlogoff]
    split_ifs
    · exact le_rfl
    · exact hle

omit [DecidableEq χ] in
theorem Inv.xfidlogclose (h : Inv L S R F st) {f : φ}
    (hf : ∀ x ∈ st.eventlog.read, (st.xfid x).f ≠ f) : Inv L S R F (xfidlogclose f st) :=
  ⟨h.held, h.start_le, fun g hg => h.past g (mem_of_mem_remove hg),
    fun g hg => h.rest g (mem_of_mem_remove hg), h.in_order,
    fun x hx => mem_remove_of_ne (h.reads x hx) (hf x hx), h.nodup, h.flushed, h.asleep⟩

omit [DecidableEq φ] in
/-- The loop of `xfidlogflush`, over the requests `xs`. -/
theorem flush_loop (oldtag : Nat) (xs : List χ) (st : State φ χ) :
    xs.foldl (flush oldtag) st =
    { st with
      xfid := fun x => { st.xfid x with flushed := (st.xfid x).flushed ||
        (decide (x ∈ xs) && decide ((st.xfid x).tag = oldtag)) },
      asleep := fun x => st.asleep x && ! xs.any fun y => (st.xfid y).tag = oldtag } := by
  induction xs generalizing st with
  | nil => simp
  | cons rx xs ih =>
    rw [foldl_cons, ih, flush]
    by_cases htag : (st.xfid rx).tag = oldtag
    · rw [if_pos htag]
      simp only [rwakeupall, Bool.false_and, any_cons, htag, decide_true, Bool.true_or,
        Bool.not_true, Bool.and_false]
      congr 1
      funext x
      by_cases hx : x = rx
      · subst hx
        simp [htag]
      · simp [hx]
    · rw [if_neg htag]
      congr 1
      · funext x
        by_cases hx : x = rx
        · subst hx
          simp [htag]
        · simp [hx]
      · funext x
        simp [htag]

omit [DecidableEq φ] in
theorem Inv.xfidlogflush (h : Inv L S R F st) (oldtag : Nat) :
    Inv L S R (fun x => F x || (decide (x ∈ st.eventlog.read) &&
      decide ((st.xfid x).tag = oldtag))) (xfidlogflush oldtag st) := by
  rw [Log.xfidlogflush, flush_loop]
  refine ⟨h.held, h.start_le, h.past, h.rest, h.in_order, h.reads, h.nodup, fun x hx => ?_,
    fun x hx => ?_⟩
  · have hx' : x ∈ st.eventlog.read := hx
    simp only [h.flushed x hx']
  -- a read that sleeps on has not been flushed
  simp only [Bool.and_eq_true, Bool.not_eq_true', any_eq_false, decide_eq_true_eq] at hx
  obtain ⟨hmem, hflushed, hle⟩ := h.asleep x hx.1
  refine ⟨hmem, ?_, hle⟩
  simp only [hflushed, Bool.false_or, Bool.and_eq_false_iff, decide_eq_false_iff_not]
  exact Or.inr (hx.2 x hmem)

omit [DecidableEq φ] in
/-- A request begins to read. -/
theorem Inv.push (h : Inv L S R F st) {x : χ} (hx : x ∉ st.eventlog.read) {f : φ}
    (hf : f ∈ st.eventlog.f) (tag : Nat) :
    Inv L S R (update F x false)
      { st with eventlog := { st.eventlog with read := st.eventlog.read ++ [x] },
                xfid := update st.xfid x ⟨f, tag, false⟩ } := by
  refine ⟨h.held, h.start_le, h.past, h.rest, h.in_order, fun y hy => ?_, ?_, fun y hy => ?_,
    fun y hy => ?_⟩
  · by_cases hyx : y = x
    · subst hyx
      simpa using hf
    · simp only [update_of_ne hyx]
      exact h.reads y ((mem_append.mp hy).resolve_right fun hy =>
        hyx (mem_singleton.mp hy))
  · exact nodup_append.mpr ⟨h.nodup, pairwise_singleton _ x, fun y hy z hz => by
      rintro rfl
      exact hx (mem_singleton.mp hz ▸ hy)⟩
  · by_cases hyx : y = x
    · subst hyx
      simp
    · simp only [update_of_ne hyx]
      exact h.flushed y ((mem_append.mp hy).resolve_right fun hy =>
        hyx (mem_singleton.mp hy))
  · obtain ⟨hmem, hflushed, hle⟩ := h.asleep y hy
    have hyx : y ≠ x := fun heq => hx (heq ▸ hmem)
    simp only [update_of_ne hyx]
    exact ⟨mem_append_left _ hmem, hflushed, hle⟩

/-- **A turn of a read.** It sleeps, or it has been flushed and leaves the events alone, or it
returns the next event of its fid, which the array holds. -/
theorem Inv.resume (h : Inv L S R F st) (hx : x ∈ st.eventlog.read) (hawake : st.asleep x = false) :
    ∃ st' out, resume x st = some (st', out) ∧
      (out = .blocked ∧ Inv L S R F st' ∨
        (out = .flushed x ∧ F x = true ∧ st'.logoff = st.logoff ∧
          st'.eventlog.ev = st.eventlog.ev ∧ st'.eventlog.start = st.eventlog.start ∧
          Inv L S R F st') ∨
        ∃ data, out = .respond x (st.xfid x).f data ∧ F x = false ∧
          Inv L S (update R (st.xfid x).f (R (st.xfid x).f ++ [data])) F st') := by
  have hend := h.end_eq
  have hopen := h.reads x hx
  obtain ⟨hstart, hle⟩ := h.past _ hopen
  rw [Log.resume]
  simp only [hend]
  by_cases hwait : st.logoff (st.xfid x).f ≥ L.length ∧ (st.xfid x).flushed = false
  · refine ⟨_, _, if_pos hwait,
      Or.inl ⟨rfl, h.held, h.start_le, h.past, h.rest, h.in_order, h.reads,
      h.nodup, h.flushed, fun y hy => ?_⟩⟩
    by_cases hyx : y = x
    · subst hyx
      exact ⟨hx, hwait.2, hwait.1⟩
    · simp only [update_of_ne hyx] at hy
      exact h.asleep y hy
  · rw [if_neg hwait]
    -- the requests that are left, with any positions that do not go back
    have hrest : ∀ logoff' : φ → Nat, (∀ g, st.logoff g ≤ logoff' g) → ∀ y, st.asleep y = true →
        y ∈ remove x st.eventlog.read ∧ (st.xfid y).flushed = false ∧
          L.length ≤ logoff' (st.xfid y).f := by
      intro logoff' hmono y hy
      obtain ⟨hmem, hflushed, hle⟩ := h.asleep y hy
      refine ⟨mem_remove_of_ne hmem ?_, hflushed, hle.trans (hmono _)⟩
      rintro rfl
      rw [hy] at hawake
      cases hawake
    by_cases hflushed : (st.xfid x).flushed = true
    · rw [if_pos hflushed]
      refine ⟨_, _, rfl, Or.inr (Or.inl ⟨rfl, h.flushed x hx ▸ hflushed, rfl, rfl, rfl, h.held,
        h.start_le, h.past, h.rest, h.in_order, fun y hy => h.reads y (mem_of_mem_remove hy),
        nodup_remove h.nodup, fun y hy => h.flushed y (mem_of_mem_remove hy),
        hrest _ fun g => le_rfl⟩)⟩
    · have hflushed' : (st.xfid x).flushed = false := by simpa using hflushed
      have hlt : st.logoff (st.xfid x).f < L.length := by
        by_contra hge
        exact hwait ⟨by omega, hflushed'⟩
      obtain ⟨data, hdata⟩ : ∃ data, L[st.logoff (st.xfid x).f]? = some data :=
        ⟨_, getElem?_eq_getElem hlt⟩
      have hev : st.eventlog.ev[st.logoff (st.xfid x).f - st.eventlog.start]? = some data := by
        rw [h.held, getElem?_drop, Nat.add_sub_cancel' hstart, hdata]
      have hdrop : L.drop (st.logoff (st.xfid x).f) =
          data :: L.drop (st.logoff (st.xfid x).f + 1) := by
        rw [drop_eq_getElem_cons hlt, Option.some_inj.mp
          ((getElem?_eq_getElem hlt).symm.trans hdata)]
      have hS : S (st.xfid x).f = (R (st.xfid x).f ++ [data]) ++
          L.drop (st.logoff (st.xfid x).f + 1) := by
        rw [h.rest _ hopen, hdrop, append_assoc, singleton_append]
      have hupdate : ∀ g, st.logoff g ≤
          update st.logoff (st.xfid x).f (st.logoff (st.xfid x).f + 1) g := by
        intro g
        rw [update_apply]
        split_ifs with hg
        · subst hg
          omega
        · exact le_rfl
      rw [if_neg hflushed, if_neg (by omega), hev]
      refine ⟨_, _, rfl, Or.inr (Or.inr ⟨data, rfl, h.flushed x hx ▸ hflushed', h.held, h.start_le,
        fun g hg => ?_, fun g hg => ?_, fun g => ?_,
        fun y hy => h.reads y (mem_of_mem_remove hy), nodup_remove h.nodup,
        fun y hy => h.flushed y (mem_of_mem_remove hy), hrest _ hupdate⟩)⟩
      · obtain ⟨hs, hl⟩ := h.past g hg
        simp only [update_apply]
        split_ifs <;> constructor <;> omega
      · by_cases hg' : g = (st.xfid x).f
        · subst hg'
          simpa using hS
        · simp only [update_of_ne hg']
          exact h.rest g hg
      · by_cases hg' : g = (st.xfid x).f
        · subst hg'
          rw [Function.update_self, hS]
          exact prefix_append _ _
        · rw [update_of_ne hg']
          exact h.in_order g

end Inv

/-! ## Every run -/

/-- What holds after a run. Of the events since a fid was opened, those that have been returned are
the first ones, and for a fid that is open the array holds the others from the fid's position on;
it holds all events but the first `start`, which every fid that is open has read. A read that sleeps
has nothing to return. -/
structure Delivered (trace : List (Step φ χ)) (st : State φ χ) : Prop where
  in_order : ∀ g, returned g trace <+: loggedSince g trace
  rest : ∀ g ∈ st.eventlog.f, loggedSince g trace =
    returned g trace ++ st.eventlog.ev.drop (st.logoff g - st.eventlog.start)
  within : ∀ g ∈ st.eventlog.f, st.eventlog.start ≤ st.logoff g ∧
    st.logoff g - st.eventlog.start ≤ st.eventlog.ev.length
  held : logged trace = (logged trace).take st.eventlog.start ++ st.eventlog.ev
  asleep : ∀ x, st.asleep x = true → x ∈ st.eventlog.read ∧ flushedSince x trace = false ∧
    st.eventlog.start + st.eventlog.ev.length ≤ st.logoff (st.xfid x).f

/-- What holds of a step of a run, after the steps `trace`: a read that returns an event has not
been flushed, and one that has been flushed consumes none. -/
structure Honest (trace : List (Step φ χ)) (s : Step φ χ) : Prop where
  respond : ∀ x g data, s.out = .respond x g data → flushedSince x (trace ++ [s]) = false
  flushed : ∀ x, s.out = .flushed x → flushedSince x (trace ++ [s]) = true ∧
    s.after.logoff = s.before.logoff ∧ s.after.eventlog.ev = s.before.eventlog.ev ∧
    s.after.eventlog.start = s.before.eventlog.start

/-- The invariant, for what a run has done. -/
def Traced (trace : List (Step φ χ)) (st : State φ χ) : Prop :=
  Inv (logged trace) (fun g => loggedSince g trace) (fun g => returned g trace)
    (fun x => flushedSince x trace) st

variable {trace : List (Step φ χ)} {op : Op φ χ}

theorem Traced.delivered (h : Traced trace st) : Delivered trace st := by
  have hend := Inv.end_eq h
  refine ⟨h.in_order, fun g hg => ?_, fun g hg => ?_, ?_, fun x hx => ?_⟩
  · rw [h.held, drop_drop, Nat.add_sub_cancel' (h.past g hg).1]
    exact h.rest g hg
  · obtain ⟨hs, hl⟩ := h.past g hg
    exact ⟨hs, by omega⟩
  · rw [h.held, take_append_drop]
  · obtain ⟨hmem, hflushed, hle⟩ := h.asleep x hx
    exact ⟨hmem, h.flushed x hmem ▸ hflushed, by omega⟩

/-- The outcome of a turn, in a run. -/
theorem Traced.resume {st1 : State φ χ}
    (h : Inv (logged trace) (fun g => loggedSince g trace) (fun g => returned g trace) F st1)
    (hx : x ∈ st1.eventlog.read) (hawake : st1.asleep x = false)
    (hsame : st1.logoff = st.logoff ∧ st1.eventlog.ev = st.eventlog.ev ∧
      st1.eventlog.start = st.eventlog.start)
    (hop : op = .resume x ∨ ∃ f tag, op = .xfidlogread x f tag)
    (hF : ∀ out st', (fun y => flushedSince y (trace ++ [⟨st, op, out, st'⟩])) = F) :
    ∃ st' out, Log.resume x st1 = some (st', out) ∧
      Traced (trace ++ [⟨st, op, out, st'⟩]) st' ∧ Honest trace ⟨st, op, out, st'⟩ := by
  have hlogged : ∀ out st', logged (trace ++ [⟨st, op, out, st'⟩]) = logged trace := by
    intro out st'
    rcases hop with rfl | ⟨f, tag, rfl⟩ <;> simp [logged]
  have hsince : ∀ g out st',
      loggedSince g (trace ++ [⟨st, op, out, st'⟩]) = loggedSince g trace := by
    intro g out st'
    rcases hop with rfl | ⟨f, tag, rfl⟩ <;> simp [loggedSince, foldl_append]
  obtain ⟨st', out, hresume, hcases⟩ := h.resume hx hawake
  refine ⟨st', out, hresume, ?_⟩
  have hFx : ∀ y, flushedSince y (trace ++ [⟨st, op, out, st'⟩]) = F y := fun y =>
    congrFun (hF out st') y
  rw [Traced, hlogged, hF]
  simp only [hsince]
  rcases hcases with ⟨rfl, hinv⟩ | ⟨rfl, hflushed, hlogoff, hev, hstart, hinv⟩ |
    ⟨data, rfl, hflushed, hinv⟩
  · have hreturned : ∀ g, returned g (trace ++ [⟨st, op, .blocked, st'⟩]) = returned g trace := by
      intro g
      rcases hop with rfl | ⟨f, tag, rfl⟩ <;> simp [returned, foldl_append]
    simp only [hreturned]
    exact ⟨hinv, fun y g data hout => (by cases hout), fun y hout => by cases hout⟩
  · have hreturned : ∀ g, returned g (trace ++ [⟨st, op, .flushed x, st'⟩]) = returned g trace := by
      intro g
      rcases hop with rfl | ⟨f, tag, rfl⟩ <;> simp [returned, foldl_append]
    simp only [hreturned]
    refine ⟨hinv, fun y g data hout => (by cases hout), fun y hout => ?_⟩
    obtain rfl : x = y := by simpa using hout
    exact ⟨(hFx x).trans hflushed, hlogoff.trans hsame.1, hev.trans hsame.2.1,
      hstart.trans hsame.2.2⟩
  · have hreturned : (fun g => returned g
        (trace ++ [⟨st, op, .respond x (st1.xfid x).f data, st'⟩])) =
        update (fun g => returned g trace) (st1.xfid x).f
          (returned (st1.xfid x).f trace ++ [data]) := by
      funext g
      rw [update_apply]
      by_cases hg : g = (st1.xfid x).f
      · subst hg
        rcases hop with rfl | ⟨f, tag, rfl⟩ <;> simp [returned, foldl_append]
      · rcases hop with rfl | ⟨f, tag, rfl⟩ <;>
          simp [returned, foldl_append, hg, Ne.symm hg]
    rw [hreturned]
    refine ⟨hinv, fun y g data' hout => ?_, fun y hout => by cases hout⟩
    obtain ⟨rfl, -⟩ : x = y ∧ _ := by simpa using hout
    exact (hFx x).trans hflushed

/-- **One step** of a run: it does not fail, and keeps the invariant. -/
theorem Traced.exec (h : Traced trace st) (hallowed : Allowed st op) :
    ∃ st' out, exec op st = some (st', out) ∧ Traced (trace ++ [⟨st, op, out, st'⟩]) st' ∧
      Honest trace ⟨st, op, out, st'⟩ := by
  have hquiet : ∀ st', Honest trace ⟨st, op, .done, st'⟩ := fun st' =>
    ⟨fun x g data hout => (by cases hout), fun x hout => by cases hout⟩
  cases op with
  | xfidlog w op =>
    refine ⟨_, _, rfl, ?_, hquiet _⟩
    have hinv := Inv.xfidlog h w op
    rw [Traced]
    simpa [logged, loggedSince, returned, flushedSince, foldl_append] using hinv
  | xfidlogopen f =>
    refine ⟨_, _, rfl, ?_, hquiet _⟩
    have hinv := Inv.xfidlogopen h f
    have hS : (fun g => loggedSince g (trace ++ [⟨st, .xfidlogopen f, .done, xfidlogopen f st⟩])) =
        update (fun g => loggedSince g trace) f [] := by
      funext g
      rw [update_apply]
      simp [loggedSince, foldl_append, eq_comm]
    have hR : (fun g => returned g (trace ++ [⟨st, .xfidlogopen f, .done, xfidlogopen f st⟩])) =
        update (fun g => returned g trace) f [] := by
      funext g
      rw [update_apply]
      simp [returned, foldl_append, eq_comm]
    rw [Traced, hS, hR]
    simpa [logged, flushedSince, foldl_append] using hinv
  | xfidlogread x f tag =>
    obtain ⟨hx, hf⟩ := hallowed
    have hpush := Inv.push h hx hf tag
    refine Traced.resume hpush (mem_append_right _ (mem_singleton.mpr rfl)) ?_
      ⟨rfl, rfl, rfl⟩ (Or.inr ⟨f, tag, rfl⟩) fun out st' => ?_
    · by_contra hasleep
      exact hx (h.asleep x (by simpa using hasleep)).1
    · funext y
      rw [update_apply]
      simp [flushedSince, foldl_append, eq_comm]
  | resume x =>
    obtain ⟨hx, hawake⟩ := hallowed
    refine Traced.resume h hx hawake ⟨rfl, rfl, rfl⟩ (Or.inl rfl) fun out st' => ?_
    funext y
    simp [flushedSince, foldl_append]
  | xfidlogflush oldtag =>
    refine ⟨_, _, rfl, ?_, hquiet _⟩
    have hinv := Inv.xfidlogflush h oldtag
    rw [Traced]
    simpa [logged, loggedSince, returned, flushedSince, foldl_append] using hinv
  | xfidlogclose f =>
    refine ⟨_, _, rfl, ?_, hquiet _⟩
    have hinv := Inv.xfidlogclose h hallowed
    rw [Traced]
    simpa [logged, loggedSince, returned, flushedSince, foldl_append] using hinv

omit [DecidableEq χ] in
theorem traced_initial (logoff : φ → Nat) (xfid : χ → Xfid φ) [DecidableEq χ] :
    Traced [] (initial logoff xfid) :=
  ⟨rfl, le_rfl, by simp [initial], by simp [initial], fun g => prefix_rfl,
    by simp [initial], Pairwise.nil, by simp [initial], by simp [initial]⟩

theorem Run.traced {logoff : φ → Nat} {xfid : χ → Xfid φ} (h : Run (initial logoff xfid) trace st) :
    Traced trace st ∧ ∀ pre s post, trace = pre ++ s :: post → Honest pre s := by
  induction h with
  | nil => exact ⟨traced_initial logoff xfid, fun pre s post hnil => by simp at hnil⟩
  | @snoc trace st st' op out hrun hallowed hexec ih =>
    obtain ⟨htraced, hhonest⟩ := ih
    obtain ⟨st1, out1, hexec1, htraced1, hhonest1⟩ := htraced.exec hallowed
    obtain ⟨rfl, rfl⟩ := Prod.mk.inj (Option.some.inj (hexec1.symm.trans hexec))
    refine ⟨htraced1, fun pre s post heq => ?_⟩
    rcases eq_nil_or_concat post with rfl | ⟨post, s', rfl⟩
    · obtain ⟨rfl, hs⟩ := append_inj' heq rfl
      obtain rfl := (cons.inj hs).1
      exact hhonest1
    · rw [concat_eq_append, ← cons_append, ← append_assoc] at heq
      obtain ⟨rfl, -⟩ := append_inj' heq rfl
      exact hhonest pre s post rfl

/-- **Every run.** In any order of calls, reads return the events since their fid was opened, each
once and in order; a read that is flushed consumes nothing; an event is dropped when all the fids
that are open have read it, and no read looks for an event outside the array. -/
theorem run_delivered {logoff : φ → Nat} {xfid : χ → Xfid φ} {trace : List (Step φ χ)}
    {st : State φ χ} (h : Run (initial logoff xfid) trace st) :
    Delivered trace st ∧ (∀ pre s post, trace = pre ++ s :: post → Honest pre s) ∧
      ∀ op, Allowed st op → ∃ r, exec op st = some r := by
  obtain ⟨htraced, hhonest⟩ := h.traced
  refine ⟨htraced.delivered, hhonest, fun op hop => ?_⟩
  obtain ⟨st', out, hexec, -⟩ := htraced.exec hop
  exact ⟨_, hexec⟩

/-- A read that sleeps until an event comes. -/
theorem run_delivered_one :
    ∃ trace : List (Step Nat Nat), ∃ st,
      Run (initial (fun _ => 0) fun _ => ⟨0, 0, false⟩) trace st ∧
      returned 0 trace = [message ⟨1, ⟨none, none⟩⟩ [0x6e, 0x65, 0x77]] ∧ Delivered trace st := by
  obtain ⟨trace, st, hrun, hreturned⟩ : ∃ trace : List (Step Nat Nat), ∃ st,
      Run (initial (fun _ => 0) fun _ => ⟨0, 0, false⟩) trace st ∧
      returned 0 trace = [message ⟨1, ⟨none, none⟩⟩ [0x6e, 0x65, 0x77]] :=
    ⟨_, _, @Run.snoc _ _ _ _ _ _ _ _ (.resume 3) _
      (@Run.snoc _ _ _ _ _ _ _ _ (.xfidlog ⟨1, ⟨none, none⟩⟩ [0x6e, 0x65, 0x77]) _
        (@Run.snoc _ _ _ _ _ _ _ _ (.xfidlogread 3 0 7) _
          (@Run.snoc _ _ _ _ _ _ _ _ (.xfidlogopen 0) _ .nil trivial rfl) (by decide) rfl)
        trivial rfl) (by decide) rfl, rfl⟩
  exact ⟨trace, st, hrun, hreturned, (run_delivered hrun).1⟩

end Plan9Port.Acme.Log
