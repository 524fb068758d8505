import Mathlib.Data.List.Nodup
import Plan9Port.Lib.Except
import Plan9Port.Thread.Channel

/-!
# Channel communication

What is sent on a channel is what was received and what is in its buffer, in this order. A thread
that waits is in the queues of all its channels, and whoever meets it takes it out of all of them
before it is made ready.

The queues agree with the buffer: a sender waits only for a buffer that is full, and a receiver only
for one that is empty. A channel without a buffer may have both kinds in its queues, but only from
one and the same call, which offers to send and to receive; all others would have met.
-/

namespace Plan9Port.Channel

open Lib Sys Nat
open List hiding take
open Function

variable {θ χ α : Type}

/-! ## What has happened -/

section Log

variable [DecidableEq θ] [DecidableEq χ]

/-- What has happened in a call. -/
def hist (log : List (Event θ χ α)) (t : θ) (k : Nat) : List (What χ α) :=
  (log.filter fun e => e.thread = t ∧ e.call = k).map Event.what

omit [DecidableEq χ] in
theorem hist_append (log log' : List (Event θ χ α)) (t : θ) (k : Nat) :
    hist (log ++ log') t k = hist log t k ++ hist log' t k := by
  rw [hist, filter_append, map_append]
  rfl

omit [DecidableEq χ] in
theorem hist_singleton (e : Event θ χ α) (t : θ) (k : Nat) :
    hist [e] t k = if e.thread = t ∧ e.call = k then [e.what] else [] := by
  by_cases h : e.thread = t ∧ e.call = k
  · rw [if_pos h, hist, filter_cons_of_pos (by simpa using h)]
    rfl
  · rw [if_neg h, hist, filter_cons_of_neg (by simpa using h)]
    rfl

/-- The value that an operation has sent on a channel, or received from it. -/
def What.value (op : Op) (c : χ) : What χ α → Option α
  | .moved _ op' c' x => if op' = op ∧ c' = c then some x else none
  | _ => none

/-- The values that were sent on a channel, or received from it, in order. -/
def values (op : Op) (c : χ) (log : List (Event θ χ α)) : List α :=
  log.filterMap fun e => e.what.value op c

omit [DecidableEq θ] in
theorem values_append (op : Op) (c : χ) (log log' : List (Event θ χ α)) :
    values op c (log ++ log') = values op c log ++ values op c log' :=
  filterMap_append

omit [DecidableEq θ] in
theorem values_moved (op op' : Op) (c c' : χ) (t : θ) (k i : Nat) (x : α) :
    values op c [⟨t, k, .moved i op' c' x⟩] = if op' = op ∧ c' = c then [x] else [] := by
  by_cases h : op' = op ∧ c' = c
  · simp [values, What.value, h]
  · simp [values, What.value, h]

end Log

/-! ## The invariants -/

/-- A thread in `_threadswitch` that was not made ready yet is in the queue of each of its entries,
and nobody else is in a queue. -/
structure Queues (s : Sys θ χ α) : Prop where
  queued : ∀ {u k c op}, (u, k) ∈ s.chanarray c op → s.switching u = true ∧ u ∉ s.runqueue ∧
    ∃ a, (s.alts u)[k]? = some a ∧ a.c = c ∧ a.op = op
  waits : ∀ {u}, s.switching u = true → u ∉ s.runqueue → ∀ {k a}, (s.alts u)[k]? = some a →
    a.op ≠ .nop → (u, k) ∈ s.chanarray a.c a.op
  nodup : ∀ c op, (s.chanarray c op).Nodup
  ready : ∀ {u}, u ∈ s.runqueue → s.switching u = true
  ready_nodup : s.runqueue.Nodup

/-- When threads wait for a channel. -/
structure Waits (bufsize : χ → Nat) (s : Sys θ χ α) (c : χ) : Prop where
  full : s.asend c ≠ [] → s.nbuf c = bufsize c
  empty : s.arecv c ≠ [] → s.nbuf c = 0
  one : ∀ {p q}, p ∈ s.asend c → q ∈ s.arecv c → p.1 = q.1

variable [DecidableEq θ] [DecidableEq χ]

/-- What was sent is what was received and what is in the buffer. -/
structure Buf (bufsize : χ → Nat) (s : Sys θ χ α) (c : χ) : Prop where
  le : s.nbuf c ≤ bufsize c
  off : bufsize c ≠ 0 → s.off c < bufsize c
  values : values .snd c s.log =
    values .rcv c s.log ++ ring (s.buf c) (bufsize c) (s.off c) (s.nbuf c)

/-- The value that an entry moves is its own if it sends. -/
def Alt.Moves (zero : α) (a : Alt χ α) (x : α) : Prop :=
  a.op ≠ .nop ∧ (a.op = .snd → x = a.v.getD zero)

/-- A call that has returned: it has done one of its operations, or none and returned -1. -/
inductive Completed (zero : α) : List (What χ α) → Prop
  | failed (alts : List (Alt χ α)) : Completed zero [.called alts false, .returned (-1)]
  | done {alts : List (Alt χ α)} {i : Nat} {a : Alt χ α} {x : α} (canblock : Bool) :
      alts[i]? = some a → a.Moves zero x →
      Completed zero [.called alts canblock, .moved i a.op a.c x, .returned i]

/-- The calls of a thread: those that have returned, and the one that it waits in. -/
structure CallOf (zero : α) (s : Sys θ χ α) (t : θ) : Prop where
  later : ∀ {k}, s.calls t ≤ k → hist s.log t k = []
  completed : ∀ {k}, k < s.calls t → (s.switching t = true → k + 1 < s.calls t) →
    Completed zero (hist s.log t k)
  waiting : s.switching t = true → 0 < s.calls t ∧ (t ∉ s.runqueue →
    hist s.log t (s.calls t - 1) = [.called (s.alts t) true])
  ready : t ∈ s.runqueue → ∃ a x, (s.alts t)[s.alt t]? = some a ∧ a.Moves zero x ∧
    hist s.log t (s.calls t - 1) = [.called (s.alts t) true, .moved (s.alt t) a.op a.c x]

/-- All the invariants. -/
structure Inv (bufsize : χ → Nat) (zero : α) (s : Sys θ χ α) : Prop where
  queues : Queues s
  waits : ∀ c, Waits bufsize s c
  bufs : ∀ c, Buf bufsize s c
  calls : ∀ t, CallOf zero s t

variable {bufsize : χ → Nat} {zero : α} {s s' : Sys θ χ α} {t u : θ} {c : χ} {a : Alt χ α}
  {p : Altptr θ}

/-! ## Queues -/

omit [DecidableEq θ] in
/-- The last one takes the place of the one that is deleted. -/
theorem delarray_perm {a : List (Altptr θ)} {i : Nat} (hi : i < a.length) :
    (delarray a i).Perm (a.eraseIdx i) := by
  induction a generalizing i with
  | nil => cases hi
  | cons x a ih =>
    cases a with
    | nil =>
      obtain rfl : i = 0 := by simpa using hi
      exact List.Perm.refl _
    | cons y a =>
      have hlast : delarray (x :: y :: a) i =
          ((x :: y :: a).set i ((y :: a).getLast (by simp))).dropLast := by
        rw [delarray, getLast?_cons_cons, getLast?_eq_some_getLast (by simp)]
      rw [hlast]
      cases i with
      | zero =>
        rw [set_cons_zero, eraseIdx_cons_zero, dropLast_cons_of_ne_nil (cons_ne_nil y a)]
        have := dropLast_append_getLast (cons_ne_nil y a)
        conv_rhs => rw [← this]
        exact (perm_append_singleton _ _).symm
      | succ i =>
        have hi' : i < (y :: a).length := by simpa using hi
        have hne : (y :: a).set i ((y :: a).getLast (by simp)) ≠ [] := by simp
        rw [set_cons_succ, eraseIdx_cons_succ, dropLast_cons_of_ne_nil hne]
        refine List.Perm.cons x ?_
        have := ih hi'
        rwa [delarray, getLast?_eq_some_getLast (by simp)] at this

theorem delarray_spec {a : List (Altptr θ)} (hnodup : a.Nodup) (hp : p ∈ a) :
    (delarray a (a.idxOf p)).Nodup ∧ ∀ q, q ∈ delarray a (a.idxOf p) ↔ q ∈ a ∧ q ≠ p := by
  have hlt : a.idxOf p < a.length := idxOf_lt_length_of_mem hp
  have hperm : (delarray a (a.idxOf p)).Perm (a.erase p) := by
    rw [erase_eq_eraseIdx_of_idxOf rfl]
    exact delarray_perm hlt
  refine ⟨hperm.nodup_iff.mpr (hnodup.erase p), fun q => ?_⟩
  rw [hperm.mem_iff, hnodup.mem_erase_iff, and_comm]

omit [DecidableEq θ] in
theorem chanarray_setarray (s : Sys θ χ α) (c : χ) {op : Op} (hop : op ≠ .nop)
    (a : List (Altptr θ)) (c' : χ) (op' : Op) :
    (s.setarray c op a).chanarray c' op' =
      if c' = c ∧ op' = op then a else s.chanarray c' op' := by
  by_cases hc : c' = c
  · subst hc
    cases op <;> cases op' <;> simp [setarray, chanarray] at hop ⊢
  · cases op <;> cases op' <;> simp [setarray, chanarray, hc] at hop ⊢

/-- Only the queues have changed. -/
def SameButQueues (s s' : Sys θ χ α) : Prop := s' = { s with asend := s'.asend, arecv := s'.arecv }

omit [DecidableEq θ] [DecidableEq χ] in
theorem SameButQueues.trans {s1 s2 s3 : Sys θ χ α} (h : SameButQueues s1 s2)
    (h' : SameButQueues s2 s3) : SameButQueues s1 s3 := by
  rw [SameButQueues] at h h' ⊢
  rw [h', h]

omit [DecidableEq θ] in
theorem sameButQueues_setarray (s : Sys θ χ α) (c : χ) (op : Op) (a : List (Altptr θ)) :
    SameButQueues s (s.setarray c op a) := by
  cases op <;> rfl

/-- An entry is taken out of its queue. -/
theorem altdequeue_spec (hop : a.op ≠ .nop) (hnodup : ∀ c op, (s.chanarray c op).Nodup)
    (hp : p ∈ s.chanarray a.c a.op) (honly : ∀ c op, p ∈ s.chanarray c op → c = a.c ∧ op = a.op) :
    ∃ s', s.altdequeue p a = .ok s' ∧ SameButQueues s s' ∧
      (∀ c op, (s'.chanarray c op).Nodup) ∧
      ∀ c op q, q ∈ s'.chanarray c op ↔ q ∈ s.chanarray c op ∧ q ≠ p := by
  obtain ⟨hnd, hmem⟩ := delarray_spec (hnodup a.c a.op) hp
  refine ⟨_, if_pos (idxOf_lt_length_of_mem hp), sameButQueues_setarray _ _ _ _, ?_, ?_⟩
  · intro c op
    rw [chanarray_setarray _ _ hop]
    split_ifs
    · exact hnd
    · exact hnodup c op
  · intro c op q
    rw [chanarray_setarray _ _ hop]
    split_ifs with h
    · rw [h.1, h.2]
      exact hmem q
    · refine ⟨fun hq => ⟨hq, ?_⟩, And.left⟩
      rintro rfl
      exact h (honly c op hq)

variable {alts : List (Alt χ α)}

omit [DecidableEq χ] in
theorem cons_eq_drop {as : List (Alt χ α)} {i : Nat} (h : a :: as = alts.drop i) :
    alts[i]? = some a ∧ as = alts.drop (i + 1) := by
  rw [← head?_drop, ← tail_drop, ← h]
  exact ⟨rfl, rfl⟩

section

variable (as : List (Alt χ α)) (i : Nat) (has : as = alts.drop i)
  (hnodup : ∀ c op, (s.chanarray c op).Nodup)
include as i has hnodup

/-- All the entries of a thread are taken out of their queues. -/
theorem altalldequeue_spec
    (hqueued : ∀ {k c op}, (u, k) ∈ s.chanarray c op → ∃ a, alts[k]? = some a ∧ a.c = c ∧ a.op = op)
    (hwaits : ∀ {k a}, i ≤ k → alts[k]? = some a → a.op ≠ .nop → (u, k) ∈ s.chanarray a.c a.op) :
    ∃ s', s.altalldequeue u i as = .ok s' ∧ SameButQueues s s' ∧
      (∀ c op, (s'.chanarray c op).Nodup) ∧
      ∀ c op q, q ∈ s'.chanarray c op ↔ q ∈ s.chanarray c op ∧ ¬(q.1 = u ∧ i ≤ q.2) := by
  induction as generalizing i s with
  | nil =>
    refine ⟨s, rfl, rfl, hnodup, fun c op q => ⟨fun hq => ⟨hq, ?_⟩, And.left⟩⟩
    rintro ⟨hu, hi⟩
    obtain ⟨a, ha, -⟩ := @hqueued q.2 c op (by rw [← hu]; exact hq)
    have hlen : alts.length ≤ i := drop_eq_nil_iff.mp has.symm
    have := (List.getElem?_eq_some_iff.mp ha).1
    omega
  | cons a as ih =>
    obtain ⟨hai, has'⟩ := cons_eq_drop has
    -- the entry at `i` is in the queue of its channel, and in no other one
    have honly : ∀ c op, (u, i) ∈ s.chanarray c op → c = a.c ∧ op = a.op := by
      intro c op hmem
      obtain ⟨b, hb, hc, ho⟩ := hqueued hmem
      rw [hai, Option.some.injEq] at hb
      rw [hb]
      exact ⟨hc.symm, ho.symm⟩
    have hsplit : ∀ q : Altptr θ, (q ≠ (u, i) ∧ ¬(q.1 = u ∧ i + 1 ≤ q.2)) ↔
        ¬(q.1 = u ∧ i ≤ q.2) := by
      rintro ⟨v, k⟩
      simp only [ne_eq, Prod.mk.injEq]
      by_cases hv : v = u
      · simp only [hv, true_and]
        omega
      · simp [hv]
    rw [altalldequeue]
    by_cases hop : a.op = .nop
    · rw [if_neg (not_not.mpr hop), ok_bind]
      obtain ⟨s', hs', hsame, hnd, hmem⟩ := ih (i + 1) has' hnodup hqueued
        fun hk => hwaits (le_of_succ_le hk)
      refine ⟨s', hs', hsame, hnd, fun c op q => ?_⟩
      rw [hmem, ← hsplit]
      refine ⟨fun ⟨hq, hnot⟩ => ⟨hq, ?_, hnot⟩, fun ⟨hq, _, hnot⟩ => ⟨hq, hnot⟩⟩
      rintro rfl
      obtain ⟨-, ho⟩ := honly c op hq
      rw [ho, hop] at hq
      cases hq
    · obtain ⟨s1, hs1, hsame1, hnd1, hmem1⟩ :=
        altdequeue_spec hop hnodup (hwaits le_rfl hai hop) honly
      rw [if_pos hop, hs1, ok_bind]
      obtain ⟨s', hs', hsame, hnd, hmem⟩ := ih (i + 1) has' hnd1
        (fun hk => hqueued ((hmem1 _ _ _).mp hk).1) fun {k b} hk hb ho => by
          refine (hmem1 _ _ _).mpr ⟨hwaits (le_of_succ_le hk) hb ho, ?_⟩
          simp only [ne_eq, Prod.mk.injEq, true_and]
          omega
      refine ⟨s', hs', hsame1.trans hsame, hnd, fun c op q => ?_⟩
      rw [hmem, hmem1, and_assoc, hsplit]

/-- The entries of a thread are put into the queues. -/
theorem queueall_spec (hnot : ∀ {k c op}, i ≤ k → (t, k) ∉ s.chanarray c op) :
    SameButQueues s (queueall t i as s) ∧
      (∀ c op, ((queueall t i as s).chanarray c op).Nodup) ∧
      ∀ c op q, q ∈ (queueall t i as s).chanarray c op ↔ q ∈ s.chanarray c op ∨
        op ≠ .nop ∧ q.1 = t ∧ i ≤ q.2 ∧ ∃ a, alts[q.2]? = some a ∧ a.c = c ∧ a.op = op := by
  induction as generalizing i s with
  | nil =>
    refine ⟨rfl, hnodup, fun c op q => ⟨Or.inl, ?_⟩⟩
    rintro (hq | ⟨-, -, hi, a, ha, -⟩)
    · exact hq
    · have hlen : alts.length ≤ i := drop_eq_nil_iff.mp has.symm
      have := (List.getElem?_eq_some_iff.mp ha).1
      omega
  | cons a as ih =>
    obtain ⟨hai, has'⟩ := cons_eq_drop has
    rw [queueall]
    by_cases hop : a.op = .nop
    · rw [if_neg (not_not.mpr hop)]
      obtain ⟨hsame, hnd, hmem⟩ := ih (i + 1) has' hnodup fun hk => hnot (le_of_succ_le hk)
      refine ⟨hsame, hnd, fun c op q => ?_⟩
      rw [hmem]
      refine or_congr_right (and_congr_right fun ho => and_congr_right fun _ => ?_)
      refine ⟨fun ⟨hi, h⟩ => ⟨le_of_succ_le hi, h⟩,
        fun ⟨hi, b, hb, hc, hbo⟩ => ⟨?_, b, hb, hc, hbo⟩⟩
      refine Nat.lt_of_le_of_ne hi ?_
      rintro rfl
      rw [hai, Option.some.injEq] at hb
      exact ho (by rw [← hbo, ← hb, hop])
    · rw [if_pos hop]
      have hnd1 : ∀ c op, ((s.altqueue (t, i) a).chanarray c op).Nodup := by
        intro c op
        rw [altqueue, chanarray_setarray _ _ hop]
        split_ifs
        · refine nodup_append.mpr ⟨hnodup _ _, nodup_singleton _, ?_⟩
          intro p hp q hq hpq
          rw [mem_singleton.mp hq] at hpq
          exact hnot le_rfl (hpq ▸ hp)
        · exact hnodup c op
      have hmem1 : ∀ c op q, q ∈ (s.altqueue (t, i) a).chanarray c op ↔
          q ∈ s.chanarray c op ∨ q = (t, i) ∧ c = a.c ∧ op = a.op := by
        intro c op q
        rw [altqueue, chanarray_setarray _ _ hop]
        by_cases h : c = a.c ∧ op = a.op
        · rw [if_pos h, mem_append, mem_singleton, h.1, h.2]
          simp
        · rw [if_neg h]
          simp [h]
      obtain ⟨hsame, hnd, hmem⟩ := ih (i + 1) has' hnd1 fun {k c op} hk hq => by
        rcases (hmem1 _ _ _).mp hq with hq | ⟨hq, -⟩
        · exact hnot (le_of_succ_le hk) hq
        · simp only [Prod.mk.injEq, true_and] at hq
          omega
      refine ⟨(sameButQueues_setarray _ _ _ _).trans hsame, hnd, fun c op q => ?_⟩
      rw [hmem, hmem1, or_assoc]
      refine or_congr_right ⟨?_, ?_⟩
      · rintro (⟨rfl, rfl, rfl⟩ | ⟨ho, ht, hi, h⟩)
        · exact ⟨hop, rfl, Nat.le_refl i, a, hai, rfl, rfl⟩
        · exact ⟨ho, ht, le_of_succ_le hi, h⟩
      · rintro ⟨ho, ht, hi, b, hb, hc, hbo⟩
        rcases Nat.eq_or_lt_of_le hi with rfl | hi
        · rw [hai, Option.some.injEq] at hb
          exact .inl ⟨Prod.ext ht rfl, by rw [← hc, hb], by rw [← hbo, hb]⟩
        · exact .inr ⟨ho, ht, hi, b, hb, hc, hbo⟩

end

/-! ## Buffers -/

omit [DecidableEq θ] in
/-- Nothing is moved. -/
theorem Buf.congr (h : Buf bufsize s c) (hnbuf : s'.nbuf c = s.nbuf c) (hoff : s'.off c = s.off c)
    (hbuf : s'.buf c = s.buf c) (hsnd : Channel.values .snd c s'.log = Channel.values .snd c s.log)
    (hrcv : Channel.values .rcv c s'.log = Channel.values .rcv c s.log) : Buf bufsize s' c := by
  refine ⟨?_, ?_, ?_⟩
  · rw [hnbuf]
    exact h.le
  · rw [hoff]
    exact h.off
  · rw [hsnd, hrcv, hnbuf, hoff, hbuf]
    exact h.values

omit [DecidableEq θ] in
theorem values_happens (op : Op) (c : χ) (s : Sys θ χ α) (t : θ) (i : Nat) (op' : Op) (c' : χ)
    (x : α) : values op c (s.happens t (.moved i op' c' x)).log =
      values op c s.log ++ if op' = op ∧ c' = c then [x] else [] := by
  rw [happens, values_append, values_moved]

variable {c' : χ} {b : Alt χ α}

omit [DecidableEq θ] in
theorem Buf.direct (h : Buf bufsize s c) (hempty : s.nbuf c' = 0) (p q : Altptr θ) (x : α) :
    Buf bufsize (s.direct c' p q x) c := by
  by_cases hc : c' = c
  · subst hc
    refine ⟨h.le, h.off, ?_⟩
    have hv := h.values
    change Channel.values .snd c' (s.direct c' p q x).log =
      _ ++ ring (s.buf c') (bufsize c') (s.off c') (s.nbuf c')
    rw [Sys.direct, values_happens, values_happens, values_happens, values_happens]
    rw [hempty, ring_zero, append_nil] at hv ⊢
    simp [hv]
  · refine h.congr rfl rfl rfl ?_ ?_ <;>
      rw [Sys.direct, values_happens, values_happens] <;> simp [hc]

omit [DecidableEq θ] in
theorem Buf.take (h : Buf bufsize s c) (hpos : c' = c → 0 < s.nbuf c) (q : Altptr θ) :
    Buf bufsize (s.take bufsize c' q) c := by
  by_cases hc : c' = c
  · subst hc
    have hpos := hpos rfl
    have hle := h.le
    have hoff := h.off (by omega)
    obtain ⟨n, hn⟩ : ∃ n, s.nbuf c' = n + 1 := ⟨s.nbuf c' - 1, by omega⟩
    have hv := h.values
    rw [hn, ring_pop _ hoff] at hv
    refine ⟨?_, fun _ => ?_, ?_⟩
    · simp only [Sys.take, Sys.happens, update_self]
      omega
    · simp only [Sys.take, Sys.happens, update_self]
      split_ifs <;> omega
    · rw [Sys.take, values_happens, values_happens]
      simp [Sys.happens, hn, hv]
  · refine h.congr (update_of_ne (Ne.symm hc) _ _) (update_of_ne (Ne.symm hc) _ _) rfl ?_ ?_ <;>
      rw [Sys.take, values_happens] <;> simp [hc]

omit [DecidableEq θ] in
theorem Buf.put (h : Buf bufsize s c) (hlt : c' = c → s.nbuf c < bufsize c) (p : Altptr θ) (x : α) :
    Buf bufsize (s.put bufsize c' p x) c := by
  by_cases hc : c' = c
  · subst hc
    have hlt := hlt rfl
    have hv := h.values
    refine ⟨?_, ?_, ?_⟩
    · simp only [Sys.put, Sys.happens, update_self]
      omega
    · exact h.off
    · rw [Sys.put, values_happens, values_happens]
      simp only [Sys.happens, update_self, ring_push _ x hlt]
      simp [hv]
  · refine h.congr (update_of_ne (Ne.symm hc) _ _) rfl (update_of_ne (Ne.symm hc) _ _) ?_ ?_ <;>
      rw [Sys.put, values_happens] <;> simp [hc]

/-! ## Copying -/

/-- Only the buffers and the log have changed. -/
def SameButBufs (s s' : Sys θ χ α) : Prop :=
  s' = { s with nbuf := s'.nbuf, off := s'.off, buf := s'.buf, log := s'.log }

/-- What happens in the last call of a thread. -/
def Sys.event (s : Sys θ χ α) (p : Altptr θ) (op : Op) (c : χ) (x : α) : Event θ χ α :=
  ⟨p.1, s.calls p.1 - 1, .moved p.2 op c x⟩

omit [DecidableEq θ] in
/-- A thread moves a value to or from the buffer. -/
theorem altcopy_alone (zero : α) (hbufs : ∀ c, Buf bufsize s c) (p : Altptr θ)
    (hcan : s.altcanexec bufsize a = true) (hno : s.chanarray a.c (otherop a.op) = []) :
    ∃ s' x, s.altcopy bufsize zero p a none = .ok s' ∧ SameButBufs s s' ∧
      (∀ c, Buf bufsize s' c) ∧ s'.log = s.log ++ [s.event p a.op a.c x] ∧ a.Moves zero x ∧
      ∀ c, c ≠ a.c → s'.nbuf c = s.nbuf c := by
  obtain ⟨c, v, op⟩ := a
  cases op with
  | nop => simp [altcanexec] at hcan
  | snd =>
    have hlt : s.nbuf c < bufsize c := by
      by_contra hnot
      simp [altcanexec, hno, hnot] at hcan
    exact ⟨_, v.getD zero, rfl, rfl, fun c' => (hbufs c').put (fun h => h ▸ hlt) p _, rfl,
      ⟨Op.noConfusion, fun _ => rfl⟩, fun c' hc => update_of_ne hc _ _⟩
  | rcv =>
    have hpos : 0 < s.nbuf c := by
      by_contra hnot
      simp [altcanexec, hno, hnot] at hcan
    exact ⟨_, s.buf c (s.off c), rfl, rfl, fun c' => (hbufs c').take (fun h => h ▸ hpos) p, rfl,
      ⟨Op.noConfusion, Op.noConfusion⟩, fun c' hc => update_of_ne hc _ _⟩

omit [DecidableEq θ] in
/-- Two threads meet. A receiver takes the value from the buffer if there is one, and the sender
puts its own there. -/
theorem altcopy_both (zero : α) (hbufs : ∀ c, Buf bufsize s c) (hwaits : ∀ c, Waits bufsize s c)
    (p : Altptr θ) {q : Altptr θ} (hop : a.op ≠ .nop) (hb : b.op = otherop a.op)
    (hq : q ∈ s.chanarray a.c (otherop a.op)) :
    ∃ s' x y es, s.altcopy bufsize zero p a (some (q, b)) = .ok s' ∧ SameButBufs s s' ∧
      (∀ c, Buf bufsize s' c) ∧ s'.log = s.log ++ es ∧
      (es = [s.event p a.op a.c x, s.event q b.op a.c y] ∨
        es = [s.event q b.op a.c y, s.event p a.op a.c x]) ∧
      (a.Moves zero x ∧ b.Moves zero y) ∧ ∀ c, s'.nbuf c = s.nbuf c := by
  have hbop : b.op ≠ .nop := by
    rw [hb]
    cases ho : a.op with
    | nop => exact absurd ho hop
    | _ => simp [otherop]
  obtain ⟨c, v, op⟩ := a
  cases op with
  | nop => exact absurd rfl hop
  | snd =>
    have hempty : s.nbuf c = 0 := (hwaits c).empty (ne_nil_of_mem hq)
    refine ⟨s.direct c p q (v.getD zero), v.getD zero, v.getD zero, _, ?_, rfl,
      fun c' => (hbufs c').direct hempty p q _, append_assoc _ _ _, .inl ?_,
      ⟨⟨Op.noConfusion, fun _ => rfl⟩, hbop, fun ho => ?_⟩, fun _ => rfl⟩
    · simp [altcopy, hb, otherop, hempty]
    · rw [hb]
      rfl
    · cases hb.symm.trans ho
  | rcv =>
    have hfull : s.nbuf c = bufsize c := (hwaits c).full (ne_nil_of_mem hq)
    by_cases hempty : s.nbuf c = 0
    · refine ⟨s.direct c q p (b.v.getD zero), b.v.getD zero, b.v.getD zero, _, ?_, rfl,
        fun c' => (hbufs c').direct hempty q p _, append_assoc _ _ _, .inr ?_,
        ⟨⟨Op.noConfusion, Op.noConfusion⟩, hbop, fun _ => rfl⟩, fun _ => rfl⟩
      · simp [altcopy, hb, otherop, hempty]
      · rw [hb]
        rfl
    · have htake : ∀ c', Buf bufsize (s.take bufsize c p) c' := fun c' =>
        (hbufs c').take (fun h => h ▸ Nat.pos_of_ne_zero hempty) p
      refine ⟨(s.take bufsize c p).put bufsize c q (b.v.getD zero), s.buf c (s.off c),
        b.v.getD zero, _, ?_, rfl, fun c' => (htake c').put (fun h => ?_) q _,
        append_assoc _ _ _, .inl ?_, ⟨⟨Op.noConfusion, Op.noConfusion⟩, hbop, fun _ => rfl⟩,
        fun c' => ?_⟩
      · simp [altcopy, hb, otherop, hempty]
      · subst h
        simp only [take, happens, update_self]
        omega
      · rw [hb]
        rfl
      · by_cases hc : c' = c
        · subst hc
          simp only [put, take, happens, update_self]
          omega
        · simp only [put, take, happens, update_of_ne hc]

/-! ## Calls -/

omit [DecidableEq χ] in
theorem CallOf.congr (h : CallOf zero s t) (hcalls : s'.calls t = s.calls t)
    (hsw : s'.switching t = s.switching t) (hrun : t ∈ s'.runqueue ↔ t ∈ s.runqueue)
    (halts : s'.alts t = s.alts t) (halt : s'.alt t = s.alt t)
    (hhist : ∀ k, hist s'.log t k = hist s.log t k) : CallOf zero s' t := by
  refine ⟨?_, ?_, ?_, ?_⟩
  · intro k
    rw [hcalls, hhist]
    exact h.later
  · intro k
    rw [hcalls, hsw, hhist]
    exact h.completed
  · rw [hcalls, hsw, hhist, hrun, halts]
    exact h.waiting
  · rw [hcalls, hhist, hrun, halts, halt]
    exact h.ready

section

variable (h : CallOf zero s t) (hsw : s.switching t = false) (hcalls : s'.calls t = s.calls t + 1)
include h hsw hcalls

omit [DecidableEq χ] in
/-- A call returns, without waiting. -/
theorem CallOf.return (hsw' : s'.switching t = false) (hrun : t ∉ s'.runqueue)
    (hhist : ∀ k, k ≠ s.calls t → hist s'.log t k = hist s.log t k)
    (hdone : Completed zero (hist s'.log t (s.calls t))) : CallOf zero s' t := by
  refine ⟨fun {k} hk => ?_, fun {k} hk _ => ?_, fun h => ?_, fun h => absurd h hrun⟩
  · rw [hhist k (by omega)]
    exact h.later (by omega)
  · by_cases hkc : k = s.calls t
    · rw [hkc]
      exact hdone
    · rw [hhist k hkc]
      exact h.completed (by omega) (by simp [hsw])
  · rw [hsw'] at h
    cases h

omit [DecidableEq χ] in
/-- A call waits. -/
theorem CallOf.wait (hsw' : s'.switching t = true) (hrun : t ∉ s'.runqueue)
    (hhist : ∀ k, k ≠ s.calls t → hist s'.log t k = hist s.log t k)
    (hcalled : hist s'.log t (s.calls t) = [.called (s'.alts t) true]) : CallOf zero s' t := by
  refine ⟨fun {k} hk => ?_, fun {k} hk hsw'' => ?_, fun _ => ⟨by omega, fun _ => ?_⟩,
    fun h => absurd h hrun⟩
  · rw [hhist k (by omega)]
    exact h.later (by omega)
  · have := hsw'' hsw'
    rw [hhist k (by omega)]
    exact h.completed (by omega) (by simp [hsw])
  · rw [hcalls]
    exact hcalled

end

omit [DecidableEq χ] in
/-- Another thread meets a call that waits. -/
theorem CallOf.meet (h : CallOf zero s u) (hsw : s.switching u = true) (hnot : u ∉ s.runqueue)
    (hcalls : s'.calls u = s.calls u) (hsw' : s'.switching u = true) (hrun : u ∈ s'.runqueue)
    (halts : s'.alts u = s.alts u) {x : α} (ha : (s.alts u)[s'.alt u]? = some a)
    (hop : a.Moves zero x) (hhist : ∀ k, k ≠ s.calls u - 1 → hist s'.log u k = hist s.log u k)
    (hmoved : hist s'.log u (s.calls u - 1) =
      hist s.log u (s.calls u - 1) ++ [.moved (s'.alt u) a.op a.c x]) : CallOf zero s' u := by
  obtain ⟨hpos, hcalled⟩ := h.waiting hsw
  refine ⟨fun {k} hk => ?_, fun {k} hk hlt => ?_, fun _ => ⟨by omega, fun h => absurd hrun h⟩,
    fun _ => ⟨a, x, ?_, hop, ?_⟩⟩
  · rw [hhist k (by omega)]
    exact h.later (by omega)
  · have := hlt hsw'
    rw [hhist k (by omega)]
    exact h.completed (by omega) fun _ => by omega
  · rw [halts]
    exact ha
  · rw [hcalls, hmoved, hcalled hnot, halts]
    rfl

omit [DecidableEq χ] in
/-- A call that waited returns. -/
theorem CallOf.resume (h : CallOf zero s t) (hready : t ∈ s.runqueue) (hsw : s.switching t = true)
    (hcalls : s'.calls t = s.calls t) (hsw' : s'.switching t = false) (hrun : t ∉ s'.runqueue)
    (hhist : ∀ k, k ≠ s.calls t - 1 → hist s'.log t k = hist s.log t k)
    (hreturned : hist s'.log t (s.calls t - 1) =
      hist s.log t (s.calls t - 1) ++ [.returned (s.alt t)]) : CallOf zero s' t := by
  obtain ⟨hpos, -⟩ := h.waiting hsw
  obtain ⟨a, x, ha, hop, hmoved⟩ := h.ready hready
  refine ⟨fun {k} hk => ?_, fun {k} hk _ => ?_, fun h => ?_, fun h => absurd h hrun⟩
  · rw [hhist k (by omega)]
    exact h.later (by omega)
  · by_cases hkc : k = s.calls t - 1
    · rw [hkc, hreturned, hmoved]
      exact .done true ha hop
    · rw [hhist k hkc]
      exact h.completed (by omega) fun _ => by omega
  · rw [hsw'] at h
    cases h

/-! ## Steps -/

omit [DecidableEq χ] in
theorem hist_happens (s : Sys θ χ α) (t : θ) (w : What χ α) (v : θ) (k : Nat) :
    hist (s.happens t w).log v k =
      hist s.log v k ++ if t = v ∧ s.calls t - 1 = k then [w] else [] := by
  rw [happens, hist_append, hist_singleton]

/-- The state after the beginning of `chanalt`. -/
structure Begun (bufsize : χ → Nat) (zero : α) (s s₀ : Sys θ χ α) (t : θ) (alts : List (Alt χ α))
    (canblock : Bool) : Prop where
  queues : Queues s₀
  waits : ∀ c, Waits bufsize s₀ c
  bufs : ∀ c, Buf bufsize s₀ c
  others : ∀ v, v ≠ t → CallOf zero s₀ v
  calls : s₀.calls t = s.calls t + 1
  switching : s₀.switching t = false
  array : s₀.alts t = alts
  earlier : ∀ k, k ≠ s.calls t → hist s₀.log t k = hist s.log t k
  called : hist s₀.log t (s.calls t) = [.called alts canblock]

theorem Inv.begin (h : Inv bufsize zero s) (hsw : s.switching t = false) (alts : List (Alt χ α))
    (canblock : Bool) : Begun bufsize zero s (s.begin t alts canblock) t alts canblock := by
  have hcalls : (s.begin t alts canblock).calls t = s.calls t + 1 := update_self _ _ _
  have hhist : ∀ v k, Channel.hist (s.begin t alts canblock).log v k =
      Channel.hist s.log v k ++ if t = v ∧ s.calls t = k then [.called alts canblock] else [] := by
    intro v k
    rw [Sys.begin, hist_happens]
    simp only [update_self, Nat.add_sub_cancel]
  have hne : ∀ {u}, s.switching u = true → u ≠ t := by
    rintro u hu rfl
    rw [hsw] at hu
    cases hu
  refine ⟨⟨fun {u k c op} hmem => ?_, fun {u} hu hrun => ?_, h.queues.nodup, h.queues.ready,
    h.queues.ready_nodup⟩, fun c => ⟨(h.waits c).full, (h.waits c).empty, (h.waits c).one⟩,
    fun c => ?_, fun v hv => ?_, hcalls, hsw, update_self _ _ _, fun k hk => ?_, ?_⟩
  · obtain ⟨hu, hrun, ha⟩ := h.queues.queued (c := c) hmem
    refine ⟨hu, hrun, ?_⟩
    simp only [Sys.begin, Sys.happens, update_of_ne (hne hu)]
    exact ha
  · simp only [Sys.begin, Sys.happens, update_of_ne (hne hu)]
    exact h.queues.waits hu hrun
  · refine (h.bufs c).congr rfl rfl rfl ?_ ?_ <;>
      simp [Sys.begin, Sys.happens, values, What.value]
  · refine (h.calls v).congr (update_of_ne hv _ _) rfl Iff.rfl (update_of_ne hv _ _)
      (update_of_ne hv _ _) fun k => ?_
    rw [hhist, if_neg (fun h => hv h.1.symm), append_nil]
  · rw [hhist, if_neg (fun h => hk h.2.symm), append_nil]
  · rw [hhist, if_pos ⟨rfl, rfl⟩, (h.calls t).later le_rfl, nil_append]

omit [DecidableEq χ] in
theorem hist_event (s : Sys θ χ α) (p : Altptr θ) (op : Op) (c : χ) (x : α) (v : θ) (k : Nat) :
    hist [s.event p op c x] v k =
      if p.1 = v ∧ s.calls p.1 - 1 = k then [.moved p.2 op c x] else [] :=
  hist_singleton _ _ _

omit [DecidableEq θ] in
theorem values_returned (op : Op) (c : χ) (s : Sys θ χ α) (t : θ) (r : Int) :
    values op c (s.happens t (.returned r)).log = values op c s.log := by
  simp [happens, values, What.value]

omit [DecidableEq θ] [DecidableEq χ] in
theorem Queues.congr (h : Queues s) (hsend : s'.asend = s.asend) (hrecv : s'.arecv = s.arecv)
    (halts : s'.alts = s.alts) (hsw : s'.switching = s.switching)
    (hrun : s'.runqueue = s.runqueue) : Queues s' := by
  have harray : ∀ c op, s'.chanarray c op = s.chanarray c op := by
    intro c op
    cases op <;> simp [chanarray, hsend, hrecv]
  refine ⟨fun {u k c op} hmem => ?_, fun {u} => ?_, fun c op => ?_, fun {u} => ?_, ?_⟩
  · rw [harray] at hmem
    rw [hsw, hrun, halts]
    exact h.queued hmem
  · rw [hsw, hrun, halts]
    intro hu hnot k a ha hop
    rw [harray]
    exact h.waits hu hnot ha hop
  · rw [harray]
    exact h.nodup c op
  · rw [hsw, hrun]
    exact h.ready
  · rw [hrun]
    exact h.ready_nodup

omit [DecidableEq θ] [DecidableEq χ] in
theorem Waits.congr (h : Waits bufsize s c) (hsend : s'.asend c = s.asend c)
    (hrecv : s'.arecv c = s.arecv c) (hnbuf : s'.nbuf c = s.nbuf c) : Waits bufsize s' c := by
  refine ⟨?_, ?_, ?_⟩
  · rw [hsend, hnbuf]
    exact h.full
  · rw [hrecv, hnbuf]
    exact h.empty
  · rw [hsend, hrecv]
    exact h.one

variable {canblock : Bool} {s₀ : Sys θ χ α}

section

variable (h : Begun bufsize zero s s₀ t alts canblock)
include h

/-- The thread that is in the call is not in any queue. -/
theorem Begun.not_ready : t ∉ s₀.runqueue := by
  intro hmem
  have := h.queues.ready hmem
  rw [h.switching] at this
  cases this

/-- Nobody waits for a buffer that can be used. -/
theorem Begun.no_waits (hcan : s₀.altcanexec bufsize a = true)
    (hno : s₀.chanarray a.c (otherop a.op) = []) : s₀.asend a.c = [] ∧ s₀.arecv a.c = [] := by
  obtain ⟨c, v, op⟩ := a
  cases op with
  | nop => simp [altcanexec] at hcan
  | snd =>
    refine ⟨?_, hno⟩
    by_contra hne
    have hfull := (h.waits c).full hne
    simp [altcanexec, hno, hfull] at hcan
  | rcv =>
    refine ⟨hno, ?_⟩
    by_contra hne
    have hempty := (h.waits c).empty hne
    simp [altcanexec, hno, hempty] at hcan

/-- A thread does its operation alone, and returns. -/
theorem Begun.alone (hcall : CallOf zero s t) (hsw : s.switching t = false) {i : Nat}
    (hai : alts[i]? = some a) (hcan : s₀.altcanexec bufsize a = true)
    (hno : s₀.chanarray a.c (otherop a.op) = []) :
    ∃ s', s₀.altcopy bufsize zero (t, i) a none = .ok s' ∧
      Inv bufsize zero (s'.happens t (.returned i)) := by
  obtain ⟨s', x, hs', hsame, hbufs, hlog, hx, hnbuf⟩ := altcopy_alone zero h.bufs (t, i) hcan hno
  rw [SameButBufs] at hsame
  have hsend : s'.asend = s₀.asend := by rw [hsame]
  have hrecv : s'.arecv = s₀.arecv := by rw [hsame]
  have halts : s'.alts = s₀.alts := by rw [hsame]
  have halt : s'.alt = s₀.alt := by rw [hsame]
  have hsw' : s'.switching = s₀.switching := by rw [hsame]
  have hrun : s'.runqueue = s₀.runqueue := by rw [hsame]
  have hcalls : s'.calls = s₀.calls := by rw [hsame]
  have hhist : ∀ v k, hist (s'.happens t (.returned i)).log v k = hist s₀.log v k ++
      if t = v ∧ s.calls t = k then [.moved i a.op a.c x, .returned i] else [] := by
    intro v k
    rw [hist_happens, hlog, hist_append, hist_event, hcalls, h.calls, Nat.add_sub_cancel]
    split_ifs <;> simp
  refine ⟨s', hs', h.queues.congr hsend hrecv halts hsw' hrun, fun c => ?_, fun c => ?_,
    fun v => ?_⟩
  · by_cases hc : c = a.c
    · -- nobody waits for the channel
      subst hc
      have hnil : s₀.asend a.c = [] ∧ s₀.arecv a.c = [] := h.no_waits hcan hno
      refine ⟨fun hne => absurd ?_ hne, fun hne => absurd ?_ hne, fun hp => ?_⟩
      · exact (congrFun hsend _).trans hnil.1
      · exact (congrFun hrecv _).trans hnil.2
      · change _ ∈ s'.asend a.c at hp
        rw [hsend, hnil.1] at hp
        cases hp
    · exact (h.waits c).congr (congrFun hsend c) (congrFun hrecv c) (hnbuf c hc)
  · exact (hbufs c).congr rfl rfl rfl (values_returned _ _ _ _ _) (values_returned _ _ _ _ _)
  · by_cases hv : v = t
    · subst hv
      refine hcall.return hsw ((congrFun hcalls v).trans h.calls)
        ((congrFun hsw' v).trans h.switching) ?_ (fun k hk => ?_) ?_
      · change v ∉ s'.runqueue
        rw [hrun]
        exact h.not_ready
      · rw [hhist, if_neg (fun h => hk h.2.symm), append_nil, h.earlier k hk]
      · rw [hhist, if_pos ⟨rfl, rfl⟩, h.called]
        exact .done canblock hai hx
    · refine (h.others v hv).congr (congrFun hcalls v) (congrFun hsw' v) ?_ (congrFun halts v)
        (congrFun halt v) fun k => ?_
      · change v ∈ s'.runqueue ↔ _
        rw [hrun]
      · rw [hhist, if_neg (fun h => hv h.1.symm), append_nil]

end

/-- The thread `t` has met `u`, and `u` was taken out of the queues and made ready. -/
structure Met (s₀ s' : Sys θ χ α) (t u : θ) (i k : Nat) (a b : Alt χ α) (x y : α) : Prop where
  switching : s'.switching = s₀.switching
  array : s'.alts = s₀.alts
  calls : s'.calls = s₀.calls
  alt : s'.alt = update s₀.alt u k
  nbuf : s'.nbuf = s₀.nbuf
  runqueue : s'.runqueue = s₀.runqueue ++ [u]
  nodup : ∀ c op, (s'.chanarray c op).Nodup
  mem : ∀ c op q, q ∈ s'.chanarray c op ↔ q ∈ s₀.chanarray c op ∧ q.1 ≠ u
  events : ∀ v j, hist s'.log v j = hist s₀.log v j ++
    (if t = v ∧ s₀.calls t - 1 = j then [.moved i a.op a.c x, .returned i] else
      if u = v ∧ s₀.calls u - 1 = j then [.moved k b.op b.c y] else [])

section Met

variable {i k : Nat} {x y : α}

section

variable (h : Met s₀ s' t u i k a b x y)
include h

omit [DecidableEq χ] in
theorem Met.mem_runqueue (v : θ) : v ∈ s'.runqueue ↔ v ∈ s₀.runqueue ∨ v = u := by
  rw [h.runqueue, mem_append, mem_singleton]

omit [DecidableEq χ] in
theorem Met.queues (hqueues : Queues s₀) (hu : s₀.switching u = true) (hnot : u ∉ s₀.runqueue) :
    Queues s' := by
  refine ⟨fun {v j c op} hq => ?_, fun {v} hv hnotv {j e} he hop => ?_, h.nodup,
    fun {v} hv => ?_, ?_⟩
  · rw [h.mem] at hq
    obtain ⟨hv, hnotv, he⟩ := hqueues.queued hq.1
    rw [h.switching, h.array, h.mem_runqueue]
    exact ⟨hv, fun hor => hor.elim hnotv hq.2, he⟩
  · rw [h.mem_runqueue, not_or] at hnotv
    rw [h.switching] at hv
    rw [h.array] at he
    rw [h.mem]
    exact ⟨hqueues.waits hv hnotv.1 he hop, hnotv.2⟩
  · rw [h.switching]
    rcases (h.mem_runqueue v).mp hv with hv | rfl
    · exact hqueues.ready hv
    · exact hu
  · rw [h.runqueue, ← concat_eq_append]
    exact hqueues.ready_nodup.concat hnot

omit [DecidableEq χ] in
theorem Met.waits (hwaits : Waits bufsize s₀ c) : Waits bufsize s' c := by
  refine ⟨fun hne => ?_, fun hne => ?_, fun {p q} hp hq => ?_⟩
  · obtain ⟨p, hp⟩ := exists_mem_of_ne_nil _ hne
    rw [h.nbuf]
    exact hwaits.full (ne_nil_of_mem ((h.mem c .snd p).mp hp).1)
  · obtain ⟨p, hp⟩ := exists_mem_of_ne_nil _ hne
    rw [h.nbuf]
    exact hwaits.empty (ne_nil_of_mem ((h.mem c .rcv p).mp hp).1)
  · exact hwaits.one ((h.mem c .snd p).mp hp).1 ((h.mem c .rcv q).mp hq).1

/-- Both have done one operation, and nobody else has. -/
theorem Met.callOf (hbegun : Begun bufsize zero s s₀ t alts canblock) (hcall : CallOf zero s t)
    (hsw : s.switching t = false) (hai : alts[i]? = some a) (hb : (s₀.alts u)[k]? = some b)
    (hx : a.Moves zero x) (hy : b.Moves zero y) (hu : s₀.switching u = true)
    (hnot : u ∉ s₀.runqueue) (hut : u ≠ t) (v : θ) : CallOf zero s' v := by
  have hevents := h.events
  rw [hbegun.calls, Nat.add_sub_cancel] at hevents
  by_cases hvt : v = t
  · subst hvt
    refine hcall.return hsw ((congrFun h.calls v).trans hbegun.calls)
      ((congrFun h.switching v).trans hbegun.switching) ?_ (fun j hj => ?_) ?_
    · rw [h.mem_runqueue]
      exact fun hor => hor.elim hbegun.not_ready fun heq => hut heq.symm
    · rw [hevents, if_neg (fun h => hj h.2.symm), if_neg (fun h => hut h.1), append_nil,
        hbegun.earlier j hj]
    · rw [hevents, if_pos ⟨rfl, rfl⟩, hbegun.called]
      exact .done canblock hai hx
  by_cases hvu : v = u
  · subst hvu
    have hkv : s'.alt v = k := by rw [h.alt, update_self]
    refine (hbegun.others v hvt).meet hu hnot (congrFun h.calls v)
      ((congrFun h.switching v).trans hu) ((h.mem_runqueue v).mpr (.inr rfl)) (congrFun h.array v)
      (by rw [hkv]; exact hb) hy (fun j hj => ?_) ?_
    · rw [hevents, if_neg (fun h => hvt h.1.symm), if_neg (fun h => hj h.2.symm), append_nil]
    · rw [hevents, if_neg (fun h => hvt h.1.symm), if_pos ⟨rfl, rfl⟩, hkv]
  · refine (hbegun.others v hvt).congr (congrFun h.calls v) (congrFun h.switching v) ?_
      (congrFun h.array v) ?_ fun j => ?_
    · rw [h.mem_runqueue]
      exact or_iff_left hvu
    · rw [h.alt, update_of_ne hvu]
    · rw [hevents, if_neg (fun h => hvt h.1.symm), if_neg (fun h => hvu h.1.symm), append_nil]

end

omit [DecidableEq χ] in
/-- The events of two different threads. -/
theorem hist_events (hut : u ≠ t) (hbc : b.c = a.c) {es : List (Event θ χ α)}
    (hes : es = [s.event (t, i) a.op a.c x, s.event (u, k) b.op a.c y] ∨
      es = [s.event (u, k) b.op a.c y, s.event (t, i) a.op a.c x]) (v : θ) (j : Nat) :
    hist es v j = if t = v ∧ s.calls t - 1 = j then [.moved i a.op a.c x] else
      if u = v ∧ s.calls u - 1 = j then [.moved k b.op b.c y] else [] := by
  rw [hbc]
  rcases hes with rfl | rfl <;>
    rw [← singleton_append, hist_append, hist_event, hist_event] <;>
    by_cases htv : t = v ∧ s.calls t - 1 = j
  · rw [if_pos htv, if_pos htv, if_neg fun hu => hut (hu.1.trans htv.1.symm)]
    rfl
  · rw [if_neg htv, if_neg htv]
    rfl
  · rw [if_pos htv, if_pos htv, if_neg fun hu => hut (hu.1.trans htv.1.symm)]
    rfl
  · rw [if_neg htv, if_neg htv, append_nil]

/-- A thread meets another one, and returns. -/
theorem Begun.meet (h : Begun bufsize zero s s₀ t alts canblock) (hcall : CallOf zero s t)
    (hsw : s.switching t = false) (hai : alts[i]? = some a) (hop : a.op ≠ .nop)
    (hmem : (u, k) ∈ s₀.chanarray a.c (otherop a.op)) (hb : (s₀.alts u)[k]? = some b) :
    ∃ s1 s2, s₀.altcopy bufsize zero (t, i) a (some ((u, k), b)) = .ok s1 ∧
      s1.altalldequeue u 0 (s1.alts u) = .ok s2 ∧
      Inv bufsize zero (({ s2 with alt := update s2.alt u k }._threadready u).happens t
        (.returned i)) := by
  obtain ⟨hu, hnot, b', hb', hbc, hbo⟩ := h.queues.queued hmem
  obtain rfl : b' = b := Option.some.inj (hb'.symm.trans hb)
  have hut : u ≠ t := by
    rintro rfl
    rw [h.switching] at hu
    cases hu
  obtain ⟨s1, x, y, es, hs1, hsame1, hbufs, hlog1, hes, ⟨hx, hy⟩, hnbuf⟩ :=
    altcopy_both zero h.bufs h.waits (t, i) hop hbo hmem
  rw [SameButBufs] at hsame1
  have harray1 : ∀ c op, s1.chanarray c op = s₀.chanarray c op := by
    intro c op
    rw [hsame1]
    rfl
  have halts1 : s1.alts = s₀.alts := by rw [hsame1]
  obtain ⟨s2, hs2, hsame2, hnd, hmem2⟩ := altalldequeue_spec (u := u) (s := s1) (s1.alts u) 0
    (show _ = (s1.alts u).drop 0 from rfl) (fun c op => by rw [harray1]; exact h.queues.nodup c op)
    (fun {k c op} hq => by
      rw [halts1]
      rw [harray1] at hq
      exact (h.queues.queued hq).2.2)
    fun {k a} _ ha ho => by
      rw [harray1]
      rw [halts1] at ha
      exact h.queues.waits hu hnot ha ho
  rw [SameButQueues] at hsame2
  have hcalls : s2.calls = s₀.calls := by rw [hsame2, hsame1]
  have hlog : s2.log = s₀.log ++ es := by rw [hsame2]; exact hlog1
  have hmet : Met s₀ (({ s2 with alt := update s2.alt u k }._threadready u).happens t
      (.returned i)) t u i k a b' x y := by
    refine ⟨?_, ?_, hcalls, ?_, ?_, ?_, hnd, fun c op q => ?_, fun v j => ?_⟩
    · change s2.switching = _
      rw [hsame2, hsame1]
    · change s2.alts = _
      rw [hsame2, hsame1]
    · change update s2.alt u k = _
      rw [hsame2, hsame1]
    · change s2.nbuf = _
      rw [hsame2]
      exact funext hnbuf
    · change s2.runqueue ++ [u] = _
      rw [hsame2, hsame1]
    · change q ∈ s2.chanarray c op ↔ _
      rw [hmem2, harray1]
      simp
    · rw [hist_happens]
      simp only [_threadready, hlog, hist_append, hcalls, append_assoc]
      rw [hist_events hut hbc hes]
      by_cases htv : t = v ∧ s₀.calls t - 1 = j
      · simp only [if_pos htv, singleton_append]
      · simp only [if_neg htv, append_nil]
  refine ⟨s1, s2, hs1, hs2, hmet.queues h.queues hu hnot, fun c => hmet.waits (h.waits c),
    fun c => ?_, hmet.callOf h hcall hsw hai hb hx hy hu hnot hut⟩
  refine (hbufs c).congr ?_ ?_ ?_ ((values_returned _ _ _ _ _).trans ?_)
    ((values_returned _ _ _ _ _).trans ?_) <;>
    rw [hsame2] <;>
    rfl

end Met

/-- An entry of which the operation cannot be done. -/
theorem Begun.not_can (h : Begun bufsize zero s s₀ t alts canblock)
    (hno : s₀.altcanexec bufsize a = false) :
    (a.op = .snd → s₀.nbuf a.c = bufsize a.c ∧ s₀.arecv a.c = []) ∧
      (a.op = .rcv → s₀.nbuf a.c = 0 ∧ s₀.asend a.c = []) := by
  obtain ⟨c, v, op⟩ := a
  have hle := (h.bufs c).le
  constructor
  · rintro rfl
    by_cases hz : bufsize c = 0
    · simp only [altcanexec, hz, otherop, chanarray, if_true, reduceCtorEq, if_false] at hno
      exact ⟨(by omega : s₀.nbuf c = bufsize c), of_not_not (of_decide_eq_false hno)⟩
    have hfull : s₀.nbuf c = bufsize c := by
      simp only [altcanexec, hz, if_false, reduceCtorEq, decide_eq_false_iff_not] at hno
      omega
    refine ⟨hfull, ?_⟩
    by_contra hne
    exact hz (hfull.symm.trans ((h.waits c).empty hne))
  · rintro rfl
    by_cases hz : bufsize c = 0
    · simp only [altcanexec, hz, otherop, chanarray, if_true, reduceCtorEq, if_false] at hno
      exact ⟨(by omega : s₀.nbuf c = 0), of_not_not (of_decide_eq_false hno)⟩
    · have hempty : s₀.nbuf c = 0 := by
        simpa [altcanexec, hz] using hno
      refine ⟨hempty, ?_⟩
      by_contra hne
      exact hz (((h.waits c).full hne).symm.trans hempty)

/-- Those who wait agree with the buffers, also when a thread is put into the queues. -/
theorem Begun.waits_queueall (h : Begun bufsize zero s s₀ t alts canblock)
    (hno : ∀ a ∈ alts, s₀.altcanexec bufsize a = false)
    (hmem : ∀ c op q, q ∈ s'.chanarray c op ↔ q ∈ s₀.chanarray c op ∨ op ≠ .nop ∧ q.1 = t ∧ ∃ a,
      alts[q.2]? = some a ∧ a.c = c ∧ a.op = op) (hnbuf : s'.nbuf = s₀.nbuf) :
    Waits bufsize s' c := by
  have hsend : ∀ p ∈ s'.asend c, p ∈ s₀.asend c ∨
      p.1 = t ∧ s₀.nbuf c = bufsize c ∧ s₀.arecv c = [] := by
    intro p hp
    rcases (hmem c .snd p).mp hp with hp | ⟨-, ht, a, ha, rfl, ho⟩
    · exact .inl hp
    · exact .inr ⟨ht, (h.not_can (hno a (mem_of_getElem? ha))).1 ho⟩
  have hrecv : ∀ q ∈ s'.arecv c, q ∈ s₀.arecv c ∨ q.1 = t ∧ s₀.nbuf c = 0 ∧ s₀.asend c = [] := by
    intro q hq
    rcases (hmem c .rcv q).mp hq with hq | ⟨-, ht, a, ha, rfl, ho⟩
    · exact .inl hq
    · exact .inr ⟨ht, (h.not_can (hno a (mem_of_getElem? ha))).2 ho⟩
  refine ⟨fun hne => ?_, fun hne => ?_, fun {p q} hp hq => ?_⟩
  · obtain ⟨p, hp⟩ := exists_mem_of_ne_nil _ hne
    rw [hnbuf]
    rcases hsend p hp with hp | ⟨-, hfull, -⟩
    · exact (h.waits c).full (ne_nil_of_mem hp)
    · exact hfull
  · obtain ⟨q, hq⟩ := exists_mem_of_ne_nil _ hne
    rw [hnbuf]
    rcases hrecv q hq with hq | ⟨-, hempty, -⟩
    · exact (h.waits c).empty (ne_nil_of_mem hq)
    · exact hempty
  · rcases hsend p hp with hp | ⟨hpt, -, hnil⟩
    · rcases hrecv q hq with hq | ⟨-, -, hnil⟩
      · exact (h.waits c).one hp hq
      · rw [hnil] at hp
        cases hp
    · rcases hrecv q hq with hq | ⟨hqt, -⟩
      · rw [hnil] at hq
        cases hq
      · exact hpt.trans hqt.symm

/-- A thread has to wait. -/
theorem Begun.wait (h : Begun bufsize zero s s₀ t alts true) (hcall : CallOf zero s t)
    (hsw : s.switching t = false) (hno : ∀ a ∈ alts, s₀.altcanexec bufsize a = false) :
    Inv bufsize zero { queueall t 0 alts s₀ with switching := update s₀.switching t true } := by
  have hne : ∀ {u}, s₀.switching u = true → u ≠ t := by
    rintro u hu rfl
    rw [h.switching] at hu
    cases hu
  obtain ⟨hsame, hnd, hmem⟩ := queueall_spec (t := t) alts 0 rfl h.queues.nodup
    fun {k c op} _ hq => absurd rfl (hne (h.queues.queued hq).1)
  obtain ⟨s', hs'⟩ : ∃ s', s' = queueall t 0 alts s₀ := ⟨_, rfl⟩
  rw [← hs'] at hsame hnd hmem ⊢
  rw [SameButQueues] at hsame
  have hrun : s'.runqueue = s₀.runqueue := by rw [hsame]
  have halts : s'.alts = s₀.alts := by rw [hsame]
  have hcalls : s'.calls = s₀.calls := by rw [hsame]
  have hlog : s'.log = s₀.log := by rw [hsame]
  have hmem' : ∀ c op q, q ∈ s'.chanarray c op ↔ q ∈ s₀.chanarray c op ∨
      op ≠ .nop ∧ q.1 = t ∧ ∃ a, alts[q.2]? = some a ∧ a.c = c ∧ a.op = op := by
    intro c op q
    rw [hmem]
    simp
  refine ⟨⟨fun {u k c op} hq => ?_, fun {u} hu hnot k a ha hop => ?_, hnd, fun {u} hu => ?_, ?_⟩,
    fun c => ?_, fun c => ?_, fun v => ?_⟩
  · change _ ∈ s'.chanarray c op at hq
    simp only [hrun, halts]
    rcases (hmem' c op _).mp hq with hq | ⟨-, rfl, a, ha, hc, ho⟩
    · obtain ⟨hu, hr, ha⟩ := h.queues.queued hq
      exact ⟨by rw [update_of_ne (hne hu)]; exact hu, hr, ha⟩
    · exact ⟨update_self _ _ _, h.not_ready, a, by rw [h.array]; exact ha, hc, ho⟩
  · simp only [hrun, halts] at hnot ha
    refine (hmem' a.c a.op _).mpr ?_
    by_cases hut : u = t
    · subst hut
      rw [h.array] at ha
      exact .inr ⟨hop, rfl, a, ha, rfl, rfl⟩
    · simp only [update_of_ne hut] at hu
      exact .inl (h.queues.waits hu hnot ha hop)
  · simp only [hrun] at hu
    have hsw := h.queues.ready hu
    simp only [update_of_ne (hne hsw)]
    exact hsw
  · simp only [hrun]
    exact h.queues.ready_nodup
  · exact h.waits_queueall hno hmem' (by rw [hsame])
  · refine (h.bufs c).congr (by rw [hsame]) (by rw [hsame]) (by rw [hsame]) ?_ ?_ <;>
      simp only [hlog]
  · by_cases hv : v = t
    · subst hv
      refine hcall.wait hsw ((congrFun hcalls v).trans h.calls) (update_self _ _ _) ?_
        (fun k hk => ?_) ?_
      · simp only [hrun]
        exact h.not_ready
      · simp only [hlog]
        exact h.earlier k hk
      · simp only [hlog, halts, h.array]
        exact h.called
    · refine (h.others v hv).congr (congrFun hcalls v) (update_of_ne hv _ _) ?_
        (congrFun halts v) ?_ ?_
      · simp only [hrun]
      · rw [hsame]
      · intro k
        simp only [hlog]

theorem Begun.fail (h : Begun bufsize zero s s₀ t alts false) (hcall : CallOf zero s t)
    (hsw : s.switching t = false) : Inv bufsize zero (s₀.happens t (.returned (-1))) := by
  have hhist : ∀ v k, hist (s₀.happens t (.returned (-1))).log v k =
      hist s₀.log v k ++ if t = v ∧ s.calls t = k then [.returned (-1)] else [] := by
    intro v k
    rw [hist_happens, h.calls, Nat.add_sub_cancel]
  refine ⟨h.queues.congr rfl rfl rfl rfl rfl, fun c => (h.waits c).congr rfl rfl rfl,
    fun c => (h.bufs c).congr rfl rfl rfl (values_returned _ _ _ _ _) (values_returned _ _ _ _ _),
    fun v => ?_⟩
  by_cases hv : v = t
  · subst hv
    refine hcall.return hsw h.calls h.switching h.not_ready (fun k hk => ?_) ?_
    · rw [hhist, if_neg (fun h => hk h.2.symm), append_nil, h.earlier k hk]
    · rw [hhist, if_pos ⟨rfl, rfl⟩, h.called]
      exact .failed alts
  · refine (h.others v hv).congr rfl rfl Iff.rfl rfl rfl fun k => ?_
    rw [hhist, if_neg (fun h => hv h.1.symm), append_nil]

theorem Inv.chanalt (h : Inv bufsize zero s) (hsw : s.switching t = false) (alts : List (Alt χ α))
    (canblock : Bool) (rnd rnd' : Nat) :
    ∃ s', s.chanalt bufsize zero t alts canblock rnd rnd' = .ok s' ∧ Inv bufsize zero s' := by
  have hbegun := h.begin hsw alts canblock
  rw [Sys.chanalt]
  dsimp only
  cases hcan : ((s.begin t alts canblock).cans bufsize alts)[rnd %
      ((s.begin t alts canblock).cans bufsize alts).length]? with
  | none =>
    -- nothing can be done
    dsimp only
    have hnil : (s.begin t alts canblock).cans bufsize alts = [] := by
      by_contra hne
      have hpos := length_pos_of_ne_nil hne
      rw [getElem?_eq_none_iff] at hcan
      exact absurd (mod_lt rnd hpos) (Nat.not_lt.mpr hcan)
    cases canblock with
    | false => exact ⟨_, rfl, hbegun.fail (h.calls t) hsw⟩
    | true =>
      refine ⟨_, rfl, hbegun.wait (h.calls t) hsw fun a ha => ?_⟩
      obtain ⟨i, hi⟩ := mem_iff_getElem?.mp ha
      have := filter_eq_nil_iff.mp hnil (a, i)
        (mem_zipIdx_iff_getElem?.mpr hi)
      simpa using this
  | some ai =>
    obtain ⟨a, i⟩ := ai
    obtain ⟨hmem, hexec⟩ := mem_filter.mp (mem_of_getElem? hcan)
    have hai : alts[i]? = some a := mem_zipIdx_iff_getElem?.mp hmem
    have hop : a.op ≠ .nop := by
      intro hnop
      simp [Sys.altcanexec, hnop] at hexec
    dsimp only
    rw [Sys.altexec]
    cases hother : ((s.begin t alts canblock).chanarray a.c (otherop a.op))[rnd' %
        ((s.begin t alts canblock).chanarray a.c (otherop a.op)).length]? with
    | none =>
      have hnil : (s.begin t alts canblock).chanarray a.c (otherop a.op) = [] := by
        by_contra hne
        have hpos := length_pos_of_ne_nil hne
        rw [getElem?_eq_none_iff] at hother
        exact absurd (mod_lt rnd' hpos) (Nat.not_lt.mpr hother)
      obtain ⟨s', hs', hinv⟩ := hbegun.alone (h.calls t) hsw hai hexec hnil
      refine ⟨_, ?_, hinv⟩
      dsimp only
      rw [hs']
      rfl
    | some uk =>
      have hmem := mem_of_getElem? hother
      obtain ⟨-, -, b, hb, -⟩ := hbegun.queues.queued hmem
      obtain ⟨s1, s2, hs1, hs2, hinv⟩ := hbegun.meet (h.calls t) hsw hai hop hmem hb
      refine ⟨_, ?_, hinv⟩
      dsimp only
      rw [hb]
      dsimp only
      rw [hs1, ok_bind, hs2]
      rfl

/-- A thread that was made ready returns. -/
theorem Inv.resume (h : Inv bufsize zero s) (hready : t ∈ s.runqueue) :
    ∃ s', s.resume t = some (.ok s') ∧ Inv bufsize zero s' := by
  have hsw := h.queues.ready hready
  obtain ⟨a, x, ha, -⟩ := (h.calls t).ready hready
  have hlt : s.alt t < (s.alts t).length := (List.getElem?_eq_some_iff.mp ha).1
  have herase : ∀ u, u ∈ s.runqueue.erase t ↔ u ∈ s.runqueue ∧ u ≠ t := by
    intro u
    rw [h.queues.ready_nodup.mem_erase_iff, and_comm]
  refine ⟨_, by rw [Sys.resume, if_pos hready, if_pos hlt], ?_⟩
  -- the thread is in no queue, and every other one is where it was
  have hnot : ∀ {u k c op}, (u, k) ∈ s.chanarray c op → u ≠ t := by
    rintro u k c op hq rfl
    exact (h.queues.queued hq).2.1 hready
  refine ⟨⟨fun {u k c op} hq => ?_, fun {u} hu hnr k a ha hop => ?_, h.queues.nodup,
    fun {u} hu => ?_, h.queues.ready_nodup.erase t⟩,
    fun c => (h.waits c).congr rfl rfl rfl,
    fun c => (h.bufs c).congr rfl rfl rfl (values_returned _ _ _ _ _) (values_returned _ _ _ _ _),
    fun v => ?_⟩
  · change _ ∈ s.chanarray c op at hq
    obtain ⟨hu, hr, ha⟩ := h.queues.queued hq
    refine ⟨?_, fun hmem => hr ((herase u).mp hmem).1, ha⟩
    simp only [Sys.happens, update_of_ne (hnot hq)]
    exact hu
  · have hut : u ≠ t := by
      rintro rfl
      simp [Sys.happens] at hu
    simp only [Sys.happens, update_of_ne hut] at hu
    exact h.queues.waits hu (fun hmem => hnr ((herase u).mpr ⟨hmem, hut⟩)) ha hop
  · obtain ⟨hu, hut⟩ := (herase u).mp hu
    simp only [Sys.happens, update_of_ne hut]
    exact h.queues.ready hu
  · by_cases hv : v = t
    · subst hv
      refine (h.calls v).resume hready hsw rfl (update_self _ _ _)
        (fun hmem => ((herase v).mp hmem).2 rfl) (fun k hk => ?_) ?_
      · rw [hist_happens, if_neg (fun h => hk h.2.symm), append_nil]
      · rw [hist_happens, if_pos ⟨rfl, rfl⟩]
    · refine (h.calls v).congr rfl (update_of_ne hv _ _) ?_ rfl rfl fun k => ?_
      · exact (herase v).trans (and_iff_left hv)
      · rw [hist_happens, if_neg (fun h => hv h.1.symm), append_nil]

/-- Every step that is possible succeeds, and keeps the invariants. -/
theorem Inv.exec (h : Inv bufsize zero s) {a : Act θ χ α} {r : Except Abort (Sys θ χ α)}
    (hr : exec bufsize zero s a = some r) : ∃ s', r = .ok s' ∧ Inv bufsize zero s' := by
  cases a with
  | chanalt t alts canblock rnd rnd' =>
    rw [Channel.exec] at hr
    by_cases hsw : s.switching t = true
    · rw [if_pos hsw] at hr
      cases hr
    · rw [if_neg hsw] at hr
      obtain ⟨s', hs', hinv⟩ := h.chanalt (by simpa using hsw) alts canblock rnd rnd'
      exact ⟨s', (Option.some.inj hr).symm.trans hs', hinv⟩
  | resume t =>
    rw [Channel.exec] at hr
    by_cases hready : t ∈ s.runqueue
    · obtain ⟨s', hs', hinv⟩ := h.resume hready
      exact ⟨s', Option.some.inj (hr.symm.trans hs'), hinv⟩
    · rw [Sys.resume, if_neg hready] at hr
      cases hr

theorem Inv.init (buf : χ → Nat → α) : Inv bufsize zero (init θ buf) := by
  refine ⟨⟨fun {u k c op} hq => ?_, fun {u} hu => ?_, fun c op => ?_, fun {u} hu => ?_,
    nodup_nil⟩, fun c => ⟨fun hne => absurd rfl hne, fun _ => rfl, fun hp => ?_⟩,
    fun c => ⟨Nat.zero_le _, fun hne => Nat.pos_of_ne_zero hne, rfl⟩,
    fun t => ⟨fun _ => rfl, fun hk => absurd hk (Nat.not_lt_zero _), fun hu => ?_, fun hu => ?_⟩⟩
  · cases op <;> cases hq
  · cases hu
  · cases op <;> exact nodup_nil
  · cases hu
  · cases hp
  · cases hu
  · cases hu

theorem Reachable.inv (h : Reachable bufsize zero s) : Inv bufsize zero s := by
  induction h with
  | init buf => exact Inv.init buf
  | step a _ hs ih =>
    obtain ⟨s', hs', hinv⟩ := ih.exec hs
    cases hs'
    exact hinv

/-! ## Safety -/

/-- What channels are for. -/
structure ChannelsSafe (bufsize : χ → Nat) (zero : α) (s : Sys θ χ α) : Prop where
  /-- A call that has returned has done one of its operations, or has returned -1. -/
  completed : ∀ t k, k < s.calls t → (s.switching t = true → k + 1 < s.calls t) →
    Completed zero (hist s.log t k)
  /-- A call that waits has done nothing yet, or one of its operations if it was made ready. -/
  waiting : ∀ t, s.switching t = true → 0 < s.calls t ∧
    (hist s.log t (s.calls t - 1) = [.called (s.alts t) true] ∨
      t ∈ s.runqueue ∧ ∃ a x, (s.alts t)[s.alt t]? = some a ∧ a.Moves zero x ∧
        hist s.log t (s.calls t - 1) = [.called (s.alts t) true, .moved (s.alt t) a.op a.c x])
  /-- What was received was sent, in this order; the buffer has what was not received yet. -/
  values : ∀ c, values .snd c s.log =
    values .rcv c s.log ++ ring (s.buf c) (bufsize c) (s.off c) (s.nbuf c)
  nbuf : ∀ c, s.nbuf c ≤ bufsize c
  /-- A thread that was made ready is in no queue. -/
  ready : ∀ t ∈ s.runqueue, ∀ k c op, (t, k) ∉ s.chanarray c op
  full : ∀ c, s.asend c ≠ [] → s.nbuf c = bufsize c
  empty : ∀ c, s.arecv c ≠ [] → s.nbuf c = 0
  /-- Only one call may be both in the queue of the senders and in that of the receivers. -/
  both : ∀ c, s.asend c ≠ [] → s.arecv c ≠ [] →
    bufsize c = 0 ∧ ∃ t, (∀ p ∈ s.asend c, p.1 = t) ∧ ∀ q ∈ s.arecv c, q.1 = t
  /-- No call aborts. -/
  exec : ∀ a r, exec bufsize zero s a = some r → ∃ s', r = .ok s'

/-- Channel communication is correct in every state that can be reached. -/
theorem channels_safe (h : Reachable bufsize zero s) : ChannelsSafe bufsize zero s where
  completed t _ := (h.inv.calls t).completed
  waiting t hsw := by
    obtain ⟨hpos, hcalled⟩ := (h.inv.calls t).waiting hsw
    refine ⟨hpos, ?_⟩
    by_cases hready : t ∈ s.runqueue
    · exact .inr ⟨hready, (h.inv.calls t).ready hready⟩
    · exact .inl (hcalled hready)
  values c := (h.inv.bufs c).values
  nbuf c := (h.inv.bufs c).le
  ready t ht k c op hq := (h.inv.queues.queued hq).2.1 ht
  full c := (h.inv.waits c).full
  empty c := (h.inv.waits c).empty
  both c hsend hrecv := by
    have hwaits := h.inv.waits c
    obtain ⟨p, hp⟩ := exists_mem_of_ne_nil _ hsend
    obtain ⟨q, hq⟩ := exists_mem_of_ne_nil _ hrecv
    refine ⟨(hwaits.full hsend).symm.trans (hwaits.empty hrecv), p.1, fun p' hp' => ?_,
      fun q' hq' => (hwaits.one hp hq').symm⟩
    exact (hwaits.one hp' hq).trans (hwaits.one hp hq).symm
  exec a r hr := by
    obtain ⟨s', hs', -⟩ := h.inv.exec hr
    exact ⟨s', hs'⟩

/-- A thread that waits for two channels is met on one of them, and does not wait for the other one
any more. -/
theorem channels_safe_met : ∃ s : Sys Bool Bool Nat,
    Reachable Bool.toNat 0 s ∧ s.arecv true = [] ∧
      hist s.log false 0 = [.called [⟨true, none, .rcv⟩, ⟨false, none, .rcv⟩] true,
        .moved 1 .rcv false 7, .returned 1] ∧ ChannelsSafe Bool.toNat 0 s := by
  have hrun : (execs Bool.toNat 0 (init Bool fun _ _ => 0)
      [.chanalt false [⟨true, none, .rcv⟩, ⟨false, none, .rcv⟩] true 0 0,
        .chanalt true [⟨false, some 7, .snd⟩] false 0 0, .resume false]).map (fun s =>
        (s.arecv true, hist s.log false 0)) =
      some ([], [.called [⟨true, none, .rcv⟩, ⟨false, none, .rcv⟩] true,
        .moved 1 .rcv false 7, .returned 1]) := by
    decide +kernel
  obtain ⟨s, hs, hvals⟩ := Option.map_eq_some_iff.mp hrun
  have hreach := (Reachable.init _).execs _ _ hs
  simp only [Prod.mk.injEq] at hvals
  exact ⟨s, hreach, hvals.1, hvals.2, channels_safe hreach⟩

/-- A call that offers to send and to receive on one channel without a buffer waits in both of its
queues. -/
theorem both_queued : ∃ s : Sys Unit Unit Nat,
    Reachable (fun _ => 0) 0 s ∧ s.asend () = [((), 0)] ∧ s.arecv () = [((), 1)] := by
  have hrun : (execs (fun _ => 0) 0 (init Unit fun _ _ => 0)
      [.chanalt () [⟨(), some 7, .snd⟩, ⟨(), none, .rcv⟩] true 0 0]).map (fun s =>
        (s.asend (), s.arecv ())) = some ([((), 0)], [((), 1)]) := by
    decide +kernel
  obtain ⟨s, hs, hvals⟩ := Option.map_eq_some_iff.mp hrun
  simp only [Prod.mk.injEq] at hvals
  exact ⟨s, (Reachable.init _).execs _ _ hs, hvals.1, hvals.2⟩

/-- **No meeting is missed.** A thread that waits could do none of its operations, except with
itself. -/
theorem waiting_alone (h : Reachable bufsize zero s) (hsw : s.switching t = true)
    (hrun : t ∉ s.runqueue) (ha : a ∈ s.alts t) (hcan : s.altcanexec bufsize a = true) :
    bufsize a.c = 0 ∧ ∀ p ∈ s.chanarray a.c (otherop a.op), p.1 = t := by
  obtain ⟨k, hk⟩ := getElem?_of_mem ha
  have hq := h.inv.queues.waits hsw hrun hk
  obtain ⟨hfull, hempty, hone⟩ := h.inv.waits a.c
  cases hop : a.op with
  | nop => simp [altcanexec, hop] at hcan
  | snd =>
    have hm : (t, k) ∈ s.asend a.c := by simpa [hop, chanarray] using hq
    have hn := hfull (ne_nil_of_mem hm)
    refine ⟨of_not_not fun hbuf => ?_, fun p hp => (hone hm hp).symm⟩
    simp [altcanexec, hop, hbuf, hn] at hcan
  | rcv =>
    have hm : (t, k) ∈ s.arecv a.c := by simpa [hop, chanarray] using hq
    have hn := hempty (ne_nil_of_mem hm)
    refine ⟨of_not_not fun hbuf => ?_, fun p hp => hone hp hm⟩
    simp [altcanexec, hop, hbuf, hn] at hcan

/-- One thread could meet itself, and another one waits on another channel. -/
theorem waiting_alone_both : ∃ s : Sys Bool Bool Nat, s.arecv true ≠ [] ∧
    s.altcanexec (fun _ => 0) ⟨false, none, .rcv⟩ = true ∧ ∀ p ∈ s.asend false, p.1 = false := by
  obtain ⟨s, hs⟩ : ∃ s, execs (fun _ => 0) 0 (init Bool fun _ _ => 0)
      [.chanalt true [⟨true, none, .rcv⟩] true 0 0,
        .chanalt false [⟨false, some 7, .snd⟩, ⟨false, none, .rcv⟩] true 0 0] = some s := ⟨_, rfl⟩
  have hr := (Reachable.init _).execs _ _ hs
  cases hs
  exact ⟨_, by decide, rfl, (waiting_alone (t := false) (a := ⟨false, none, .rcv⟩) hr rfl
    (by decide) (by decide) rfl).2⟩

end Plan9Port.Channel
