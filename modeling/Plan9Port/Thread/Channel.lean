import Plan9Port.Lib.Ring

/-!
# Channels

`chanalt` of `libthread/channel.c`: a thread offers to send or receive on any number of channels,
and one of these operations is done. If another thread waits for it, the two meet; otherwise a value
goes into the buffer of the channel or comes out of it, or the thread waits in the queues of all the
channels, until another thread takes it out of all of them.

Everything is done with `chanlock` held, so that a call is one step, up to `_threadswitch` if the
thread has to wait. `rand` is left open: each step is told what it returns. The variable that a
thread sends from is not changed as long as the thread waits, so that an `Alt` has the value itself,
and what is received is in the log. Allocating always works. Every `Alt` has a channel; `altdequeue`
does not expect a nil one, which `altcanexec` and `altqueue` pass over.
-/

namespace Plan9Port.Channel

open Lib
open Function (update)

/-- `CHANSND`, `CHANRCV` and `CHANNOP`. -/
inductive Op where
  | snd
  | rcv
  | nop
  deriving DecidableEq, Repr

/-- The operation of the other side, where `nop` stays. -/
def otherop : Op → Op
  | .snd => .rcv
  | .rcv => .snd
  | .nop => .nop

/-- An `Alt`; `v` is what is sent, where nil is zero. -/
structure Alt (χ α : Type) where
  c : χ
  v : Option α
  op : Op
  deriving DecidableEq

/-- An `Alt*`: an entry of the array that a thread is called with. -/
abbrev Altptr (θ : Type) := θ × Nat

/-- What a thread does. -/
inductive What (χ α : Type) where
  /-- a call of `chanalt`, and whether the array ends with `CHANEND` -/
  | called (alts : List (Alt χ α)) (canblock : Bool)
  /-- the operation of an entry is done, with this value -/
  | moved (i : Nat) (op : Op) (c : χ) (x : α)
  | returned (r : Int)
  deriving DecidableEq

/-- What has happened in a call. The calls of a thread are numbered. -/
structure Event (θ χ α : Type) where
  thread : θ
  call : Nat
  what : What χ α
  deriving DecidableEq

/-- Why the program dies: `altdequeue` does not find an entry, an `assert` fails, or `t->alt` is
outside of the array. -/
inductive Abort where
  | abort
  | assert
  | sysfatal
  deriving DecidableEq, Repr

/-- The channels and the threads. -/
structure Sys (θ χ α : Type) where
  nbuf : χ → Nat
  off : χ → Nat
  buf : χ → Nat → α
  asend : χ → List (Altptr θ)
  arecv : χ → List (Altptr θ)
  /-- the array that the thread is called with -/
  alts : θ → List (Alt χ α)
  /-- `t->alt`, from the beginning of the array on -/
  alt : θ → Nat
  /-- in `_threadswitch` -/
  switching : θ → Bool
  runqueue : List θ
  /-- the number of calls so far -/
  calls : θ → Nat
  log : List (Event θ χ α)

/-- New channels; what is in the buffers does not matter. -/
def init (θ : Type) {χ α : Type} (buf : χ → Nat → α) : Sys θ χ α where
  nbuf _ := 0
  off _ := 0
  buf := buf
  asend _ := []
  arecv _ := []
  alts _ := []
  alt _ := 0
  switching _ := false
  runqueue := []
  calls _ := 0
  log := []

variable {θ χ α : Type} [DecidableEq θ] [DecidableEq χ]

/-- `delarray`: the last one takes the place. -/
def delarray (a : List (Altptr θ)) (i : Nat) : List (Altptr θ) :=
  match a.getLast? with
  | none => []
  | some x => (a.set i x).dropLast

namespace Sys

/-- `chanarray`, which is nil for `nop`. -/
def chanarray (s : Sys θ χ α) (c : χ) : Op → List (Altptr θ)
  | .snd => s.asend c
  | .rcv => s.arecv c
  | .nop => []

/-- A queue is replaced. -/
def setarray (s : Sys θ χ α) (c : χ) (op : Op) (a : List (Altptr θ)) : Sys θ χ α :=
  match op with
  | .snd => { s with asend := update s.asend c a }
  | .rcv => { s with arecv := update s.arecv c a }
  | .nop => s

/-- Something happens in the last call of a thread. -/
def happens (s : Sys θ χ α) (t : θ) (what : What χ α) : Sys θ χ α :=
  { s with log := s.log ++ [⟨t, s.calls t - 1, what⟩] }

section Steps

variable (bufsize : χ → Nat) (zero : α)

/-- If an operation can be done at once. -/
def altcanexec (s : Sys θ χ α) (a : Alt χ α) : Bool :=
  if a.op = .nop then false
  else if bufsize a.c = 0 then s.chanarray a.c (otherop a.op) ≠ []
  else
    match a.op with
    | .snd => s.nbuf a.c < bufsize a.c
    | .rcv => 0 < s.nbuf a.c
    | .nop => false

/-- An entry is queued. -/
def altqueue (s : Sys θ χ α) (p : Altptr θ) (a : Alt χ α) : Sys θ χ α :=
  s.setarray a.c a.op (s.chanarray a.c a.op ++ [p])

/-- An entry is taken out. -/
def altdequeue (s : Sys θ χ α) (p : Altptr θ) (a : Alt χ α) : Except Abort (Sys θ χ α) :=
  let ar := s.chanarray a.c a.op
  if ar.idxOf p < ar.length then .ok (s.setarray a.c a.op (delarray ar (ar.idxOf p)))
  else .error .abort

/-- `altalldequeue`, from the entry `i` on. -/
def altalldequeue (u : θ) : Nat → List (Alt χ α) → Sys θ χ α → Except Abort (Sys θ χ α)
  | _, [], s => .ok s
  | i, a :: as, s => do
    let s ← if a.op ≠ .nop then s.altdequeue (u, i) a else .ok s
    altalldequeue u (i + 1) as s

/-- The value moves from the sender to the receiver. -/
def direct (s : Sys θ χ α) (c : χ) (snd rcv : Altptr θ) (x : α) : Sys θ χ α :=
  (s.happens snd.1 (.moved snd.2 .snd c x)).happens rcv.1 (.moved rcv.2 .rcv c x)

/-- The receiver takes a value out of the buffer. -/
def take (s : Sys θ χ α) (c : χ) (rcv : Altptr θ) : Sys θ χ α :=
  { s with
    nbuf := update s.nbuf c (s.nbuf c - 1)
    off := update s.off c (if s.off c + 1 = bufsize c then 0 else s.off c + 1)
    : Sys θ χ α }.happens rcv.1 (.moved rcv.2 .rcv c (s.buf c (s.off c)))

/-- The sender puts a value into the buffer. -/
def put (s : Sys θ χ α) (c : χ) (snd : Altptr θ) (x : α) : Sys θ χ α :=
  { s with
    buf := update s.buf c (update (s.buf c) ((s.off c + s.nbuf c) % bufsize c) x)
    nbuf := update s.nbuf c (s.nbuf c + 1) }.happens snd.1 (.moved snd.2 .snd c x)

/-- `altcopy`, for the entry `a` at `p`, and for the one of the other side if there is one. -/
def altcopy (s : Sys θ χ α) (p : Altptr θ) (a : Alt χ α)
    (other : Option (Altptr θ × Alt χ α)) : Except Abort (Sys θ χ α) :=
  let (snd, rcv) := if a.op = .rcv then (other, some (p, a)) else (some (p, a), other)
  if (snd.all (·.2.op = .snd)) && (rcv.all (·.2.op = .rcv)) then
    match snd, rcv with
    | some (p, b), some (q, _) =>
      if s.nbuf a.c = 0 then .ok (s.direct a.c p q (b.v.getD zero))
      else .ok ((s.take bufsize a.c q).put bufsize a.c p (b.v.getD zero))
    | some (p, b), none => .ok (s.put bufsize a.c p (b.v.getD zero))
    | none, some (q, _) => .ok (s.take bufsize a.c q)
    | none, none => .ok s
  else .error .assert

/-- A thread may run. -/
def _threadready (s : Sys θ χ α) (t : θ) : Sys θ χ α := { s with runqueue := s.runqueue ++ [t] }

/-- `altexec`, where `rand` returns `rnd`. -/
def altexec (s : Sys θ χ α) (p : Altptr θ) (a : Alt χ α) (rnd : Nat) :
    Except Abort (Sys θ χ α) :=
  match (s.chanarray a.c (otherop a.op))[rnd % (s.chanarray a.c (otherop a.op)).length]? with
  | none => s.altcopy bufsize zero p a none
  | some (u, k) =>
    match (s.alts u)[k]? with
    | none => .error .abort
    | some b => do
      let s ← s.altcopy bufsize zero p a (some ((u, k), b))
      let s ← s.altalldequeue u 0 (s.alts u)
      return { s with alt := update s.alt u k }._threadready u

/-- The entries of the array that are queued, from the entry `i` on. -/
def queueall (t : θ) : Nat → List (Alt χ α) → Sys θ χ α → Sys θ χ α
  | _, [], s => s
  | i, a :: as, s => queueall t (i + 1) as (if a.op ≠ .nop then s.altqueue (t, i) a else s)

/-- The beginning of `chanalt`. -/
def begin (s : Sys θ χ α) (t : θ) (alts : List (Alt χ α)) (canblock : Bool) : Sys θ χ α :=
  { s with
    alts := update s.alts t alts
    alt := update s.alt t 0
    calls := update s.calls t (s.calls t + 1)
    : Sys θ χ α }.happens t (.called alts canblock)

/-- The entries that can be executed. -/
def cans (s : Sys θ χ α) (alts : List (Alt χ α)) : List (Alt χ α × Nat) :=
  alts.zipIdx.filter fun a => s.altcanexec bufsize a.1

/-- `chanalt`, where `rand` returns `rnd`, and `rnd'` in `altexec`. -/
def chanalt (s : Sys θ χ α) (t : θ) (alts : List (Alt χ α)) (canblock : Bool) (rnd rnd' : Nat) :
    Except Abort (Sys θ χ α) :=
  let s := s.begin t alts canblock
  match (s.cans bufsize alts)[rnd % (s.cans bufsize alts).length]? with
  | some (a, i) => do
    let s ← s.altexec bufsize zero (t, i) a rnd'
    return s.happens t (.returned i)
  | none =>
    if !canblock then .ok (s.happens t (.returned (-1)))
    else .ok { queueall t 0 alts s with switching := update s.switching t true }

/-- `_threadswitch` returns, if the thread was made ready. -/
def resume (s : Sys θ χ α) (t : θ) : Option (Except Abort (Sys θ χ α)) :=
  if t ∈ s.runqueue then
    some <|
      if s.alt t < (s.alts t).length then
        .ok ({ s with
          runqueue := s.runqueue.erase t
          switching := update s.switching t false }.happens t (.returned (s.alt t)))
      else .error .sysfatal
  else none

end Steps

end Sys

/-- The steps. -/
inductive Act (θ χ α : Type) where
  | chanalt (t : θ) (alts : List (Alt χ α)) (canblock : Bool) (rnd rnd' : Nat)
  | resume (t : θ)

variable (bufsize : χ → Nat) (zero : α)

/-- A step, unless it is not possible. -/
def exec (s : Sys θ χ α) : Act θ χ α → Option (Except Abort (Sys θ χ α))
  | .chanalt t alts canblock rnd rnd' =>
    if s.switching t then none else some (s.chanalt bufsize zero t alts canblock rnd rnd')
  | .resume t => s.resume t

/-- The states that the threads can reach. -/
inductive Reachable : Sys θ χ α → Prop
  | init (buf : χ → Nat → α) : Reachable (init θ buf)
  | step {s s' : Sys θ χ α} (a : Act θ χ α) :
      Reachable s → exec bufsize zero s a = some (.ok s') → Reachable s'

/-- Some steps in a row. -/
def execs (s : Sys θ χ α) : List (Act θ χ α) → Option (Sys θ χ α)
  | [] => some s
  | a :: as =>
    match exec bufsize zero s a with
    | some (.ok s') => execs s' as
    | _ => none

theorem Reachable.execs {s s' : Sys θ χ α} (h : Reachable bufsize zero s) {as : List (Act θ χ α)}
    (hs : execs bufsize zero s as = some s') : Reachable bufsize zero s' := by
  induction as generalizing s with
  | nil =>
    cases hs
    exact h
  | cons a as ih =>
    rw [Channel.execs] at hs
    split at hs
    · next s1 he => exact ih (h.step a he) hs
    · cases hs

end Plan9Port.Channel
