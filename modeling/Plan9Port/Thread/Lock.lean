import Mathlib.Data.List.Nodup

/-!
# Sleeping locks

The locks of `libthread/thread.c`: `QLock`s, `RWLock`s and `Rendez`es. A thread that has to wait is
put on a list of the lock and switches to another thread; whoever unlocks takes it off the list,
hands the lock to it, and makes it ready.

What is done under the spin lock `l->l` is one step, and so is a call of `_threadready` outside of
it. Which of the ready threads runs next is left open, and the procs of the threads with it.
`singlethreaded` is left open, too: each step is told whether there is no other thread. The
program does not unlock what it does not hold, and it holds `r->l` when it calls `rsleep(r)` or
`rwakeup(r)`.
-/

namespace Plan9Port.Thread

/-- The lists on which threads wait: `waiting` of a `QLock`, `rwaiting` and `wwaiting` of an
`RWLock`, and `waiting` of a `Rendez`. -/
inductive Threadlist (κ ω ρ : Type) where
  | waiting (l : κ)
  | rwaiting (l : ω)
  | wwaiting (l : ω)
  | sleeping (r : ρ)
  deriving DecidableEq

/-- Who calls `qlock` or `qunlock`. -/
inductive Caller (ρ : Type) where
  | user
  | rsleep (r : ρ)
  deriving DecidableEq

/-- What a thread does next. -/
inductive Pc (θ κ ω ρ : Type) where
  /-- is not in any call -/
  | user
  /-- is in `_threadswitch`, called from `threadqlock` -/
  | qswitch (l : κ) (c : Caller ρ)
  /-- has unlocked and is going to call `_threadready(l->owner)` -/
  | qready (l : κ) (c : Caller ρ)
  /-- is in `_threadswitch`, called from `threadrlock` -/
  | rswitch (l : ω)
  /-- is in `_threadswitch`, called from `threadwlock` -/
  | wswitch (l : ω)
  /-- has unlocked and is going to call `_threadready(t)` -/
  | wready (t : θ)
  /-- is on the list of `r` and is going to unlock `r->l` -/
  | sleeping (r : ρ)
  /-- is in `_threadswitch`, called from `threadrsleep` -/
  | rendswitch (r : ρ)
  /-- was woken up and is going to lock `r->l` -/
  | relock (r : ρ)
  /-- is in the loop of `threadrwakeup` -/
  | waking (r : ρ) (all : Bool) (i : Nat)
  deriving DecidableEq

/-- What has happened. -/
inductive Event (θ κ ω ρ : Type) where
  /-- `addthread` -/
  | added (t : θ) (q : Threadlist κ ω ρ)
  /-- `delthread` -/
  | deleted (t : θ) (q : Threadlist κ ω ρ)
  /-- a call of `rwakeup` or `rwakeupall` -/
  | rwakeup (t : θ) (r : ρ)
  /-- `_threadswitch` returns in `threadrsleep` -/
  | resumed (t : θ) (r : ρ)
  /-- `threadrsleep` returns -/
  | rsleepReturned (t : θ) (r : ρ)
  /-- another function returns this -/
  | returned (t : θ) (n : Nat)
  deriving DecidableEq

/-- Why the program dies: one of the checks of the locks fails, an `assert` does, the thread to be
made ready is nil, or the only thread there is would have to wait. -/
inductive Abort where
  | oops
  | assert
  | nil
  | deadlock
  deriving DecidableEq, Repr

/-- The locks, the threads, and what has happened. -/
structure Sys (θ κ ω ρ : Type) where
  owner : κ → Option θ
  readers : ω → Int
  writer : ω → Option θ
  list : Threadlist κ ω ρ → List θ
  /-- the run queues of all procs -/
  runqueue : List θ
  pc : θ → Pc θ κ ω ρ
  /-- who holds a `QLock`: its `qlock` has returned -/
  qheld : κ → List θ
  /-- who holds an `RWLock` for reading, and how often -/
  rheld : ω → List θ
  /-- who holds an `RWLock` for writing -/
  wheld : ω → List θ
  log : List (Event θ κ ω ρ)

/-- All is zero, and no thread is in a call. -/
def init (θ κ ω ρ : Type) : Sys θ κ ω ρ where
  owner _ := none
  readers _ := 0
  writer _ := none
  list _ := []
  runqueue := []
  pc _ := .user
  qheld _ := []
  rheld _ := []
  wheld _ := []
  log := []

open Function (update)

variable {θ κ ω ρ : Type} [DecidableEq θ] [DecidableEq κ] [DecidableEq ω] [DecidableEq ρ]

/-! ## The steps -/

/-- Where a thread goes on after `qunlock`. -/
def Caller.next (θ κ ω : Type) : Caller ρ → Pc θ κ ω ρ
  | .user => .user
  | .rsleep r => .rendswitch r

namespace Sys

/-- A thread goes on elsewhere. -/
def goto (s : Sys θ κ ω ρ) (t : θ) (pc : Pc θ κ ω ρ) : Sys θ κ ω ρ :=
  { s with pc := update s.pc t pc }

/-- A thread is put at the end of a list. -/
def addthread (s : Sys θ κ ω ρ) (q : Threadlist κ ω ρ) (t : θ) : Sys θ κ ω ρ :=
  { s with list := update s.list q (s.list q ++ [t]), log := s.log ++ [.added t q] }

/-- A thread is taken off a list. -/
def delthread (s : Sys θ κ ω ρ) (q : Threadlist κ ω ρ) (t : θ) : Sys θ κ ω ρ :=
  { s with list := update s.list q ((s.list q).erase t), log := s.log ++ [.deleted t q] }

/-- A thread may run. -/
def _threadready (s : Sys θ κ ω ρ) (t : θ) : Sys θ κ ω ρ := { s with runqueue := s.runqueue ++ [t] }

/-- Something has happened. -/
def happens (s : Sys θ κ ω ρ) (e : Event θ κ ω ρ) : Sys θ κ ω ρ := { s with log := s.log ++ [e] }

/-- The thread has the `QLock`, and its call returns. -/
def qlocked (s : Sys θ κ ω ρ) (t : θ) (l : κ) (c : Caller ρ) : Sys θ κ ω ρ :=
  { s with
    qheld := update s.qheld l (t :: s.qheld l)
    pc := update s.pc t .user
    log := s.log ++ [match c with
      | .user => .returned t 1
      | .rsleep r => .rsleepReturned t r] }

/-- A `QLock` is locked, or waited for. -/
def threadqlock (s : Sys θ κ ω ρ) (t : θ) (l : κ) (block alone : Bool) (c : Caller ρ) :
    Except Abort (Sys θ κ ω ρ) :=
  if s.owner l = none then .ok ({ s with owner := update s.owner l (some t) }.qlocked t l c)
  else if !block then .ok (s.happens (.returned t 0))
  else if alone then .error .deadlock
  else .ok ((s.addthread (.waiting l) t).goto t (.qswitch l c))

/-- It is unlocked, and handed to the first that waits. -/
def threadqunlock (s : Sys θ κ ω ρ) (t : θ) (l : κ) (c : Caller ρ) :
    Except Abort (Sys θ κ ω ρ) :=
  if s.owner l = none then .error .oops
  else
    let s := { s with qheld := update s.qheld l ((s.qheld l).erase t) }
    match s.list (.waiting l) with
    | [] => .ok ({ s with owner := update s.owner l none }.goto t (c.next θ κ ω))
    | u :: _ =>
      .ok (({ s with owner := update s.owner l (some u) }.delthread (.waiting l) u).goto t
        (.qready l c))

/-- The thread has the `RWLock` for reading. -/
def rlocked (s : Sys θ κ ω ρ) (t : θ) (l : ω) : Sys θ κ ω ρ :=
  { s with
    rheld := update s.rheld l (t :: s.rheld l)
    pc := update s.pc t .user
    log := s.log ++ [.returned t 1] }

/-- An `RWLock` is locked for reading. -/
def threadrlock (s : Sys θ κ ω ρ) (t : θ) (l : ω) (block alone : Bool) :
    Except Abort (Sys θ κ ω ρ) :=
  if s.writer l = none ∧ s.list (.wwaiting l) = [] then
    .ok ({ s with readers := update s.readers l (s.readers l + 1) }.rlocked t l)
  else if !block then .ok (s.happens (.returned t 0))
  else if alone then .error .deadlock
  else .ok ((s.addthread (.rwaiting l) t).goto t (.rswitch l))

/-- The thread has the `RWLock` for writing. -/
def wlocked (s : Sys θ κ ω ρ) (t : θ) (l : ω) : Sys θ κ ω ρ :=
  { s with
    wheld := update s.wheld l (t :: s.wheld l)
    pc := update s.pc t .user
    log := s.log ++ [.returned t 1] }

/-- It is locked for writing. -/
def threadwlock (s : Sys θ κ ω ρ) (t : θ) (l : ω) (block alone : Bool) :
    Except Abort (Sys θ κ ω ρ) :=
  if s.writer l = none ∧ s.readers l = 0 then
    .ok ({ s with writer := update s.writer l (some t) }.wlocked t l)
  else if !block then .ok (s.happens (.returned t 0))
  else if alone then .error .deadlock
  else .ok ((s.addthread (.wwaiting l) t).goto t (.wswitch l))

/-- The end of `threadrunlock` and of `threadwunlock`: if there are no readers, the first writer
that waits gets the lock. -/
def handwriter (s : Sys θ κ ω ρ) (t : θ) (l : ω) : Sys θ κ ω ρ :=
  if s.readers l = 0 then
    match s.list (.wwaiting l) with
    | [] => s
    | u :: _ =>
      ({ s with writer := update s.writer l (some u) }.delthread (.wwaiting l) u).goto t (.wready u)
  else s

/-- A reader unlocks it. -/
def threadrunlock (s : Sys θ κ ω ρ) (t : θ) (l : ω) : Sys θ κ ω ρ :=
  { s with
    rheld := update s.rheld l ((s.rheld l).erase t)
    readers := update s.readers l (s.readers l - 1) }.handwriter t l

/-- The loop of `threadwunlock`, which lets the first `n` readers that wait have the lock. -/
def wakereaders (l : ω) : Nat → Sys θ κ ω ρ → Sys θ κ ω ρ
  | 0, s => s
  | n + 1, s =>
    match s.list (.rwaiting l) with
    | [] => s
    | u :: _ =>
      let s := s.delthread (.rwaiting l) u
      wakereaders l n ({ s with readers := update s.readers l (s.readers l + 1) }._threadready u)

/-- The writer unlocks it; all readers that wait get it. -/
def threadwunlock (s : Sys θ κ ω ρ) (t : θ) (l : ω) : Except Abort (Sys θ κ ω ρ) :=
  let s := { s with
    wheld := update s.wheld l ((s.wheld l).erase t)
    writer := update s.writer l none }
  if s.readers l ≠ 0 then .error .assert
  else .ok ((s.wakereaders l (s.list (.rwaiting l)).length).handwriter t l)

/-- A thread begins to sleep. -/
def threadrsleep (s : Sys θ κ ω ρ) (t : θ) (r : ρ) (alone : Bool) : Except Abort (Sys θ κ ω ρ) :=
  if alone then .error .deadlock
  else .ok ((s.addthread (.sleeping r) t).goto t (.sleeping r))

/-- One round of the loop of `threadrwakeup`. -/
def wakeup (s : Sys θ κ ω ρ) (t : θ) (r : ρ) (all : Bool) (i : Nat) : Sys θ κ ω ρ :=
  if i = 1 ∧ !all then (s.happens (.returned t i)).goto t .user
  else
    match s.list (.sleeping r) with
    | [] => (s.happens (.returned t i)).goto t .user
    | u :: _ => ((s.delthread (.sleeping r) u)._threadready u).goto t (.waking r all (i + 1))

/-- `_threadswitch` returns, if the thread was made ready. -/
def resume (s : Sys θ κ ω ρ) (t : θ) : Option (Sys θ κ ω ρ) :=
  if t ∈ s.runqueue then some { s with runqueue := s.runqueue.erase t } else none

end Sys

/-- A thread calls a function, or goes on. -/
inductive Act (θ κ ω ρ : Type) where
  | qlock (t : θ) (l : κ) (block alone : Bool)
  | qunlock (t : θ) (l : κ)
  | rlock (t : θ) (l : ω) (block alone : Bool)
  | runlock (t : θ) (l : ω)
  | wlock (t : θ) (l : ω) (block alone : Bool)
  | wunlock (t : θ) (l : ω)
  | rsleep (t : θ) (r : ρ) (alone : Bool)
  | rwakeup (t : θ) (r : ρ) (all : Bool)
  | go (t : θ) (alone : Bool)
  deriving DecidableEq

variable (lockOf : ρ → κ)

/-- A thread goes on with the call that it is in. -/
def goOn (s : Sys θ κ ω ρ) (t : θ) (alone : Bool) : Option (Except Abort (Sys θ κ ω ρ)) :=
  match s.pc t with
  | .user => none
  | .qswitch l c => (s.resume t).map fun s =>
    if s.owner l ≠ some t then .error .oops else .ok (s.qlocked t l c)
  | .qready l c => some <|
    match s.owner l with
    | none => .error .nil
    | some u => .ok ((s._threadready u).goto t (c.next θ κ ω))
  | .rswitch l => (s.resume t).map fun s => .ok (s.rlocked t l)
  | .wswitch l => (s.resume t).map fun s => .ok (s.wlocked t l)
  | .wready u => some (.ok ((s._threadready u).goto t .user))
  | .sleeping r => some (s.threadqunlock t (lockOf r) (.rsleep r))
  | .rendswitch r => (s.resume t).map fun s => .ok ((s.happens (.resumed t r)).goto t (.relock r))
  | .relock r => some (s.threadqlock t (lockOf r) true alone (.rsleep r))
  | .waking r all i => some (.ok (s.wakeup t r all i))

/-- A step, unless it is not possible or not allowed. -/
def exec (s : Sys θ κ ω ρ) : Act θ κ ω ρ → Option (Except Abort (Sys θ κ ω ρ))
  | .qlock t l block alone =>
    if s.pc t = .user then some (s.threadqlock t l block alone .user) else none
  | .qunlock t l =>
    if s.pc t = .user ∧ t ∈ s.qheld l then some (s.threadqunlock t l .user) else none
  | .rlock t l block alone =>
    if s.pc t = .user then some (s.threadrlock t l block alone) else none
  | .runlock t l =>
    if s.pc t = .user ∧ t ∈ s.rheld l then some (.ok (s.threadrunlock t l)) else none
  | .wlock t l block alone =>
    if s.pc t = .user then some (s.threadwlock t l block alone) else none
  | .wunlock t l =>
    if s.pc t = .user ∧ t ∈ s.wheld l then some (s.threadwunlock t l) else none
  | .rsleep t r alone =>
    if s.pc t = .user ∧ t ∈ s.qheld (lockOf r) then some (s.threadrsleep t r alone) else none
  | .rwakeup t r all =>
    if s.pc t = .user ∧ t ∈ s.qheld (lockOf r) then
      some (.ok ((s.happens (.rwakeup t r)).goto t (.waking r all 0)))
    else none
  | .go t alone => goOn lockOf s t alone

/-- The states that the threads can reach. -/
inductive Reachable : Sys θ κ ω ρ → Prop
  | init : Reachable (init θ κ ω ρ)
  | step {s s' : Sys θ κ ω ρ} (a : Act θ κ ω ρ) :
      Reachable s → exec lockOf s a = some (.ok s') → Reachable s'

/-- Some steps in a row. -/
def execs (s : Sys θ κ ω ρ) : List (Act θ κ ω ρ) → Option (Sys θ κ ω ρ)
  | [] => some s
  | a :: as =>
    match exec lockOf s a with
    | some (.ok s') => execs s' as
    | _ => none

theorem Reachable.execs {s s' : Sys θ κ ω ρ} (h : Reachable lockOf s) {as : List (Act θ κ ω ρ)}
    (hs : execs lockOf s as = some s') : Reachable lockOf s' := by
  induction as generalizing s with
  | nil =>
    cases hs
    exact h
  | cons a as ih =>
    rw [Thread.execs] at hs
    split at hs
    · next s1 he => exact ih (h.step a he) hs
    · cases hs

end Plan9Port.Thread
