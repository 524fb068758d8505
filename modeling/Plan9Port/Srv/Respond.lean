import Plan9Port.Srv.Intmap

/-!
# Responding to requests

The requests of lib9p, from when they are read until they are answered: `getreq`, `sflush`,
`rflush` and `respond`. One process reads. A request that is not a flush is given to its handler,
and any process may respond to it at any time, once.

A request is a number. A call of `respond` is at a point between two operations on locks; what is
between them is one step. `respond` is called for one request only once, so the request has the
point at which its call is. A call that is made by the call for another request is part of the same
process.

Messages that are not written because they do not fit, and the buffers that `Tversion` allocates,
do not matter here.
-/

namespace Plan9Port.Srv

open Function (update)

/-- What matters of the type of a message. -/
inductive Kind where
  | version
  | flush (oldtag : Nat)
  | other
  deriving DecidableEq, Repr

/-- Where a request is. -/
inductive Pc where
  /-- the handler has it -/
  | handler
  /-- in `sflush` -/
  | sflush
  /-- at the beginning of `respond` -/
  | enter
  /-- before `qlock(&or->lk)` in `rflush` -/
  | rflush (oldreq : Nat)
  /-- in the `flush` array of a request -/
  | delayed
  /-- before `qlock(&srv->wlock)` -/
  | wlock
  /-- before it is removed from the pool -/
  | remove
  /-- before `qlock(&r->lk)`, where `responded` is set -/
  | mark
  /-- before the reply is written -/
  | write
  /-- before `qlock(&r->lk)` at the label `free` -/
  | free
  /-- in the loop over the flushes -/
  | flush (i : Nat)
  /-- in the call of `respond` for a flush -/
  | calling (i : Nat)
  /-- the call has returned -/
  | done
  deriving DecidableEq, Repr

/-- Who has called `respond`. -/
inductive Caller (π : Type) where
  | proc (p : π)
  | req (r : Nat)
  deriving DecidableEq, Repr

/-- A request. -/
structure Req (π : Type) where
  tag : Nat
  kind : Kind
  /-- not a fake -/
  pool : Bool
  oldreq : Option Nat
  responded : Bool
  flush : List Nat
  /-- if `respond` was called with an error -/
  error : Bool
  caller : Caller π
  pc : Pc

/-- What happens on the connection. -/
inductive Event where
  | read (r : Nat)
  | write (r : Nat)
  deriving DecidableEq, Repr

/-- An assertion has failed. -/
inductive Abort where
  | assert
  deriving DecidableEq, Repr

/-- The server. -/
structure Sys (π : Type) where
  rpool : Intmap Nat
  /-- the number of requests so far -/
  nreq : Nat
  req : Nat → Req π
  /-- the request of which the call has `srv->wlock` -/
  wlock : Option Nat
  /-- `r->lk` is locked -/
  lk : Nat → Bool
  /-- the first call that a process is in -/
  calls : π → Option Nat
  log : List Event

variable {π : Type}

/-- No request was read. -/
def init (req : Nat → Req π) : Sys π where
  rpool := .allocmap
  nreq := 0
  req := req
  wlock := none
  lk _ := false
  calls _ := none
  log := []

namespace Sys

/-- The call for `r` is at `pc`. -/
def goto (s : Sys π) (r : Nat) (pc : Pc) : Sys π :=
  { s with req := update s.req r { s.req r with pc := pc } }

variable [DecidableEq π]

/-- The call for `r` returns. -/
def return_ (s : Sys π) (r : Nat) : Sys π :=
  match (s.req r).caller with
  | .proc p => { s with calls := update s.calls p none }
  | .req q =>
    match (s.req q).pc with
    | .calling i => s.goto q (.flush (i + 1))
    | _ => s

variable (reader : π)

/-- `getreq`, and the call of `respond` for a duplicate tag. -/
def read (s : Sys π) (tag : Nat) (kind : Kind) : Sys π :=
  let r := s.nreq
  let s : Sys π := { s with nreq := s.nreq + 1, log := s.log ++ [.read r] }
  let req := Req.mk tag kind true none false [] false (.proc reader) .handler
  match s.rpool.caninsertkey tag r with
  | none =>
    { s with
      req := update s.req r { req with pool := false, error := true, pc := .enter }
      calls := update s.calls reader (some r) }
  | some rpool =>
    match kind with
    | .flush _ =>
      { s with
        rpool := rpool
        req := update s.req r { req with pc := .sflush }
        calls := update s.calls reader (some r) }
    | _ => { s with rpool := rpool, req := update s.req r req }

/-- `sflush`; `handler` says if there is `srv->flush`. -/
def sflush (s : Sys π) (handler : Bool) (r oldtag : Nat) : Sys π :=
  let oldreq := s.rpool.lookupkey oldtag
  let req := { s.req r with oldreq := oldreq }
  if oldreq = none ∨ oldreq = some r ∨ !handler then
    { s with req := update s.req r { req with pc := .enter } }
  else
    { s with
      req := update s.req r { req with pc := .handler }
      calls := update s.calls reader none }

/-- A handler calls `respond`. -/
def respond (s : Sys π) (p : π) (r : Nat) (error : Bool) : Sys π :=
  { s with
    req := update s.req r { s.req r with error := error, caller := .proc p, pc := .enter }
    calls := update s.calls p (some r) }

/-- `rflush`, after `qlock(&or->lk)`. -/
def rflush (s : Sys π) (r or : Nat) : Sys π :=
  if !(s.req or).responded then
    let s := { s with req := update s.req or { s.req or with flush := (s.req or).flush ++ [r] } }
    (s.goto r .delayed).return_ r
  else { s with req := update s.req r { s.req r with oldreq := none, pc := .wlock } }

/-- The next step of the call for `r`, unless it has to wait. -/
def go (s : Sys π) (handler : Bool) (r : Nat) : Option (Except Abort (Sys π)) :=
  match (s.req r).pc with
  | .sflush =>
    match (s.req r).kind with
    | .flush oldtag => some (.ok (s.sflush reader handler r oldtag))
    | _ => none
  | .enter =>
    if (s.req r).responded then
      if (s.req r).pool then some (.ok (s.goto r .free)) else some (.error .assert)
    else if (s.req r).kind ≠ .other ∧ (s.req r).error then some (.error .assert)
    else
      match (s.req r).oldreq with
      | none => some (.ok (s.goto r .wlock))
      | some or => some (.ok (s.goto r (.rflush or)))
  | .rflush or => if s.lk or then none else some (.ok (s.rflush r or))
  | .wlock =>
    if s.wlock.isSome then none else some (.ok { s.goto r .remove with wlock := some r })
  | .remove =>
    let rpool := if (s.req r).pool then s.rpool.deletekey (s.req r).tag else s.rpool
    some (.ok { s.goto r .mark with rpool := rpool })
  | .mark =>
    if s.lk r then none
    else
      some (.ok { s with req := update s.req r { s.req r with responded := true, pc := .write } })
  | .write => some (.ok { s.goto r .free with log := s.log ++ [.write r], wlock := none })
  | .free =>
    if s.lk r then none else some (.ok { s.goto r (.flush 0) with lk := update s.lk r true })
  | .flush i =>
    match (s.req r).flush[i]? with
    | some f =>
      let s := s.goto r (.calling i)
      some <| .ok
        { s with
          req := update s.req f
            { s.req f with oldreq := none, error := false, caller := .req r, pc := .enter } }
    | none =>
      let s := { s with
        req := update s.req r { s.req r with flush := [], pc := .done }
        lk := update s.lk r false }
      some (.ok (s.return_ r))
  | _ => none

end Sys

/-- Steps of the processes. -/
inductive Act (π : Type) where
  | read (tag : Nat) (kind : Kind)
  | respond (p : π) (r : Nat) (error : Bool)
  | go (r : Nat)

variable [DecidableEq π] (reader : π) (handler : Bool)

/-- A step, unless it is not possible. -/
def exec (s : Sys π) : Act π → Option (Except Abort (Sys π))
  | .read tag kind => if s.calls reader = none then some (.ok (s.read reader tag kind)) else none
  | .respond p r error =>
    if s.calls p = none ∧ r < s.nreq ∧ (s.req r).pc = .handler then
      some (.ok (s.respond p r error))
    else none
  | .go r => if r < s.nreq then s.go reader handler r else none

/-- The states that the server can reach. -/
inductive Reachable : Sys π → Prop
  | init (req : Nat → Req π) : Reachable (init req)
  | step {s s' : Sys π} (a : Act π) :
      Reachable s → exec reader handler s a = some (.ok s') → Reachable s'

/-- Some steps in a row. -/
def execs (s : Sys π) : List (Act π) → Option (Sys π)
  | [] => some s
  | a :: as =>
    match exec reader handler s a with
    | some (.ok s') => execs s' as
    | _ => none

theorem Reachable.execs {s s' : Sys π} (h : Reachable reader handler s) {as : List (Act π)}
    (hs : execs reader handler s as = some s') : Reachable reader handler s' := by
  induction as generalizing s with
  | nil =>
    cases hs
    exact h
  | cons a as ih =>
    rw [Srv.execs] at hs
    split at hs
    · next s1 he => exact ih (h.step a he) hs
    · cases hs

end Plan9Port.Srv
