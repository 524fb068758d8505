import Mathlib.Data.List.Basic
import Mathlib.Tactic.Ring

/-!
# Multiplexing RPCs

`libmux/mux.c` sends the requests of any number of threads over one connection. Any caller that
waits for its reply may read the replies of all, as the muxer. The role is handed on by
`electmuxer`, and requests that were started without waiting (`muxrpcstart`) take it when they are
polled (`muxrpccanfinish`).

All the fields of a `Mux` and of its `Muxrpc`s are used with `mux->lk` held, so that a step of a
thread is what it does from one `qlock` to the next `qunlock` or `rsleep`, or something outside of
the lock: it sends, or it receives. What a thread does next is the `place` of its `Muxrpc`.

Sending always works here, and so does allocating. `settag` and `gettag` are inverse, and a response
carries the tag of its request. Receiving gives the responses in any order, and nothing more after
the first end of file.
-/

namespace Plan9Port.Mux

/-- A `Muxrpc*`. The address of one that was freed may be used again. -/
abbrev RpcId := Nat

/-- A response: the tag that it carries, and the request that it answers. -/
structure Packet where
  tag : UInt32
  req : Nat
  deriving DecidableEq, Repr

/-- What the thread of a `Muxrpc` does next. -/
inductive Place where
  /-- looks for a free tag in `gettag`, or looks again -/
  | tagging
  /-- sleeps in `gettag` -/
  | tagAsleep
  /-- has a tag and is going to send -/
  | sending
  /-- is in `muxrpc`, going to look whether to wait, receive or return -/
  | waiting
  /-- sleeps in `muxrpc` -/
  | asleep
  /-- is in `_muxrecv` -/
  | receiving
  /-- is back from `_muxrecv`, with its result -/
  | holding (ret : Bool) (p : Option Packet)
  /-- has the lock, as the muxer -/
  | running
  /-- has the lock, and gives up -/
  | leaving
  /-- is not in any call, between `muxrpcstart` and `muxrpccanfinish` -/
  | idle
  deriving DecidableEq, Repr

/-- A `Muxrpc`. Its request `tx` is a number here. -/
structure Rpc where
  tx : Nat
  async : Bool
  tag : UInt32
  p : Option Packet
  place : Place
  deriving DecidableEq, Repr

/-- What a call of `muxrpc` or `muxrpccanfinish` has returned: `ret` is 1 for `muxrpc`. -/
structure Return where
  req : Nat
  tag : UInt32
  ret : Bool
  p : Option Packet
  deriving DecidableEq, Repr

/-- The `Mux`, its requests, and the connection. -/
structure Sys where
  mintag : UInt32
  maxtag : UInt32
  nwait : Nat
  mwait : Nat
  freetag : Nat
  wait : List (Option RpcId)
  muxer : Option RpcId
  /-- the list `sleep`; a `Muxrpc` that is not on it has no `prev` -/
  sleep : List RpcId
  /-- who sleeps in `gettag`, the first one first -/
  tagrend : List RpcId
  rpcs : RpcId → Option Rpc
  /-- what will be received, unless the connection is closed before -/
  net : List Packet
  hungup : Bool
  /-- the number of requests so far -/
  next : Nat
  /-- everything that was received -/
  received : List Packet
  /-- everything that was returned -/
  returned : List Return

/-- Why the program dies: a call of `abort`, a failed `assert`, or a pointer that is nil. -/
inductive Abort where
  | abort
  | assert
  | nil
  deriving DecidableEq, Repr

/-- Nothing was sent. -/
def muxinit (mintag maxtag : UInt32) : Sys where
  mintag
  maxtag
  nwait := 0
  mwait := 0
  freetag := 0
  wait := []
  muxer := none
  sleep := []
  tagrend := []
  rpcs := fun _ => none
  net := []
  hungup := false
  next := 0
  received := []
  returned := []

namespace Sys

/-- The record of a request is replaced. -/
def put (s : Sys) (r : RpcId) (y : Option Rpc) : Sys :=
  { s with rpcs := fun r' => if r' = r then y else s.rpcs r' }

/-- It is changed. -/
def modify (s : Sys) (r : RpcId) (f : Rpc → Rpc) : Sys := s.put r ((s.rpcs r).map f)

/-- A request goes on elsewhere. -/
def goto (s : Sys) (r : RpcId) (place : Place) : Sys := s.modify r fun x => { x with place }

/-- `rwakeup(&r->r)`, where only the thread of `r` sleeps. -/
def rwakeup (s : Sys) (r : RpcId) : Sys :=
  s.modify r fun x => if x.place = .asleep then { x with place := .waiting } else x

/-- A request sleeps. -/
def enqueue (s : Sys) (r : RpcId) : Sys := { s with sleep := r :: s.sleep }

/-- It is taken off the list. -/
def dequeue (s : Sys) (r : RpcId) : Except Abort Sys :=
  if r ∈ s.sleep then .ok { s with sleep := s.sleep.erase r } else .error .nil

/-! ## Tags -/

/-- The new size of `wait` in `gettag`. -/
def grown (s : Sys) : Nat := if s.mwait = 0 then 1 else s.mwait <<< 1

/-- `wait` is made larger. -/
def grow (s : Sys) : Sys :=
  { s with
    wait := s.wait ++ List.replicate (s.grown - s.mwait) none
    freetag := s.mwait
    mwait := s.grown }

/-- The loops of `gettag` that look for a free tag. -/
def freeslot (s : Sys) : Option Nat :=
  (List.range' s.freetag (s.mwait - s.freetag) ++ List.range s.freetag).find?
    fun i => s.wait[i]? = some none

/-- The end of `gettag`, and `enqueue`. -/
def found (s : Sys) (r : RpcId) : Except Abort Sys :=
  match s.freeslot with
  | none => .error .abort
  | some i =>
    let s := { s with nwait := s.nwait + 1, wait := s.wait.set i (some r) }
    let s := s.modify r fun x => { x with tag := .ofNat i + s.mintag, place := .sending }
    .ok (s.enqueue r)

/-- `tagmuxrpc` up to where it releases the lock, or sleeps in `gettag`. There is no result if
`realloc` fails, as it does at the latest when `mw` is negative. -/
def tagmuxrpc (s : Sys) (r : RpcId) : Option (Except Abort Sys) :=
  if s.nwait = s.mwait then
    if s.mwait < (s.maxtag - s.mintag).toNat then
      if s.grown < 2 ^ 31 then some (s.grow.found r) else none
    else some (.ok { s.goto r .tagAsleep with tagrend := s.tagrend ++ [r] })
  else some (s.found r)

/-- `rwakeup(&mux->tagrend)`. -/
def tagwakeup (s : Sys) : Sys :=
  match s.tagrend with
  | [] => s
  | r :: rs => { s.goto r .tagging with tagrend := rs }

/-- A tag is given back. -/
def puttag (s : Sys) (r : RpcId) (x : Rpc) : Except Abort Sys :=
  let i := (x.tag - s.mintag).toNat
  if s.wait[i]? = some (some r) then
    let s := { s with wait := s.wait.set i none, nwait := s.nwait - 1, freetag := i }
    .ok (s.tagwakeup.put r none)
  else .error .assert

/-! ## Replies -/

/-- A packet is handed to the request that waits for it. -/
def muxmsgandqlock (s : Sys) (p : Packet) : Except Abort Sys :=
  let tag := p.tag - s.mintag
  -- bad rpc tag
  if tag.toInt32 < 0 ∨ s.mwait ≤ tag.toNat then .ok s
  else
    match (s.wait[tag.toNat]?).join with
    -- no one waiting on that tag
    | none => .ok s
    | some r₂ =>
      if r₂ ∉ s.sleep then .ok s
      else do
        let s := s.modify r₂ fun x => { x with p := some p }
        let s ← s.dequeue r₂
        return s.rwakeup r₂

/-- A request that sleeps becomes the muxer. -/
def electmuxer (s : Sys) : Sys :=
  match s.sleep.find? fun r => (s.rpcs r).any (!·.async) with
  | some r => { s with muxer := some r }.rwakeup r
  | none => { s with muxer := none }

/-- The call for `r` returns, and `r` with its tag is gone. -/
def finish (s : Sys) (r : RpcId) (x : Rpc) : Except Abort Sys := do
  let s ← s.puttag r x
  return { s with returned := ⟨x.tx, x.tag, true, x.p⟩ :: s.returned }

/-- `muxrpc` from where it takes the lock after sending, or after sleeping. -/
def muxrpc (s : Sys) (r : RpcId) (x : Rpc) : Except Abort Sys :=
  if s.muxer ≠ none ∧ s.muxer ≠ some r ∧ x.p = none then .ok (s.goto r .asleep)
  else if x.p = none then
    if s.muxer ≠ none ∧ s.muxer ≠ some r then .error .abort
    else .ok ({ s with muxer := some r }.goto r .receiving)
  else s.finish r x

/-- The end of `muxrpccanfinish`. -/
def pollend (s : Sys) (r : RpcId) (x : Rpc) (ret : Bool) : Except Abort Sys :=
  if x.p ≠ none then s.finish r x
  else .ok { s.goto r .idle with returned := ⟨x.tx, x.tag, ret, none⟩ :: s.returned }

/-- `muxrpccanfinish` from its beginning. -/
def muxrpccanfinish (s : Sys) (r : RpcId) (x : Rpc) : Except Abort Sys :=
  if x.p = none ∧ s.muxer = none then .ok ({ s with muxer := some r }.goto r .receiving)
  else s.pollend r x true

/-- The loop of a muxer, from where it takes the lock with a packet that it has received. -/
def handon (s : Sys) (r : RpcId) (p : Packet) : Except Abort Sys := do
  let s ← (s.goto r .running).muxmsgandqlock p
  match s.rpcs r with
  | none => .error .nil
  | some x => if x.p = none then return s.goto r .receiving else s.electmuxer.finish r x

/-- What a muxer does when there is nothing to receive: `muxrpc` gives up, and `muxrpccanfinish`
returns. -/
def nothing (s : Sys) (r : RpcId) (x : Rpc) (ret : Bool) : Except Abort Sys :=
  if x.async then (s.goto r .running).electmuxer.pollend r x ret
  else do
    let s ← (s.goto r .leaving).dequeue r
    s.electmuxer.finish r x

end Sys

/-! ## Steps -/

/-- A caller begins, or a request goes on. -/
inductive Act where
  /-- `muxrpc` or `muxrpcstart` is called -/
  | start (r : RpcId) (async : Bool)
  | tag (r : RpcId)
  | send (r : RpcId)
  | look (r : RpcId)
  | poll (r : RpcId)
  | recv (r : RpcId) (p : Packet)
  /-- nothing is received: `ret` is 0 if there may be something later -/
  | norecv (r : RpcId) (ret : Bool)
  | deliver (r : RpcId)
  /-- the connection is closed -/
  | hangup
  deriving DecidableEq, Repr

/-- A step, if it is possible. A tag that is negative as an `int` is not sent. -/
def exec (s : Sys) : Act → Option (Except Abort Sys)
  | .start r async =>
    if s.rpcs r = none then
      some (.ok { s.put r (some ⟨s.next, async, 0, none, .tagging⟩) with next := s.next + 1 })
    else none
  | .tag r => do
    let x ← s.rpcs r
    if x.place = .tagging then s.tagmuxrpc r else none
  | .send r => do
    let x ← s.rpcs r
    if x.place = .sending ∧ x.tag.toNat < 2 ^ 31 then
      some (.ok { s.goto r (if x.async then .idle else .waiting) with
        net := ⟨x.tag, x.tx⟩ :: s.net })
    else none
  | .look r => do
    let x ← s.rpcs r
    if x.place = .waiting then some (s.muxrpc r x) else none
  | .poll r => do
    let x ← s.rpcs r
    if x.place = .idle then some (s.muxrpccanfinish r x) else none
  | .recv r p => do
    let x ← s.rpcs r
    if x.place = .receiving ∧ s.hungup = false ∧ p ∈ s.net then
      some (.ok { s.goto r (.holding true (some p)) with
        net := s.net.erase p, received := p :: s.received })
    else none
  | .norecv r ret => do
    let x ← s.rpcs r
    -- muxrpc waits until there is something, or the end of file
    if x.place = .receiving ∧ (x.async = true ∨ s.hungup = true) then
      some (.ok (s.goto r (.holding ret none)))
    else none
  | .deliver r => do
    let x ← s.rpcs r
    match x.place with
    | .holding _ (some p) => some (s.handon r p)
    | .holding ret none => some (s.nothing r x ret)
    | _ => none
  | .hangup => some (.ok { s with hungup := true })

/-- The states that are reached from a new `Mux` by any interleaving. -/
inductive Reachable (mintag maxtag : UInt32) : Sys → Prop
  | init : Reachable mintag maxtag (muxinit mintag maxtag)
  | step {s s' : Sys} (a : Act) : Reachable mintag maxtag s → exec s a = some (.ok s') →
      Reachable mintag maxtag s'

/-- The steps one after the other. -/
def execs (s : Sys) : List Act → Option Sys
  | [] => some s
  | a :: as =>
    match exec s a with
    | some (.ok s) => execs s as
    | _ => none

theorem Reachable.execs {mintag maxtag : UInt32} {s s' : Sys} (h : Reachable mintag maxtag s)
    (as : List Act) (hrun : execs s as = some s') : Reachable mintag maxtag s' := by
  induction as generalizing s with
  | nil =>
    cases hrun
    exact h
  | cons a as ih =>
    rw [Mux.execs] at hrun
    split at hrun
    · next s1 hexec => exact ih (.step a h hexec) hrun
    · cases hrun

/-- A run that leads to a state as it is wanted. -/
theorem Reachable.exists_of_execs (mintag maxtag : UInt32) (as : List Act) (p : Sys → Prop)
    [DecidablePred p]
    (hrun : (Mux.execs (muxinit mintag maxtag) as).any (fun s => decide (p s)) = true) :
    ∃ s, Reachable mintag maxtag s ∧ p s := by
  rcases hs : Mux.execs (muxinit mintag maxtag) as with _ | s
  · rw [hs] at hrun
    cases hrun
  · rw [hs] at hrun
    exact ⟨s, Reachable.init.execs as hs, of_decide_eq_true hrun⟩

end Plan9Port.Mux
