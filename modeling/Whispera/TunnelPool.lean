import Mathlib.Logic.Function.Basic
import Whispera.Lib.Transition

/-! `tunnelPool.revive` of `app/client/pool.go`. Any number of calls run at the same time, and the clock goes
on meanwhile. -/

namespace Whispera

/-- Durations, in nanoseconds. -/
def reviveMinInterval : Int64 := 3000000000
def reviveBackoffStep : Int64 := 2000000000
def reviveBackoffMax : Int64 := 10000000000

/-- Where a call of `revive` is: it has not begun; it waits for the channel of another call; it is in the
    loop, with the transports left and whether it restarted one; it is at `endRevive`, or at the `close` in
    it; it has returned. -/
inductive RevivePc
  | start
  | waiting (owner : Nat)
  | running (left : Nat) (attempted : Bool)
  | ending (ok counted : Bool)
  | closing
  | returned
  deriving DecidableEq, Repr

/-- A channel goes by the number of the call that made it. Times that were not set yet are `none`. -/
structure TunnelPool where
  fails : Int64 := 0
  lastFail : Option Nat := none
  lastRevive : Option Nat := none
  inflight : Option Nat := none
  closed : Nat → Bool := fun _ => false
  calls : Nat → RevivePc := fun _ => .start
  clock : Nat

/-- What the loop finds at a transport: whether it is enabled and connected, what `restart` returned, and
    whether the transport is connected after that. -/
structure EntryOutcome where
  enabled : Bool
  connected : Bool
  restarted : Bool
  live : Bool
  deriving DecidableEq, Repr

namespace TunnelPool

/-- `time.Since`, which for a time that was not set is the longest duration. -/
def since (p : TunnelPool) : Option Nat → Int
  | none => Int64.maxValue.toInt
  | some t => p.clock - t

def reviveAllowed (p : TunnelPool) : Bool :=
  if p.since p.lastRevive < reviveMinInterval.toInt then false
  else if p.fails = 0 then true
  else
    let backoff := p.fails * reviveBackoffStep
    let backoff := if backoff > reviveBackoffMax then reviveBackoffMax else backoff
    p.since p.lastFail ≥ backoff.toInt

/-- `beginRevive` by the call `i`, and where it goes on; `n` is the number of transports. -/
def beginRevive (p : TunnelPool) (i n : Nat) : TunnelPool × RevivePc :=
  match p.inflight with
  | some owner => (p, .waiting owner)
  | none => if p.reviveAllowed then ({ p with inflight := some i }, .running n false) else (p, .returned)

/-- One round of the loop. -/
def reviveEntry (left : Nat) (attempted : Bool) (e : EntryOutcome) : RevivePc :=
  if e.enabled = false then .running left attempted
  else if e.connected then .ending true attempted
  else if e.restarted = false then .running left attempted
  else if e.live then .ending true true
  else .running left true

/-- `endRevive` up to where it leaves the lock. -/
def endRevive (p : TunnelPool) (ok counted : Bool) : TunnelPool :=
  let p : TunnelPool := { p with inflight := none }
  if counted = false then p
  else
    let p : TunnelPool := { p with lastRevive := some p.clock }
    if ok then { p with fails := 0 } else { p with fails := p.fails + 1, lastFail := p.lastRevive }

/-- In `next` a call leaves the loop after the last transport, closes its channel, or finds the one it waits
    for closed. -/
inductive Act
  | begin (i n : Nat)
  | entry (i : Nat) (e : EntryOutcome)
  | endRevive (i : Nat)
  | next (i : Nat)
  | cancel (i : Nat)
  | tick (d : Nat)
  deriving DecidableEq, Repr

def setPc (p : TunnelPool) (i : Nat) (pc : RevivePc) : TunnelPool := { p with calls := Function.update p.calls i pc }

/-- The clock shows the nanoseconds since the start of the process, in 64 bits with a sign. -/
def step (p : TunnelPool) : Act → Option TunnelPool
  | .begin i n =>
    match p.calls i with
    | .start => some ((p.beginRevive i n).1.setPc i (p.beginRevive i n).2)
    | _ => none
  | .entry i e =>
    match p.calls i with
    | .running (left + 1) attempted => some (p.setPc i (reviveEntry left attempted e))
    | _ => none
  | .endRevive i =>
    match p.calls i with
    | .ending ok counted => some ((p.endRevive ok counted).setPc i .closing)
    | _ => none
  | .next i =>
    match p.calls i with
    | .running 0 attempted => some (p.setPc i (.ending false attempted))
    | .closing => some { p.setPc i .returned with closed := Function.update p.closed i true }
    | .waiting owner => if p.closed owner then some (p.setPc i .returned) else none
    | _ => none
  | .cancel i =>
    match p.calls i with
    | .waiting _ => some (p.setPc i .returned)
    | _ => none
  | .tick d => if p.clock + d < 9223372036854775808 then some { p with clock := p.clock + d } else none

end TunnelPool

end Whispera
