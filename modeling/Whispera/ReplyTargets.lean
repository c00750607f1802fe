import Whispera.Dialing
import Whispera.Lib.Table
import Whispera.Lib.Transition

/-! `RegisterTarget` and `deliver` in `core/protocol/quic/datagram.go`, and the UDP associations of
`core/socks5/module.go`. A step is what is done under the lock of the client. -/

namespace Whispera
open Net

def replyChanSize : Nat := 64

structure ReplyTarget where
  host : List Char
  port : UInt16
  deriving DecidableEq, Repr

def ReplyTarget.key (t : ReplyTarget) : List Char := joinHostPort t.host (Text.itoa t.port.toNat)

/-- A channel of `RegisterTarget`, whether its `unregister` has run, and how often it was closed. -/
structure ReplyChan where
  target : ReplyTarget
  buffer : List Bytes := []
  once : Bool := false
  closes : Nat := 0
  deriving DecidableEq, Repr

/-- The `targets` by their keys, all channels ever made, the `rtTargets` of the relays, the channels offered a
    payload, in order, and whether one of them was closed. -/
structure ReplyTargets where
  targets : Table.Map (List Char) Nat := ∅
  chans : List ReplyChan := []
  relays : List (Table.Map ReplyTarget Nat) := []
  offers : List (Nat × Bytes) := []
  sentOnClosed : Bool := false

namespace ReplyTargets

/-- `RegisterTarget`. The channel goes by its number. -/
def registerTarget (s : ReplyTargets) (t : ReplyTarget) : ReplyTargets :=
  { s with targets := s.targets.insert t.key s.chans.length, chans := s.chans ++ [{ target := t }] }

def unregister (s : ReplyTargets) (k : Nat) (ch : ReplyChan) : ReplyTargets :=
  if ch.once then s
  else if s.targets.lookup ch.target.key = some k then
    { s with
      targets := s.targets.erase ch.target.key
      chans := s.chans.set k { ch with once := true, closes := ch.closes + 1 } }
  else { s with chans := s.chans.set k { ch with once := true } }

/-- The `select` of `deliver`, on a channel. A send on a closed channel panics. -/
def offer (s : ReplyTargets) (k : Nat) (ch : ReplyChan) (data : Bytes) : ReplyTargets :=
  { s with
    offers := s.offers ++ [(k, data)]
    sentOnClosed := s.sentOnClosed || 0 < ch.closes
    chans := if ch.buffer.length < replyChanSize then s.chans.set k { ch with buffer := ch.buffer ++ [data] }
    else s.chans }

def deliver (s : ReplyTargets) (payload : Bytes) : ReplyTargets :=
  match decodeAddr payload with
  | none => s
  | some (host, port, data) =>
    match (s.targets.lookup (ReplyTarget.key ⟨host, port⟩)).bind fun k => (s.chans[k]?).map (k, ·) with
    | none => s
    | some (k, ch) => s.offer k ch data

/-- `unregister` is called when an association leaves the lane or, without forgetting the target, when it
    ends. -/
inductive Act
  | relay
  | openTarget (r : Nat) (t : ReplyTarget)
  | unregister (r : Nat) (t : ReplyTarget) (forget : Bool)
  | deliver (payload : Bytes)
  | receive (k : Nat)
  deriving DecidableEq, Repr

def step (s : ReplyTargets) : Act → Option ReplyTargets
  | .relay => some { s with relays := s.relays ++ [∅] }
  | .openTarget r t =>
    (s.relays[r]?).map fun rtTargets =>
      if (rtTargets.lookup t).isSome then s
      else { s.registerTarget t with relays := s.relays.set r (rtTargets.insert t s.chans.length) }
  | .unregister r t forget =>
    (s.relays[r]?).bind fun rtTargets => (rtTargets.lookup t).bind fun k => (s.chans[k]?).map fun ch =>
      { s.unregister k ch with
        relays := if forget then s.relays.set r (rtTargets.erase t) else s.relays }
  | .deliver payload => some (s.deliver payload)
  | .receive k =>
    (s.chans[k]?).bind fun ch =>
      match ch.buffer with
      | [] => none
      | _ :: buffer => some { s with chans := s.chans.set k { ch with buffer := buffer } }

end ReplyTargets

end Whispera
