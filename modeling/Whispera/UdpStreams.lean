import Whispera.DatagramLane
import Whispera.Lib.Table
import Whispera.Lib.Transition

/-! `udpRelay` of `core/socks5/module.go` with its streams. `DatagramLane` has of these only the targets. -/

namespace Whispera

/-- A stream that the relay opened, whether it was closed, and whether its reply pump is running. -/
structure UdpStream where
  key : TargetKey
  closed : Bool := false
  pumping : Bool := true
  deriving DecidableEq, Repr

inductive DropPc
  | dropping
  | closing
  | done
  deriving DecidableEq, Repr

structure UdpDrop where
  key : TargetKey
  stream : Nat
  pc : DropPc := .dropping
  deriving DecidableEq, Repr

/-- Where a call of `forward` stands. What it sends as a datagram is not of the streams. -/
inductive UdpForwardPc
  | start
  | read (stream : Option Nat) (viaRT : Bool) (lane : Option Nat)
  | locked
  | send (stream : Nat)
  | done
  deriving DecidableEq, Repr

structure UdpForward where
  key : TargetKey
  tunnel : Bool
  pc : UdpForwardPc := .start
  deriving DecidableEq, Repr

/-- The maps of the relay and its lane; all streams ever opened; the calls; and whether `closeAll` has run. -/
structure UdpStreams where
  streams : Table.Map TargetKey Nat := ∅
  rtTargets : List TargetKey := []
  lane : Option Nat := none
  opened : List UdpStream := []
  calls : List UdpForward := []
  drops : List UdpDrop := []
  ended : Bool := false

namespace UdpStreams

/-- `switchLane`, when `DatagramClient` returns `lane`. -/
def switchLane (s : UdpStreams) (tunnel : Bool) (lane : Option Nat) : UdpStreams :=
  if tunnel = false ∨ lane = s.lane then s else { s with rtTargets := [], lane := lane }

/-- `openTarget`, and where the call goes on. `connected` is the answer of `IsConnected`. -/
def openTarget (s : UdpStreams) (key : TargetKey) (tunnel connected ok : Bool) : UdpStreams × UdpForwardPc :=
  match s.streams.lookup key with
  | some k => (s, .send k)
  | none =>
    if s.rtTargets.contains key then (s, .done)
    else if tunnel = false ∨ connected = false then (s, .done)
    else if s.lane ≠ none then ({ s with rtTargets := key :: s.rtTargets }, .done)
    else if ok then
      ({ s with streams := s.streams.insert key s.opened.length, opened := s.opened ++ [{ key := key }] },
       .send s.opened.length)
    else (s, .done)

/-- Where a call of `forward` goes on when it has asked for the lane. -/
def afterRead (sameLane : Bool) (stream : Option Nat) (viaRT : Bool) : UdpForwardPc :=
  match sameLane, stream with
  | false, _ => .locked
  | true, some k => .send k
  | true, none => if viaRT then .done else .locked

/-- What a call of `forward` does next. `ok` is whether a stream can be opened, or whether a write to it
    works. -/
def stepForward (s : UdpStreams) (call : UdpForward) (lane : Option Nat) (connected ok : Bool) :
    Option (UdpStreams × UdpForwardPc) :=
  match call.pc with
  | .start => some (s, .read (s.streams.lookup call.key) (s.rtTargets.contains call.key) s.lane)
  | .read stream viaRT seen => some (s, afterRead (decide (call.tunnel = true → lane = seen)) stream viaRT)
  | .locked => some ((s.switchLane call.tunnel lane).openTarget call.key call.tunnel connected ok)
  | .send k =>
    if ok then some (s, .done) else some ({ s with drops := s.drops ++ [{ key := call.key, stream := k }] }, .done)
  | .done => none

def stepDrop (s : UdpStreams) (j : Nat) (d : UdpDrop) : Option UdpStreams :=
  match d.pc with
  | .dropping => some { s with streams := s.streams.erase d.key, drops := s.drops.set j { d with pc := .closing } }
  | .closing =>
    some { s with
      opened := s.opened.modify d.stream fun st => { st with closed := true }
      drops := s.drops.set j { d with pc := .done } }
  | .done => none

def closeAll (s : UdpStreams) : UdpStreams :=
  { s with
    opened := s.opened.mapIdx fun k st => if s.streams.entries.any (·.2 = k) then { st with closed := true } else st
    ended := true }

/-- The loop that calls `forward` ends with `closeAll`. -/
inductive Act
  | forward (key : TargetKey) (tunnel : Bool)
  | go (i : Nat) (lane : Option Nat) (connected ok : Bool)
  | pumpEnds (k : Nat)
  | drop (j : Nat)
  | closeAll
  deriving DecidableEq, Repr

def step (s : UdpStreams) : Act → Option UdpStreams
  | .forward key tunnel => if s.ended then none else some { s with calls := s.calls ++ [{ key, tunnel }] }
  | .go i lane connected ok =>
    (s.calls[i]?).bind fun call => (s.stepForward call lane connected ok).map fun r =>
      { r.1 with calls := r.1.calls.set i { call with pc := r.2 } }
  | .pumpEnds k =>
    (s.opened[k]?).bind fun st =>
      if st.pumping = false then none
      else some { s with
        opened := s.opened.set k { st with pumping := false }
        drops := s.drops ++ [{ key := st.key, stream := k }] }
  | .drop j => (s.drops[j]?).bind fun d => s.stepDrop j d
  | .closeAll => if s.ended = false ∧ ∀ call ∈ s.calls, call.pc = .done then some s.closeAll else none

end UdpStreams

end Whispera
