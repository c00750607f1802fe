import Whispera.Tunnel

/-! `startDatagramLane`, `adoptDatagramConn` and `DatagramClient` in `core/tunnel/selector.go`,
`DialRTDatagrams` in `core/protocol/client.go`, `registerRTDatagrams` in `core/protocol/listener.go`, and
`udpRelay.forward` in `core/socks5/module.go`. A lane goes by the number of its QUIC connection. -/

namespace Whispera

/-- A QUIC connection to the server, and the status of the server's answer to the request on it. -/
structure LaneConn where
  up : Bool := true
  registered : Bool := false
  response : Option Nat := none
  deriving DecidableEq, Repr

/-- The goroutine is in `DialRTDatagrams`, with the connection dialled last, or back from it. -/
inductive LanePc
  | idle
  | registering (conn : Option Nat)
  | returned (conn : Option Nat)
  deriving DecidableEq, Repr

abbrev TargetKey : Type := String × UInt16

/-- What a `udpRelay` has: the targets with a stream and those registered with the lane, and the lane. -/
structure UdpRelay where
  streams : List TargetKey := []
  rtTargets : List TargetKey := []
  lane : Option Nat := none
  deriving DecidableEq, Repr

/-- A call has read of the relay, goes on under the lock, or sends a datagram. -/
inductive ForwardPc
  | start
  | read (viaStream viaRT : Bool) (lane : Option Nat)
  | locked
  | datagram (lane : Option Nat)
  | done
  deriving DecidableEq, Repr

structure ForwardCall where
  relay : Nat
  key : TargetKey
  tunnel : Bool
  pc : ForwardPc := .start
  deriving DecidableEq, Repr

/-- The lane, the connections ever dialled for it, the relays, what `DatagramClient` has returned and the
    lanes sent into, in order. -/
structure DatagramLane where
  quicGD : Option Nat := none
  dialing : Bool := false
  pc : LanePc := .idle
  conns : List LaneConn := []
  relays : List UdpRelay := []
  calls : List ForwardCall := []
  offered : List Nat := []
  sent : List Nat := []
  deriving DecidableEq, Repr

namespace DatagramLane

def setConn (s : DatagramLane) (c : Nat) (k : LaneConn) : DatagramLane := { s with conns := s.conns.set c k }
def setRelay (s : DatagramLane) (r : Nat) (relay : UdpRelay) : DatagramLane := { s with relays := s.relays.set r relay }

section
variable (cfg : TunnelConfig)

def startDatagramLane (s : DatagramLane) : DatagramLane :=
  if ¬cfg.HasLane ∨ s.quicGD ≠ none ∨ s.dialing = true then s
  else { s with dialing := true, pc := .registering none }

/-- `adoptDatagramConn`, for a connection that was dialled. The lane that was there before is closed. -/
def adoptDatagramConn (s : DatagramLane) : DatagramLane :=
  { s with
    conns := s.conns ++ [{}]
    quicGD := some s.conns.length
    pc := .registering (some s.conns.length) }

def clear (s : DatagramLane) (c : Nat) : DatagramLane :=
  { s with quicGD := if s.quicGD = some c then none else s.quicGD }

/-- `DatagramClient`, and the record of what it returns. -/
def datagramClient (s : DatagramLane) : Option Nat × DatagramLane :=
  let gd := if cfg.enableWhispera then s.quicGD else none
  (gd, { s with offered := s.offered ++ gd.toList })

def switchLane (s : DatagramLane) (r : Nat) (relay : UdpRelay) (tunnel : Bool) : UdpRelay × DatagramLane :=
  if tunnel = false then (relay, s)
  else
    match s.datagramClient cfg with
    | (lane, s) =>
      if lane = relay.lane then (relay, s)
      else
        let relay := { relay with rtTargets := [], lane := lane }
        (relay, s.setRelay r relay)

/-- `openTarget`, and where the call goes on. `connected` is the answer of `IsConnected`. -/
def openTarget (relay : UdpRelay) (key : TargetKey) (tunnel connected ok : Bool) : UdpRelay × ForwardPc :=
  if key ∈ relay.streams then (relay, .done)
  else if key ∈ relay.rtTargets then (relay, .datagram relay.lane)
  else if tunnel = false ∨ connected = false then (relay, .done)
  else if relay.lane ≠ none then ({ relay with rtTargets := key :: relay.rtTargets }, .datagram relay.lane)
  else if ok then ({ relay with streams := key :: relay.streams }, .done)
  else (relay, .done)

/-- Where a call of `forward` goes on when it has asked for the lane. -/
def afterCheck (sameLane viaStream viaRT : Bool) (lane : Option Nat) : ForwardPc :=
  if sameLane && viaStream then .done
  else if sameLane && viaRT then .datagram lane
  else .locked

/-- What a call of `forward` does next. What is sent on a stream is not of the lane. -/
def stepForward (s : DatagramLane) (call : ForwardCall) (connected ok : Bool) : Option (ForwardPc × DatagramLane) :=
  match s.relays[call.relay]? with
  | none => none
  | some relay =>
    match call.pc with
    | .start => some (.read (decide (call.key ∈ relay.streams)) (decide (call.key ∈ relay.rtTargets)) relay.lane, s)
    | .read viaStream viaRT lane =>
      let r := if call.tunnel then s.datagramClient cfg else (lane, s)
      some (afterCheck (decide (r.1 = lane)) viaStream viaRT lane, r.2)
    | .locked =>
      match s.switchLane cfg call.relay relay call.tunnel with
      | (relay, s) =>
        let (relay, pc) := openTarget relay call.key call.tunnel connected ok
        some (pc, s.setRelay call.relay relay)
    | .datagram lane => some (.done, { s with sent := s.sent ++ lane.toList })
    | .done => none

/-- `serve` answers the request on a connection, with the registration or with the decoy and its status. -/
inductive Act
  | start
  | dial
  | answer
  | fail
  | finish
  | serve (c : Nat) (register : Bool) (status : Nat)
  | lose (c : Nat)
  | clear (c : Nat)
  | relay
  | dropStream (r : Nat) (key : TargetKey)
  | forward (r : Nat) (key : TargetKey) (tunnel : Bool)
  | go (i : Nat) (connected ok : Bool)
  deriving DecidableEq, Repr

def statusOK : Nat := 200

def step (s : DatagramLane) : Act → Option DatagramLane
  | .start => some (s.startDatagramLane cfg)
  | .dial =>
    match s.pc with
    | .registering _ => some s.adoptDatagramConn
    | _ => none
  | .answer =>
    match s.pc with
    | .registering (some c) =>
      (s.conns[c]?).bind fun k => k.response.map fun status =>
        { s with pc := .returned (if status = statusOK then some c else none) }
    | _ => none
  | .fail =>
    match s.pc with
    | .registering _ => some { s with pc := .returned none }
    | _ => none
  | .finish =>
    match s.pc with
    | .returned _ => some { s with pc := .idle, dialing := false }
    | _ => none
  | .serve c register status =>
    (s.conns[c]?).bind fun k =>
      if k.response ≠ none then none
      else if register then some (s.setConn c { k with registered := true, response := some statusOK })
      else some (s.setConn c { k with response := some status })
  | .lose c => (s.conns[c]?).map fun k => s.setConn c { k with up := false }
  | .clear c => (s.conns[c]?).bind fun k => if k.up then none else some (s.clear c)
  | .relay => some { s with relays := s.relays ++ [{}] }
  | .dropStream r key =>
    (s.relays[r]?).map fun relay => s.setRelay r { relay with streams := relay.streams.filter (· ≠ key) }
  | .forward r key tunnel => some { s with calls := s.calls ++ [{ relay := r, key := key, tunnel := tunnel }] }
  | .go i connected ok =>
    (s.calls[i]?).bind fun call => (s.stepForward cfg call connected ok).map fun r =>
      { r.2 with calls := r.2.calls.set i { call with pc := r.1 } }

end

end DatagramLane

end Whispera
