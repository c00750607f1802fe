import Whispera.Framed

/-! `armFiller`, `fillLoop` and `writeFiller` of `core/protocol/framed.go`. A stream has a framed connection
on the TLS layer of either side and, if it is spliced, a second one on the raw socket for the way down. -/

namespace Whispera

inductive Peer
  | client
  | server
  deriving DecidableEq, Repr

inductive Layer
  | tls
  | raw
  deriving DecidableEq, Repr

/-- Where a filler loop is: before it loads the settings, or at its timer, with the idle time that it has
    loaded. -/
inductive FillPc
  | begin
  | wait (idleMs : Int)
  deriving DecidableEq, Repr

structure FillConn where
  peer : Peer
  layer : Layer
  lastWrite : Int
  filling : Option FillPc := none
  ended : Bool := false
  stopped : Bool := false
  deriving DecidableEq, Repr

namespace FillConn

def armFiller (shape : ShapeKnobs) (c : FillConn) : FillConn :=
  if shape.fillInterval ≤ 0 then c
  else if c.filling = none then { c with filling := some .begin } else c

def new (shape : ShapeKnobs) (peer : Peer) (layer : Layer) (now : Int) : FillConn :=
  armFiller shape { peer, layer, lastWrite := now }

end FillConn

/-- The stream of the client on the connection, by the framed connection it writes to; `idle` if it has none.
    -/
inductive ClientUse
  | idle
  | stream (splice : Bool) (up : Nat)
  deriving DecidableEq, Repr

/-- A filler that was written, and whether the other side reads what was written there then as framed records.
    -/
structure WrittenFiller where
  peer : Peer
  layer : Layer
  framed : Bool
  deriving DecidableEq, Repr

/-- A tunnel connection: the settings of both sides, the framed connections so far, the stream of the client,
    the splice bit of a header not read yet, the framed connection of the answer, and whether its end, or the
    switch to raw, was marked. -/
structure FillerLink where
  shape : Peer → ShapeKnobs
  conns : List FillConn := []
  client : ClientUse := .idle
  header : Option Bool := none
  serving : Option Nat := none
  answered : Bool := false
  switched : Bool := false
  closed : Bool := false
  fillers : List WrittenFiller := []

def answerLayer (splice : Bool) : Layer := if splice then .raw else .tls

namespace FillerLink

/-- The other side reads as framed records what the peer writes on the layer now: the server the TLS layer
    until the stream ends, the client its layer up to the mark at the end of the answer. -/
def reads (s : FillerLink) : Peer → Layer → Bool
  | .client, .tls =>
    match s.client with
    | .stream _ up => (s.conns[up]?).any fun c => !c.ended
    | .idle => false
  | .client, .raw => false
  | .server, layer =>
    match s.client with
    | .stream splice _ => layer = answerLayer splice ∧ s.answered = false
    | .idle => false

/-- `endDown` stops the loop too if it comes from `Close`; a loop wakes at a time and with the outcome of its
    write. -/
inductive Act
  | setFiller (peer : Peer) (idleMs intervalMs min max : Int)
  | open (now : Int) (bit splice : Bool)
  | accept (now : Int) (splice : Bool)
  | write (peer : Peer) (now : Int)
  | endUp
  | endDown (stop : Bool)
  | switchRaw
  | finish
  | park
  | close
  | wake (i : Nat) (now : Int) (ok : Bool)
  | quit (i : Nat)
  deriving DecidableEq, Repr

def setConn (s : FillerLink) (i : Nat) (c : FillConn) : FillerLink := { s with conns := s.conns.set i c }

def openStream (s : FillerLink) (now : Int) (bit splice : Bool) : FillerLink :=
  let up := FillConn.new (s.shape .client) .client .tls now
  let down := FillConn.new (s.shape .client) .client .raw now
  { s with
    conns := s.conns ++ if splice then [up, down] else [up]
    client := .stream splice s.conns.length
    header := some bit, answered := false, switched := false }

def accept (s : FillerLink) (now : Int) (splice : Bool) : FillerLink :=
  let framed := FillConn.new (s.shape .server) .server .tls now
  let down := FillConn.new (s.shape .server) .server .raw now
  { s with
    conns := s.conns ++ if splice then [framed, down] else [framed]
    serving := some (if splice then s.conns.length + 1 else s.conns.length)
    header := none }

def current (s : FillerLink) : Peer → Option Nat
  | .client =>
    match s.client with
    | .stream _ up => some up
    | .idle => none
  | .server => s.serving

def wake (s : FillerLink) (i : Nat) (c : FillConn) (now : Int) (ok : Bool) : Option FillerLink :=
  match c.filling with
  | none => none
  | some .begin =>
    if (s.shape c.peer).fillInterval ≤ 0 then some (s.setConn i { c with filling := none })
    else some (s.setConn i { c with filling := some (.wait (s.shape c.peer).fillIdle) })
  | some (.wait idleMs) =>
    if now - c.lastWrite < idleMs * 1000000 then some (s.setConn i { c with filling := some .begin })
    else if c.ended ∨ s.closed ∨ ok = false then some (s.setConn i { c with filling := none })
    else
      some { s.setConn i { c with filling := some .begin } with
        fillers := s.fillers ++ [{ peer := c.peer, layer := c.layer, framed := s.reads c.peer c.layer }] }

def step (s : FillerLink) : Act → Option FillerLink
  | .setFiller peer idleMs intervalMs min max =>
    match (s.shape peer).setFiller idleMs intervalMs min max with
    | .ok shape => some { s with shape := Function.update s.shape peer shape }
    | .error _ => some s
  | .open now bit splice => if s.client = .idle ∧ s.closed = false then some (s.openStream now bit splice) else none
  | .accept now splice =>
    -- a server splices only what the header asks for
    if s.serving = none ∧ s.header ≠ none ∧ (splice = true → s.header = some true) ∧ s.closed = false then
      some (s.accept now splice)
    else none
  | .write peer now =>
    (s.current peer).bind fun i => (s.conns[i]?).bind fun c =>
      if c.ended then none else some (s.setConn i (({ c with lastWrite := now } : FillConn).armFiller (s.shape peer)))
  | .endUp => (s.current .client).bind fun i => (s.conns[i]?).map fun c => s.setConn i { c with ended := true }
  | .endDown stop =>
    s.serving.bind fun i => (s.conns[i]?).map fun c =>
      { s.setConn i { c with ended := true, stopped := c.stopped || stop } with answered := s.answered || !c.ended }
  | .switchRaw =>
    s.serving.bind fun i => (s.conns[i]?).bind fun c =>
      if c.layer = .raw ∧ c.ended = false then
        some { s.setConn i { c with ended := true } with answered := true, switched := true }
      else none
  | .finish =>
    s.serving.bind fun i => (s.conns[i]?).bind fun c =>
      if c.ended ∧ s.switched = false then some { s with serving := none } else none
  | .park =>
    (s.current .client).bind fun i => (s.conns[i]?).bind fun c =>
      if c.ended ∧ s.answered ∧ s.switched = false then some { s with client := .idle } else none
  | .close => some { s with closed := true }
  | .wake i now ok => (s.conns[i]?).bind fun c => s.wake i c now ok
  | .quit i => (s.conns[i]?).bind fun c => if c.stopped then some (s.setConn i { c with filling := none }) else none

def start (shape : Peer → ShapeKnobs) : FillerLink := { shape }

end FillerLink
end Whispera
