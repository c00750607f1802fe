import Whispera.Lib.Strings

/-! `livenessConn` in `core/protocol/client.go`. A call takes a step between two accesses to what the calls
share. -/

namespace Whispera
open Strings

def liveResetWindow : Int := 8 * 1000000000

/-- `isCensorReset`, on the text of an error. No letter beyond ASCII becomes one of those that are looked for.
    -/
def isCensorReset (err : Bytes) : Bool :=
  contains (lowerASCII err) [114, 101, 115, 101, 116] && !contains (lowerASCII err) [97, 98, 111, 114, 116]

/-- `livenessConn`: which callbacks are set, the bytes that were moved, and what the lock guards. -/
structure LivenessConn where
  onReset : Bool := true
  onOK : Bool := true
  onEnd : Bool := true
  moved : Nat := 0
  establishedAt : Int := 0
  established : Bool := false
  closedByUs : Bool := false
  fired : Bool := false
  ended : Bool := false
  deriving DecidableEq, Repr

inductive LivenessEvent
  | reset
  | ok
  | fin (dur : Int) (moved : Nat) (reset : Bool)
  deriving DecidableEq, Repr

/-- A call is before its lock; is to call `onReset` or `onOK`; is at `reportEnd`; is to call `onEnd`; is back.
    -/
inductive LivenessPc
  | note (err : Bytes)
  | close
  | resetting
  | okaying
  | reporting (reset : Bool)
  | ending (dur : Int) (reset : Bool)
  | returned
  deriving DecidableEq, Repr

namespace LivenessConn

/-- What a call does next, with the clock: the connection afterwards, where the call goes on, and the
    callback. -/
def turn (c : LivenessConn) (now : Int) : LivenessPc → Option (LivenessConn × LivenessPc × Option LivenessEvent)
  | .note err =>
    if c.fired ∨ ¬c.established ∨ c.closedByUs ∨ ¬c.onReset then some (c, .returned, none)
    else if now - c.establishedAt > liveResetWindow ∨ ¬isCensorReset err then some (c, .returned, none)
    else some ({ c with fired := true }, .resetting, none)
  | .close =>
    let report := c.established && !c.fired && !c.closedByUs
    some ({ c with closedByUs := true }, if report && c.onOK then .okaying else .reporting false, none)
  | .resetting => some (c, .reporting true, some .reset)
  | .okaying => some (c, .reporting false, some .ok)
  | .reporting reset =>
    if c.ended ∨ ¬c.established ∨ ¬c.onEnd then some (c, .returned, none)
    else some ({ c with ended := true }, .ending (now - c.establishedAt) reset, none)
  | .ending dur reset => some (c, .returned, some (.fin dur c.moved reset))
  | .returned => none

end LivenessConn

structure LivenessCall where
  close : Bool
  pc : LivenessPc
  deriving DecidableEq, Repr

structure LivenessCalls where
  conn : LivenessConn
  calls : List LivenessCall := []
  events : List LivenessEvent := []
  deriving DecidableEq, Repr

namespace LivenessCalls

/-- The steps: `note` is called with an error, `Close` is called, bytes are moved, a call goes on. -/
inductive Act
  | note (err : Bytes)
  | close
  | move (n : Nat)
  | go (i : Nat) (now : Int)
  deriving DecidableEq, Repr

def established (since : Int) : LivenessCalls := { conn := { established := true, establishedAt := since } }

def step (s : LivenessCalls) : Act → Option LivenessCalls
  | .note err => some { s with calls := s.calls ++ [⟨false, .note err⟩] }
  | .close => some { s with calls := s.calls ++ [⟨true, .close⟩] }
  | .move n => some { s with conn := { s.conn with moved := s.conn.moved + n } }
  | .go i now =>
    match s.calls[i]? with
    | none => none
    | some call =>
      (s.conn.turn now call.pc).map fun (conn, pc, event) =>
        { conn, calls := s.calls.set i { call with pc }, events := s.events ++ event.toList }

end LivenessCalls
end Whispera
