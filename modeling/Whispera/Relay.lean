import Whispera.KeepAlive

/-! `Relay` in `common/buf/buf_relay.go`. A pump is the loop of `Copy`; `Whispera.Splice` has what `SpliceTo`
does beyond it. -/

namespace Whispera
open Reader

inductive Side
  | a
  | b
  deriving DecidableEq, Repr

def Side.other : Side → Side
  | a => b
  | b => a

structure RelayConn where
  inp : Stream
  out : Bytes := []
  closed : Bool := false

/-- Where a pump stands. The bytes it holds were read and are not written yet. -/
inductive PumpPc
  | read
  | write (data : Bytes) (err : Option Err)
  | signal
  | stopped
  deriving DecidableEq, Repr

/-- It waits for a pump, closes `a`, closes `b`, and waits for the other pump. -/
inductive RelayPc
  | first
  | closeA
  | closeB
  | second
  | returned
  deriving DecidableEq, Repr

/-- `pump i` reads the connection of `i` and writes the other one; `done` counts what is in the channel. -/
structure Relay where
  conn : Side → RelayConn
  pump : Side → PumpPc := fun _ => .read
  done : Nat := 0
  main : RelayPc := .first

def Relay.start (inp : Side → Stream) : Relay where
  conn i := { inp := inp i }

inductive RelayAct
  | read (i : Side)
  | write (i : Side) (k : Nat)
  | signal (i : Side)
  | main

def PumpPc.next (data : Bytes) (err : Option Err) : PumpPc :=
  if data = [] then
    match err with
    | none => .read
    | some _ => .signal
  else .write data err

namespace Relay

def setPump (s : Relay) (i : Side) (pc : PumpPc) : Relay := { s with pump := Function.update s.pump i pc }

def setConn (s : Relay) (i : Side) (c : RelayConn) : Relay := { s with conn := Function.update s.conn i c }

/-- A read of a closed connection fails, and `Copy` returns. -/
def read (s : Relay) (i : Side) : Relay :=
  if (s.conn i).closed then s.setPump i .signal
  else
    match (s.conn i).inp.read bufSize with
    | (data, err, inp) => (s.setConn i { s.conn i with inp }).setPump i (.next data err)

/-- The transport takes some bytes of a `Write`. On a closed connection it fails, and `Copy` returns. -/
def write (s : Relay) (i : Side) (k : Nat) (data : Bytes) (err : Option Err) : Relay :=
  let dst := s.conn i.other
  if dst.closed then s.setPump i .signal
  else (s.setConn i.other { dst with out := dst.out ++ data.take (k + 1) }).setPump i (.next (data.drop (k + 1)) err)

def close (s : Relay) (i : Side) : Relay := s.setConn i { s.conn i with closed := true }

def step (s : Relay) : RelayAct → Option Relay
  | .read i => if s.pump i = .read then some (s.read i) else none
  | .write i k =>
    match s.pump i with
    | .write data err => some (s.write i k data err)
    | _ => none
  | .signal i => if s.pump i = .signal then some { s.setPump i .stopped with done := s.done + 1 } else none
  | .main =>
    match s.main with
    | .first => if 0 < s.done then some { s with done := s.done - 1, main := .closeA } else none
    | .closeA => some { s.close .a with main := .closeB }
    | .closeB => some { s.close .b with main := .second }
    | .second => if 0 < s.done then some { s with done := s.done - 1, main := .returned } else none
    | .returned => none

end Relay

end Whispera
