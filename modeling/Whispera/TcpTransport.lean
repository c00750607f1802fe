import Whispera.Lib.Table
import Whispera.Lib.Transition

/-! `Dial`, `Accept` and `Close` of `core/transport/tcp/tcp.go`. Each atomic operation is a step. -/

namespace Whispera

/-- The next operation of a call of `Dial` or `Accept`, from the connection on, and of `Close`. -/
inductive ConnPc
  | check
  | count
  | active
  | load
  | store (id : Nat)
  | opened (id : Nat)
  | leave (id : Nat)
  | delete (id : Nat)
  | shut
  | closed
  deriving DecidableEq, Repr

/-- A connection goes by the number of its call. -/
structure TcpTransport where
  connCount : Nat := 0
  activeConns : Int := 0
  connections : Table.Map Nat Nat := ∅
  calls : List ConnPc := []

namespace TcpTransport

inductive Act
  | begin (accept : Bool)
  | next (i : Nat)
  | close (i : Nat)
  deriving DecidableEq, Repr

def advance (maxConns : Int) (s : TcpTransport) (i : Nat) : ConnPc → Option (ConnPc × TcpTransport)
  | .check => some (if s.activeConns ≥ maxConns then .shut else .count, s)
  | .count => some (.active, { s with connCount := s.connCount + 1 })
  | .active => some (.load, { s with activeConns := s.activeConns + 1 })
  | .load => some (.store s.connCount, s)
  | .store id => some (.opened id, { s with connections := s.connections.insert id i })
  | .leave id => some (.delete id, { s with activeConns := s.activeConns - 1 })
  | .delete id => some (.shut, { s with connections := s.connections.erase id })
  | .shut => some (.closed, s)
  | .opened _ | .closed => none

def step (maxConns : Int) (s : TcpTransport) : Act → Option TcpTransport
  | .begin accept => some { s with calls := s.calls ++ [if accept then .check else .count] }
  | .next i => do
    let (pc, t) ← s.advance maxConns i (← s.calls[i]?)
    return { t with calls := s.calls.set i pc }
  | .close i =>
    -- On a connection that was closed before, the swap fails and `Close` returns.
    match s.calls[i]? with
    | some (.opened id) => some { s with calls := s.calls.set i (.leave id) }
    | _ => none

/-- The connections that `Stop` closes. -/
def stop (s : TcpTransport) : List Nat := s.connections.entries.map Sigma.snd

end TcpTransport

end Whispera
