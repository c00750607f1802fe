import Whispera.Tunnel

/-! `tunnelStateMachine` in `core/tunnel/state_machine.go` and the calls of `Manager.Connect`. Each call of a
method is a step. -/

namespace Whispera

def TunnelState.isConnected (st : TunnelState) : Bool := st = .connected || st = .rotating

structure StateReport where
  old : TunnelState
  new : TunnelState
  deriving DecidableEq, Repr

/-- `tunnelStateMachine`. The channels `ready` are counted, and the last one is closed or not. -/
structure TunnelStateMachine where
  state : TunnelState := .disconnected
  lastError : Option String := none
  ready : Nat := 0
  readyClosed : Bool := false
  deriving DecidableEq, Repr

namespace TunnelStateMachine

def syncReady (sm : TunnelStateMachine) : TunnelStateMachine :=
  if sm.readyClosed then
    if sm.state.isConnected then sm else { sm with ready := sm.ready + 1, readyClosed := false }
  else
    if sm.state.isConnected then { sm with readyClosed := true } else sm

/-- What `Set` and `CompareAndSet` do under the lock. -/
def enter (sm : TunnelStateMachine) (state : TunnelState) : TunnelStateMachine :=
  syncReady { sm with state, lastError := if state ≠ .error then none else sm.lastError }

def report (old new : TunnelState) : Option StateReport := if old ≠ new then some ⟨old, new⟩ else none

def set (sm : TunnelStateMachine) (state : TunnelState) : TunnelStateMachine × Option StateReport :=
  (sm.enter state, report sm.state state)

/-- `CompareAndSet`, with the state that it returns and whether it was blocked. -/
def compareAndSet (sm : TunnelStateMachine) (newState : TunnelState) (blockedStates : List TunnelState) :
    TunnelStateMachine × Option StateReport × TunnelState × Bool :=
  if sm.state ∈ blockedStates then (sm, none, sm.state, true)
  else (sm.enter newState, report sm.state newState, sm.state, false)

def setError (sm : TunnelStateMachine) (err : Option String) : TunnelStateMachine :=
  syncReady { sm with state := .error, lastError := err }

end TunnelStateMachine

structure StateHistory where
  sm : TunnelStateMachine := {}
  reports : List StateReport := []
  deriving DecidableEq, Repr

namespace StateHistory

inductive Call
  | set (state : TunnelState)
  | compareAndSet (newState : TunnelState) (blockedStates : List TunnelState)
  | setError (err : Option String)
  deriving DecidableEq, Repr

def step (s : StateHistory) : Call → Option StateHistory
  | .set state =>
    let (sm, r) := s.sm.set state
    some { sm, reports := s.reports ++ r.toList }
  | .compareAndSet newState blockedStates =>
    let (sm, r, _) := s.sm.compareAndSet newState blockedStates
    some { sm, reports := s.reports ++ r.toList }
  | .setError err => some { s with sm := s.sm.setError err }

end StateHistory

/-- Before its check of the state; past it; between `Disconnect` and `connectInternal`; about to dial; with
    the result of the dial; with the state set by it; back. -/
inductive ConnectCallPc
  | start
  | won
  | cleared
  | connecting
  | dialled (err : Option String)
  | settled (ok : Bool)
  | returned (ok : Bool)
  deriving DecidableEq, Repr

def ConnectCallPc.active : ConnectCallPc → Bool
  | .start | .returned _ => false
  | .won | .cleared | .connecting | .dialled _ | .settled _ => true

structure ConnectCall where
  pc : ConnectCallPc := .start
  meanwhile : Bool := false
  deriving DecidableEq, Repr

/-- The state machine of a manager, the calls of `Connect`, and those that have dialled, in order. -/
structure ConnectCalls where
  sm : TunnelStateMachine := {}
  calls : List ConnectCall := []
  dials : List Nat := []
  deriving DecidableEq, Repr

namespace ConnectCalls

/-- How the dial of `connectPerFlow` or `connectStreamMux` ends: there is nothing to dial with, or it was
    tried. -/
inductive Dial
  | none (err : String)
  | tried (err : Option String)
  deriving DecidableEq, Repr

def Dial.err : Dial → Option String
  | .none err => some err
  | .tried err => err

inductive Act
  | begin
  | check (i : Nat)
  | disconnect (i : Nat)
  | connectInternal (i : Nat)
  | dial (i : Nat) (d : Dial)
  | settle (i : Nat)
  | finish (i : Nat)
  deriving DecidableEq, Repr

def setPc (s : ConnectCalls) (i : Nat) (c : ConnectCall) (pc : ConnectCallPc) : ConnectCalls :=
  { s with calls := s.calls.set i { c with pc } }

def check (s : ConnectCalls) (i : Nat) (c : ConnectCall) : ConnectCalls :=
  let (sm, _, _, blocked) := s.sm.compareAndSet .connecting [.connecting, .connected]
  let meanwhile := s.calls.any (·.pc.active)
  { s with sm, calls := s.calls.set i { c with pc := if blocked then .returned true else .won, meanwhile } }

def settle (sm : TunnelStateMachine) : Option String → TunnelStateMachine
  | none => (sm.set .connected).1
  | some err => sm.setError (some err)

def step (s : ConnectCalls) : Act → Option ConnectCalls
  | .begin => some { s with calls := s.calls ++ [{}] }
  | .check i =>
    match s.calls[i]? with
    | some ⟨.start, m⟩ => some (s.check i ⟨.start, m⟩)
    | _ => none
  | .disconnect i =>
    match s.calls[i]? with
    | some ⟨.won, m⟩ => some { s.setPc i ⟨.won, m⟩ .cleared with sm := (s.sm.set .disconnected).1 }
    | _ => none
  | .connectInternal i =>
    match s.calls[i]? with
    | some ⟨.cleared, m⟩ => some { s.setPc i ⟨.cleared, m⟩ .connecting with sm := (s.sm.set .connecting).1 }
    | _ => none
  | .dial i d =>
    match s.calls[i]? with
    | some ⟨.connecting, m⟩ =>
      some { s.setPc i ⟨.connecting, m⟩ (.dialled d.err) with
        dials := match d with
          | .none _ => s.dials
          | .tried _ => s.dials ++ [i] }
    | _ => none
  | .settle i =>
    match s.calls[i]? with
    | some ⟨.dialled err, m⟩ => some { s.setPc i ⟨.dialled err, m⟩ (.settled (err = none)) with sm := settle s.sm err }
    | _ => none
  | .finish i =>
    match s.calls[i]? with
    | some ⟨.settled ok, m⟩ => some (s.setPc i ⟨.settled ok, m⟩ (.returned ok))
    | _ => none

end ConnectCalls
end Whispera
