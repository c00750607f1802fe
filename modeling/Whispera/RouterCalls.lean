import Whispera.Router

/-! `core/router/router.go`. A change of the rules holds the lock from its start to its return; `Route` takes
it only to read the compiled rules. -/

namespace Whispera
open Net

/-- Before the cache, after a miss, with the compiled rules that it has read and the number of changes until
    then, or done. -/
inductive RoutePhase
  | check
  | read
  | scan (compiled : List CompiledRule) (version : Nat)
  | returned (dest : Destination)

/-- `since` is the number of changes when the call started, if all of them had returned by then. -/
structure RouteCall where
  packet : Packet
  since : Option Nat
  phase : RoutePhase := .check

inductive RuleChange
  | addRule (rule : RoutingRule)
  | removeRule (id : String)
  | updateRules (rules : List RoutingRule)
  deriving DecidableEq, Repr

def RuleChange.rules : RuleChange → List RoutingRule
  | addRule rule => [rule]
  | removeRule _ => []
  | updateRules rules => rules

inductive ChangePhase
  | replaced
  | cleared
  deriving DecidableEq, Repr

/-- An engine, the number of changes of its rules, the change that holds the lock, and the calls of `Route`.
    -/
structure RouterCalls where
  engine : Engine
  version : Nat := 0
  changing : Option ChangePhase := none
  calls : List RouteCall := []

namespace RouterCalls

/-- `change` goes up to the replacement of the rules, or is all of a change that is refused. -/
inductive Act
  | change (change : RuleChange)
  | clear
  | unlock
  | route (packet : Packet)
  | next (i : Nat)
  deriving DecidableEq, Repr

section
variable (lib : RouterLib)

def change (e : Engine) : RuleChange → Except RuleError Engine
  | .addRule rule => e.addRule lib rule
  | .removeRule id => e.removeRule lib id
  | .updateRules rules => e.updateRules lib rules

def setPhase (s : RouterCalls) (i : Nat) (call : RouteCall) (phase : RoutePhase) : RouterCalls :=
  { s with calls := s.calls.set i { call with phase := phase } }

def stepRoute (s : RouterCalls) (i : Nat) (call : RouteCall) : Option RouterCalls :=
  match call.phase with
  | .check =>
    if s.engine.config.enableCache then
      let r := s.engine.checkCache call.packet
      match r.1 with
      | some dest => some { s.setPhase i call (.returned dest) with engine := r.2 }
      | none => some { s.setPhase i call .read with engine := r.2 }
    else some (s.setPhase i call .read)
  | .read => if s.changing = none then some (s.setPhase i call (.scan s.engine.compiled s.version)) else none
  | .scan compiled _ =>
    let dest := ({ s.engine with compiled := compiled } : Engine).scan lib call.packet
    if s.engine.config.enableCache then
      some { s.setPhase i call (.returned dest) with engine := s.engine.updateCache call.packet dest }
    else some (s.setPhase i call (.returned dest))
  | .returned _ => none

def step (s : RouterCalls) : Act → Option RouterCalls
  | .change c =>
    if s.changing = none then
      match change lib s.engine c with
      | .error _ => some s
      | .ok engine =>
        -- all of the change but the clearing of the cache
        some { s with engine := { engine with
          cache := s.engine.cache }, version := s.version + 1, changing := some .replaced }
    else none
  | .clear =>
    if s.changing = some .replaced then
      some { s with engine.cache := s.engine.cache.purge, changing := some .cleared }
    else none
  | .unlock => if s.changing = some .cleared then some { s with changing := none } else none
  | .route packet =>
    some { s with calls := s.calls ++ [{ packet, since := if s.changing = none then some s.version else none }] }
  | .next i => (s.calls[i]?).bind fun call => stepRoute lib s i call

def start (cfg : RouterConfig) : RouterCalls := { engine := .new cfg }

end
end RouterCalls
end Whispera
