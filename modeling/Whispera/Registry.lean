import Mathlib.Data.Char
import Whispera.Lib.Table
import Whispera.Lib.TopoSort

/-! `common/runtime/registry/registry.go`, `dependency_order.go`, and `Start` and `Stop` in
`common/runtime/lifecycle/lifecycle.go`. The orders in which loops visit maps, and the results of the modules'
methods, are arguments. -/

namespace Whispera
open Table

abbrev ModuleName := List Char

inductive ModuleState
  | uninitialized
  | initialized
  | starting
  | running
  | stopping
  | stopped
  | error
  deriving DecidableEq, Repr

structure ModuleEntry where
  dependencies : List ModuleName
  state : ModuleState := .uninitialized
  deriving DecidableEq, Repr

inductive RegistryError
  | emptyName
  | alreadyRegistered (name : ModuleName)
  | unregistered (name dep : ModuleName)
  | circular
  | initFailed (name : ModuleName)
  | startFailed (name : ModuleName)
  deriving DecidableEq, Repr

abbrev Modules := Map ModuleName ModuleEntry

namespace Modules

def dependencies (m : Modules) (name : ModuleName) : List ModuleName :=
  ((m.lookup name).map (·.dependencies)).getD []

def state (m : Modules) (name : ModuleName) : Option ModuleState := (m.lookup name).map (·.state)

def setState (m : Modules) (name : ModuleName) (state : ModuleState) : Modules :=
  match m.lookup name with
  | some e => m.insert name { e with state := state }
  | none => m

end Modules

structure StartGraph where
  inDegree : ModuleName → Int
  deps : ModuleName → List ModuleName

namespace StartGraph

def empty : StartGraph := { inDegree := fun _ => 0, deps := fun _ => [] }

def addDependency (m : Modules) (name : ModuleName) (g : StartGraph) (dep : ModuleName) :
    Except RegistryError StartGraph :=
  if (m.lookup dep).isSome then
    .ok { inDegree := Function.update g.inDegree name (g.inDegree name + 1),
          deps := Function.update g.deps dep (g.deps dep ++ [name]) }
  else .error (.unregistered name dep)

def addModule (m : Modules) (g : StartGraph) (name : ModuleName) : Except RegistryError StartGraph :=
  (m.dependencies name).foldlM (addDependency m name) g

def sorted (names : List ModuleName) : List ModuleName := names.insertionSort (· ≤ ·)

end StartGraph

/-- `computeStartOrder`, whose loops visit the modules in the order `visit` and their degrees in the order
    `queued`. -/
def computeStartOrder (m : Modules) (visit queued : List ModuleName) : Except RegistryError (List ModuleName) :=
  match visit.foldlM (StartGraph.addModule m) .empty with
  | .error e => .error e
  | .ok g =>
    let queue := StartGraph.sorted (queued.filter fun name => g.inDegree name = 0)
    -- each round of the loop takes out one module, so that there are at most as many
    match TopoSort.loop (fun name => StartGraph.sorted (g.deps name)) (card m) queue g.inDegree [] with
    | some order => if order.length = card m then .ok order else .error .circular
    | none => .error .circular

structure Registry where
  modules : Modules := ∅
  order : List ModuleName := []

namespace Registry

def register (r : Registry) (name : ModuleName) (dependencies : List ModuleName) : Registry × Option RegistryError :=
  if name = [] then (r, some .emptyName)
  else if (r.modules.lookup name).isSome then (r, some (.alreadyRegistered name))
  else ({ r with modules := r.modules.insert name { dependencies := dependencies } }, none)

def startLoop (init start : ModuleName → Bool) : List ModuleName → Modules → Modules × Option RegistryError
  | [], m => (m, none)
  | name :: rest, m =>
    match m.state name with
    | some .running => startLoop init start rest m
    | some .uninitialized =>
      if init name then
        if start name then startLoop init start rest (m.setState name .running)
        else (m.setState name .error, some (.startFailed name))
      else (m, some (.initFailed name))
    | some _ =>
      if start name then startLoop init start rest (m.setState name .running)
      else (m.setState name .error, some (.startFailed name))
    -- not reached, the order is of registered modules
    | none => startLoop init start rest m

def startAll (r : Registry) (visit queued : List ModuleName) (init start : ModuleName → Bool) :
    Registry × Option RegistryError :=
  match computeStartOrder r.modules visit queued with
  | .error e => (r, some e)
  | .ok order =>
    let (modules, err) := startLoop init start order r.modules
    ({ modules := modules, order := order }, err)

/-- The loop of `StopAll`, with the modules whose `Stop` it calls. -/
def stopLoop (stop : ModuleName → Bool) : List ModuleName → Modules → Modules × List ModuleName
  | [], m => (m, [])
  | name :: rest, m =>
    if m.state name = some .running then
      let (modules, stopped) := stopLoop stop rest (m.setState name (if stop name then .stopped else .error))
      (modules, name :: stopped)
    else stopLoop stop rest m

def stopAll (r : Registry) (stop : ModuleName → Bool) : Registry × List ModuleName :=
  let (modules, stopped) := stopLoop stop r.order.reverse r.modules
  ({ r with modules := modules }, stopped)

inductive Call
  | register (name : ModuleName) (dependencies : List ModuleName)
  | startAll (visit queued : List ModuleName) (init start : ModuleName → Bool)
  | stopAll (stop : ModuleName → Bool)

def Visits (r : Registry) (names : List ModuleName) : Prop := names.Perm r.modules.keys

instance (r : Registry) (names : List ModuleName) : Decidable (r.Visits names) :=
  inferInstanceAs (Decidable (names.Perm r.modules.keys))

def step (r : Registry) : Call → Option Registry
  | .register name dependencies => some (r.register name dependencies).1
  | .startAll visit queued init start =>
    if r.Visits visit ∧ r.Visits queued then some (r.startAll visit queued init start).1 else none
  | .stopAll stop => some (r.stopAll stop).1

end Registry

structure LifecycleManager where
  registry : Registry := {}
  running : Bool := false

inductive LifecycleError
  | alreadyRunning
  | callback
  | modules (e : RegistryError)
  deriving DecidableEq, Repr

namespace LifecycleManager

structure StartCall where
  onStart : List Bool := []
  visit : List ModuleName
  queued : List ModuleName
  init : ModuleName → Bool
  start : ModuleName → Bool

def start (l : LifecycleManager) (c : StartCall) : LifecycleManager × Option LifecycleError :=
  if l.running then (l, some .alreadyRunning)
  else if c.onStart.contains false then (l, some .callback)
  else
    match l.registry.startAll c.visit c.queued c.init c.start with
    | (r, some e) => ({ l with registry := r }, some (.modules e))
    | (r, none) => ({ registry := r, running := true }, none)

/-- `Stop`, which waits for the callbacks before and after `StopAll` but goes on whatever they return. -/
def stop (l : LifecycleManager) (stop : ModuleName → Bool) : LifecycleManager :=
  if l.running then { registry := (l.registry.stopAll stop).1, running := false } else l

inductive Call
  | register (name : ModuleName) (dependencies : List ModuleName)
  | start (c : StartCall)
  | stop (stop : ModuleName → Bool)

def step (l : LifecycleManager) : Call → Option LifecycleManager
  | .register name dependencies => some { l with registry := (l.registry.register name dependencies).1 }
  | .start c => if l.registry.Visits c.visit ∧ l.registry.Visits c.queued then some (l.start c).1 else none
  | .stop stop => some (l.stop stop)

end LifecycleManager
end Whispera
