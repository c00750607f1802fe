import Whispera.Tunnel

/-! `idleSet` of `core/tunnel/keepalive.go`. A section under the lock is a step, and so is each operation on a
connection or a channel. -/

namespace Whispera

open Tunnel (idleMax)

/-- A `parkedConn`, by the number of its watcher, with the number of the connection. -/
structure ParkedConn where
  id : Nat
  conn : Nat
  deriving DecidableEq, Repr

/-- Where `watch` is: not started yet, at its read, at the channel, at `remove`, at `Close`, or at the end. -/
inductive ProbePc
  | born
  | read
  | send (alive : Bool)
  | remove
  | close
  | done
  deriving DecidableEq, Repr

/-- The goroutine of a parked connection, with its channel and whether its read has taken a byte. -/
structure Probe where
  parked : ParkedConn
  pc : ProbePc := .born
  alive : Option Bool := none
  consumed : Bool := false
  deriving DecidableEq, Repr

/-- `put` is at the lock, starts the watcher, closes what it has evicted; `take` is at the lock, sets the
    deadline, waits for the watcher, clears the deadline, closes what it could not reclaim. -/
inductive IdleCall
  | put (c : Nat)
  | spawn (id : Nat) (evict : List Nat)
  | take
  | deadline (p : ParkedConn)
  | wait (p : ParkedConn)
  | clear (p : ParkedConn)
  | drop (p : ParkedConn)
  | closing (cs : List Nat)
  | returned (c : Option Nat)
  deriving DecidableEq, Repr

/-- Where `fillLoop` is: it does not run, it sleeps before its next round, or it returns. -/
inductive FillLoop
  | off
  | sleep
  | leave
  deriving DecidableEq, Repr

/-- An `idleSet` with its goroutines and calls. Of each connection, how often it was put and handed out, its
    fillers, and whether the set has closed it. -/
structure IdleSet where
  conns : List ParkedConn := []
  closed : Bool := false
  filling : FillLoop := .off
  probes : List Probe := []
  calls : List IdleCall := []
  puts : Nat → Nat := fun _ => 0
  handed : Nat → Nat := fun _ => 0
  fillers : Nat → Nat := fun _ => 0
  shut : Nat → Bool := fun _ => false

namespace IdleSet

/-- In `next`, `ok` is the outcome of `SetReadDeadline`, or says that `reclaim` is not late; `fill` gets as
    far as `n` fillers. -/
inductive Act
  | put (c : Nat)
  | take
  | closeAll
  | reopen
  | next (i : Nat) (ok : Bool)
  | read (i : Nat) (byte deadline : Bool)
  | watch (i : Nat)
  | fill (n : Nat)
  | fillEnd
  deriving DecidableEq, Repr

def close (s : IdleSet) (c : Nat) : IdleSet := { s with shut := Function.update s.shut c true }

def setCall (s : IdleSet) (i : Nat) (call : IdleCall) : IdleSet := { s with calls := s.calls.set i call }

def setProbe (s : IdleSet) (i : Nat) (w : Probe) : IdleSet := { s with probes := s.probes.set i w }

def park (s : IdleSet) (i : Nat) (c : Nat) : IdleSet :=
  if s.closed then s.setCall i (.closing [c])
  else
    let p : ParkedConn := { id := s.probes.length, conn := c }
    let conns := s.conns ++ [p]
    let surplus := conns.length - idleMax
    { s with
      conns := conns.drop surplus
      probes := s.probes ++ [{ parked := p }]
      calls := s.calls.set i (.spawn p.id ((conns.take surplus).map (·.conn))) }

def pop (s : IdleSet) (i : Nat) : IdleSet :=
  match s.conns.getLast? with
  | none => s.setCall i (.returned none)
  | some p => { s with conns := s.conns.dropLast, calls := s.calls.set i (.deadline p) }

def receive (s : IdleSet) (i : Nat) (p : ParkedConn) : Option IdleSet :=
  match s.probes[p.id]? with
  | none => none
  | some w =>
    match w.alive with
    | none => none
    | some alive => some ((s.setProbe p.id { w with alive := none }).setCall i (if alive then .clear p else .drop p))

def stepCall (s : IdleSet) (i : Nat) (ok : Bool) : IdleCall → Option IdleSet
  | .put c => some (s.park i c)
  | .spawn id evict =>
    match s.probes[id]? with
    | none => none
    | some w => if w.pc = .born then some ((s.setProbe id { w with pc := .read }).setCall i (.closing evict)) else none
  | .take => some (s.pop i)
  | .deadline p => some (s.setCall i (if ok then .wait p else .drop p))
  | .wait p => if ok then s.receive i p else some (s.setCall i (.drop p))
  | .clear p =>
    if ok then
      some { s with
        handed := Function.update s.handed p.conn (s.handed p.conn + 1)
        calls := s.calls.set i (.returned (some p.conn)) }
    else some (s.setCall i (.drop p))
  | .drop p => some ((s.close p.conn).setCall i .take)
  | .closing [] => some (s.setCall i (.returned none))
  | .closing (c :: cs) => some ((s.close c).setCall i (.closing cs))
  | .returned _ => none

def stepWatch (s : IdleSet) (i : Nat) (w : Probe) : Option IdleSet :=
  match w.pc with
  | .born | .read | .done => none
  | .send alive =>
    if w.alive = none then
      some (s.setProbe i { w with alive := some alive, pc := if alive then .done else .remove })
    else none
  | .remove =>
    if w.parked ∈ s.conns then some { s with
      conns := s.conns.erase w.parked, probes := s.probes.set i { w with pc := .close } }
    else some (s.setProbe i { w with pc := .done })
  | .close => some ((s.close w.parked.conn).setProbe i { w with pc := .done })

/-- A round of `fillLoop`. `FillerPad` may end it early, a failed write does not. -/
def fill (s : IdleSet) (n : Nat) : IdleSet :=
  if s.closed then { s with filling := .leave }
  else { s with fillers := fun c => s.fillers c + ((s.conns.take n).map (·.conn)).count c }

def step (s : IdleSet) : Act → Option IdleSet
  | .put c =>
    some { s with
      filling := if s.filling = .off then .sleep else s.filling
      calls := s.calls ++ [.put c]
      puts := Function.update s.puts c (s.puts c + 1) }
  | .take => some { s with calls := s.calls ++ [.take] }
  | .closeAll => some { s with conns := [], closed := true, calls := s.calls ++ [.closing (s.conns.map (·.conn))] }
  | .reopen => some { s with closed := false }
  | .next i ok => s.calls[i]?.bind (s.stepCall i ok)
  | .read i byte deadline =>
    match s.probes[i]? with
    | none => none
    | some w => if w.pc = .read then some (s.setProbe i { w with pc := .send deadline, consumed := byte }) else none
  | .watch i => s.probes[i]?.bind (s.stepWatch i)
  | .fill n => if s.filling = .sleep then some (s.fill n) else none
  | .fillEnd => if s.filling = .leave then some { s with filling := .off } else none

def Holds (s : IdleSet) (c : Nat) : Prop := c ∈ s.conns.map (·.conn)

instance (s : IdleSet) (c : Nat) : Decidable (s.Holds c) := inferInstanceAs (Decidable (_ ∈ _))

def Consumed (s : IdleSet) (c : Nat) : Prop := ∃ w ∈ s.probes, w.parked.conn = c ∧ w.consumed = true

end IdleSet

end Whispera
