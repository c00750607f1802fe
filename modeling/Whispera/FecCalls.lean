import Whispera.FecLink

/-! `ingest` and `sweep` of `core/protocol/quic/datagram.go`. Each part between two locks is a step. -/

namespace Whispera

structure FecCalls where
  receiver : FecReceiver := {}
  ingests : List (Option Bytes) := []
  sweeps : List SweepPc := []

namespace FecCalls

/-- `sweep` finds the blocks that are due in the order of a Go map. -/
inductive Act
  | ingest (packet : Bytes) (now : Int)
  | shard (i : Nat)
  | sweep (now : Int) (due : List Nat)
  | advance (j : Nat)
  deriving DecidableEq, Repr

def step (rs : ReedSolomon) (s : FecCalls) : Act → Option FecCalls
  | .ingest packet now =>
    some { s with
      receiver := s.receiver.ingestPayload packet now
      ingests := s.ingests ++ [if FecReceiver.Malformed packet then none else some packet] }
  | .shard i =>
    match s.ingests[i]? with
    | some (some packet) => some { s with receiver := s.receiver.ingestShard packet, ingests := s.ingests.set i none }
    | some none => none
    | none => none
  | .sweep now due =>
    if due.isPerm (s.receiver.due now) then
      some { s with receiver := s.receiver.takeDue due, sweeps := s.sweeps ++ [.due due] }
    else none
  | .advance j =>
    match s.sweeps[j]? with
    | some pc =>
      (FecLink.advance rs { receiver := s.receiver, sweeper := pc }).map fun l =>
        { s with receiver := l.receiver, sweeps := s.sweeps.set j l.sweeper }
    | none => none

structure Quiet (s : FecCalls) : Prop where
  ingests : ∀ x ∈ s.ingests, x = none
  sweeps : ∀ pc ∈ s.sweeps, pc = .idle
  firstAt : s.receiver.firstAt = ∅

/-- The block that a step makes the decoder forget. -/
def forgets (s : FecCalls) : Act → Option Nat
  | .advance j =>
    match s.sweeps[j]? with
    | some (.collected d _) => some d.block
    | some .idle | some (.due _) | some (.checked _ _ _) | some (.rebuilt _ _ _) | some (.filled _ _ _) => none
    | none => none
  | .ingest _ _ | .shard _ | .sweep _ _ => none

/-- While a call of `ingest` has a shard to store, its block is forgotten only if it waits again. -/
def Guarded (s : FecCalls) (a : Act) : Prop :=
  ∀ b ∈ s.forgets a, ∀ packet ∈ s.ingests.filterMap id, blockStartOf (seqOf packet) = b →
  (s.receiver.firstAt.lookup b).isSome

instance (s : FecCalls) (a : Act) : Decidable (s.Guarded a) := inferInstanceAs (Decidable (∀ b ∈ s.forgets a, _))

end FecCalls
end Whispera
