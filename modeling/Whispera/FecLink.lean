import Whispera.Fec

/-! `receiveLoop` and `sweepLoop` in `core/protocol/quic/datagram.go`. Each part between two locks is a step.
-/

namespace Whispera

/-- A call of `deliverBlock`: whether it had recovered payloads, and what it hands over, with the positions in
    the block. -/
structure Delivery where
  block : Nat
  recovered : Bool
  items : List (Nat × Bytes)
  deriving DecidableEq, Repr

/-- Where `sweep` stands, with the blocks that it has yet to deliver. -/
inductive SweepPc
  | idle
  | due (blocks : List Nat)
  | checked (block : Nat) (missing : Bool) (rest : List Nat)
  | rebuilt (block : Nat) (recovered : List Bytes) (rest : List Nat)
  | filled (block : Nat) (recovered : Bool) (rest : List Nat)
  | collected (delivery : Delivery) (rest : List Nat)
  deriving DecidableEq

/-- The two loops and their receiver. Packets go by their number in the session. -/
structure FecLink where
  receiver : FecReceiver := {}
  arrived : List Nat := []
  ingesting : Option Nat := none
  sweeper : SweepPc := .idle
  delivered : List Delivery := []

namespace FecLink

/-- `sweep` finds the blocks that are due in the order of a Go map. -/
inductive Act
  | arrive (k : Nat) (now : Int)
  | shard
  | sweep (now : Int) (due : List Nat)
  | advance
  deriving DecidableEq, Repr

variable (rs : ReedSolomon) (packets : List Bytes)

def advance (s : FecLink) : Option FecLink :=
  match s.sweeper with
  | .idle => none
  | .due [] => some { s with sweeper := .idle }
  | .due (b :: rest) => some { s with sweeper := .checked b (s.receiver.missing b) rest }
  | .checked b missing rest =>
    if missing then some { s with sweeper := .rebuilt b (s.receiver.dec.reconstruct rs b) rest }
    else some { s with sweeper := .filled b false rest }
  | .rebuilt b recovered rest =>
    some { s with receiver := s.receiver.fill b recovered, sweeper := .filled b (!recovered.isEmpty) rest }
  | .filled b recovered rest =>
    some { s with
      receiver := s.receiver.dropPayloads b
      sweeper := .collected { block := b, recovered, items := s.receiver.payloads b } rest }
  | .collected delivery rest =>
    some { s with
      receiver := s.receiver.forget delivery.block
      sweeper := .due rest
      delivered := s.delivered ++ [delivery] }

def step (s : FecLink) : Act → Option FecLink
  | .arrive k now =>
    match s.ingesting, packets[k]? with
    | none, some packet =>
      if k ∈ s.arrived then none
      else
        some { s with
          receiver := s.receiver.ingestPayload packet now
          arrived := k :: s.arrived
          ingesting := some k }
    | _, _ => none
  | .shard =>
    match s.ingesting with
    | some k => some { s with receiver := s.receiver.ingestShard (packets[k]?.getD []), ingesting := none }
    | none => none
  | .sweep now due =>
    if s.sweeper = .idle ∧ due.isPerm (s.receiver.due now) then
      some { s with receiver := s.receiver.takeDue due, sweeper := .due due }
    else none
  | .advance => s.advance rs

def deliveries (s : FecLink) : List Delivery :=
  s.delivered ++ match s.sweeper with
    | .collected delivery _ => [delivery]
    | _ => []

end FecLink
end Whispera
