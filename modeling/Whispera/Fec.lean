import Mathlib.Data.List.AList
import Whispera.Lib.Bytes
import Whispera.Lib.Erasure

/-! `core/protocol/quic/fec.go`, and `fecSender` and `fecReceiver` in `core/protocol/quic/datagram.go`. -/

namespace Whispera
open BigEndian ErasureCode

def fecK : Nat := 10
def fecM : Nat := 4
def datagramMaxProtected : Nat := 1100

def fecBlockWait : Int := 30000000

def markerFEC : UInt8 := 0xFF
def markerRaw : UInt8 := 0xFE

def seqLimit : Nat := 2 ^ 32

def seqAt (blockStart i : Nat) : Nat := (blockStart + i) % seqLimit

abbrev ReedSolomon : Type := ErasureCode fecK fecM

structure FECEncoder where
  shards : List Bytes := []
  shardSize : Nat := 0

def fecHeader (seq : Nat) : Bytes := markerFEC :: (put 4 seq ++ [UInt8.ofNat fecK, UInt8.ofNat fecM])

def rsShard (data : Bytes) : Bytes := putUint16 data.length ++ data

namespace FECEncoder

def encodeFEC (fe : FECEncoder) (data : Bytes) (seq : Nat) : Bytes × FECEncoder :=
  (fecHeader seq ++ rsShard data,
    { shards := fe.shards ++ [rsShard data], shardSize := max fe.shardSize (rsShard data).length })

def getParityPackets (rs : ReedSolomon) (fe : FECEncoder) (baseSeq : Nat) : List Bytes × FECEncoder :=
  if fe.shards.length < fecK then ([], fe)
  else
    ((rs.parity ((fe.shards.take fecK).map (pad fe.shardSize))).mapIdx fun i p => fecHeader (seqAt baseSeq i) ++ p, {})

end FECEncoder

structure FecSender where
  enc : FECEncoder := {}
  blockStart : Nat := 0
  cnt : Nat := 0
  lastAt : Int := 0

namespace FecSender

def encodeNext (s : FecSender) (payload : Bytes) : Bytes × FecSender :=
  let (packet, enc) := s.enc.encodeFEC payload (seqAt s.blockStart s.cnt)
  (packet, { s with enc, cnt := s.cnt + 1 })

def fillBlock : Nat → FecSender → List Bytes × FecSender
  | 0, s => ([], s)
  | n + 1, s =>
    let (packet, s) := s.encodeNext []
    let (packets, s) := fillBlock n s
    (packet :: packets, s)

variable (rs : ReedSolomon)

def finishBlock (s : FecSender) : List Bytes × FecSender :=
  let (packets, enc) := s.enc.getParityPackets rs (seqAt s.blockStart fecK)
  (packets, { s with enc, blockStart := seqAt s.blockStart (fecK + fecM), cnt := 0 })

def flushLocked (s : FecSender) : List Bytes × FecSender :=
  if s.cnt = 0 then ([], s)
  else
    let (filled, s) := fillBlock (fecK - s.cnt) s
    let (parity, s) := s.finishBlock rs
    (filled ++ parity, s)

def flushIdle (s : FecSender) (since : Int) : List Bytes × FecSender :=
  if 0 < s.cnt ∧ fecBlockWait ≤ since - s.lastAt then s.flushLocked rs else ([], s)

/-- The packet of a payload, and the parity packets if it completes the block. -/
def place (s : FecSender) (payload : Bytes) (now : Int) : List Bytes × FecSender :=
  let (packet, s) := { s with lastAt := now }.encodeNext payload
  if s.cnt = fecK then
    let (parity, s) := s.finishBlock rs
    (packet :: parity, s)
  else ([packet], s)

end FecSender

structure Send where
  payload : Bytes
  since : Int := 0
  now : Int := 0

/-- The numbered packets of a sequence of calls of `encode`, each with the start of its block. Payloads that
    are too long get no number. -/
def session (rs : ReedSolomon) (s : FecSender) : List Send → List (Nat × Bytes) × FecSender
  | [] => ([], s)
  | x :: sends =>
    if datagramMaxProtected < x.payload.length then session rs s sends
    else
      let (flushed, s₁) := s.flushIdle rs x.since
      let (packets, s₂) := s₁.place rs x.payload x.now
      let (rest, t) := session rs s₂ sends
      (flushed.map (Prod.mk s.blockStart) ++ packets.map (Prod.mk s₁.blockStart) ++ rest, t)

def sendBlock (rs : ReedSolomon) : FecSender → List (Bytes × Int) → List Bytes
  | s, [] => (s.flushLocked rs).1
  | s, (payload, now) :: sends =>
    let (packets, s) := s.place rs payload now
    packets ++ sendBlock rs s sends

structure FECDecoder where
  packetBuffer : AList fun _ : Nat => Bytes := ∅

def seqOf (packet : Bytes) : Nat := get ((packet.drop 1).take 4)

def shardPayload (shard : Bytes) : Option Bytes :=
  if shard.length < 2 then none
  else
    let dataLen := get (shard.take 2)
    if shard.length < dataLen + 2 then none else some ((shard.drop 2).take dataLen)

namespace FECDecoder

def decodeFEC (fd : FECDecoder) (packet : Bytes) : FECDecoder :=
  if packet.length < 7 ∨ packet.head? ≠ some markerFEC then fd
  else { packetBuffer := fd.packetBuffer.insert (seqOf packet) (packet.drop 7) }

def forget (fd : FECDecoder) (blockStart : Nat) : FECDecoder :=
  { packetBuffer := (List.range (fecK + fecM)).foldl (fun buf i => buf.erase (seqAt blockStart i)) fd.packetBuffer }

def present (fd : FECDecoder) (blockStart : Nat) : List (Option Bytes) :=
  (List.range (fecK + fecM)).map fun i => fd.packetBuffer.lookup (seqAt blockStart i)

def maxLen (shards : List (Option Bytes)) : Nat := shards.foldl (fun n s => max n (s.getD []).length) 0

def reconstruct (rs : ReedSolomon) (fd : FECDecoder) (blockStart : Nat) : List Bytes :=
  let shards := fd.present blockStart
  if shards.countP Option.isSome < fecK then []
  else
    match rs.reconstruct (shards.map (Option.map (pad (maxLen shards)))) with
    | none => []
    | some word =>
      (List.range fecK).filterMap fun i =>
        if fd.packetBuffer.lookup (seqAt blockStart i) = none then word[i]?.bind shardPayload else none

end FECDecoder

structure FecReceiver where
  dec : FECDecoder := {}
  received : AList fun _ : Nat => Bytes := ∅
  firstAt : AList fun _ : Nat => Int := ∅

def blockStartOf (seq : Nat) : Nat := seq / (fecK + fecM) * (fecK + fecM)

namespace FecReceiver

def Malformed (packet : Bytes) : Prop := packet.length < 9 ∨ packet.head? ≠ some markerFEC

instance (packet : Bytes) : Decidable (Malformed packet) := inferInstanceAs (Decidable (_ ∨ _))

def ingestPayload (r : FecReceiver) (packet : Bytes) (now : Int) : FecReceiver :=
  if Malformed packet then r
  else
    let seq := seqOf packet
    let blockStart := blockStartOf seq
    let dataLen := get ((packet.drop 7).take 2)
    { r with
      firstAt := if (r.firstAt.lookup blockStart).isSome then r.firstAt else r.firstAt.insert blockStart now
      received :=
        if seq - blockStart < fecK ∧ dataLen + 9 ≤ packet.length then
          r.received.insert seq ((packet.drop 9).take dataLen)
        else r.received }

def ingestShard (r : FecReceiver) (packet : Bytes) : FecReceiver :=
  if Malformed packet then r else { r with dec := r.dec.decodeFEC packet }

def ingest (r : FecReceiver) (packet : Bytes) (now : Int) : FecReceiver :=
  (r.ingestPayload packet now).ingestShard packet

def ingestAll (r : FecReceiver) (packets : List (Bytes × Int)) : FecReceiver :=
  packets.foldl (fun r e => r.ingest e.1 e.2) r

/-- The blocks that `sweep` delivers: those with all payloads, and those that have waited. -/
def due (r : FecReceiver) (now : Int) : List Nat :=
  (r.firstAt.entries.filter fun e =>
    ((List.range fecK).countP fun i => (r.received.lookup (seqAt e.1 i)).isSome) = fecK ∨ fecBlockWait ≤ now - e.2).map
    fun e => e.1

def takeDue (r : FecReceiver) (blocks : List Nat) : FecReceiver :=
  { r with firstAt := blocks.foldl (fun m bs => m.erase bs) r.firstAt }

/-! The parts of `deliverBlock`. -/

def missing (r : FecReceiver) (blockStart : Nat) : Bool :=
  (List.range fecK).any fun i => r.received.lookup (seqAt blockStart i) = none

/-- The recovered payloads go to the positions without one, in order. -/
def fillLoop (blockStart : Nat) : List Nat → (AList fun _ : Nat => Bytes) → List Bytes →
    AList fun _ : Nat => Bytes
  | [], received, _ => received
  | i :: is, received, recovered =>
    match received.lookup (seqAt blockStart i), recovered with
    | none, p :: recovered => fillLoop blockStart is (received.insert (seqAt blockStart i) p) recovered
    | _, _ => fillLoop blockStart is received recovered

def fill (r : FecReceiver) (blockStart : Nat) (recovered : List Bytes) : FecReceiver :=
  { r with received := fillLoop blockStart (List.range fecK) r.received recovered }

def payloads (r : FecReceiver) (blockStart : Nat) : List (Nat × Bytes) :=
  (List.range fecK).filterMap fun i =>
    match r.received.lookup (seqAt blockStart i) with
    | none => none
    | some p => if p = [] then none else some (i, p)

def dropPayloads (r : FecReceiver) (blockStart : Nat) : FecReceiver :=
  { r with
    received := (List.range (fecK + fecM)).foldl (fun m i => m.erase (seqAt blockStart i)) r.received }

def forget (r : FecReceiver) (blockStart : Nat) : FecReceiver := { r with dec := r.dec.forget blockStart }

/-- `deliverBlock`, without interruption: what it delivers. -/
def deliverBlock (rs : ReedSolomon) (r : FecReceiver) (blockStart : Nat) : List Bytes × FecReceiver :=
  let r := if r.missing blockStart then r.fill blockStart (r.dec.reconstruct rs blockStart) else r
  ((r.payloads blockStart).map Prod.snd, (r.dropPayloads blockStart).forget blockStart)

end FecReceiver
end Whispera
