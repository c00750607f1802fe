import Whispera.Fec
import Whispera.Lib.Slice

/-! `core/protocol/quic/fec.go` and `fecSender`, with the buffers that the encoder takes from a pool.
`FecSender` has byte strings. -/

namespace Whispera
open BigEndian Exec

def packetPoolSize : Nat := 2048

/-- A buffer of the pool: neither `New` nor `putPacketBuf` lets a smaller one in. -/
structure PoolBuf where
  buf : Slice UInt8
  big : packetPoolSize ≤ buf.cap

/-- `packetPool`. Other encoders use the pool too, so any buffer that a pool can hold may come, whatever has
    been put in. -/
structure PacketPool where
  gets : Nat → PoolBuf
  drawn : Nat := 0
  puts : List PoolBuf := []

namespace PacketPool

def getPacketBuf (pool : PacketPool) (size : Nat) : Exec (Slice UInt8 × PacketPool) :=
  let bp := pool.gets pool.drawn
  let pool := { pool with drawn := pool.drawn + 1 }
  if bp.buf.cap < size then ret (.ofList (List.replicate size 0), { pool with puts := pool.puts ++ [bp] })
  else bp.buf.upTo size >>= fun buf => ret (buf, pool)

def putPacketBuf (pool : PacketPool) (b : Slice UInt8) : PacketPool :=
  if h : b.cap < packetPoolSize then pool
  else { pool with puts := pool.puts ++ [⟨b.resized b.cap (Nat.le_refl _), Nat.le_of_not_lt h⟩] }

end PacketPool

def SameLength (shards : List Bytes) : Prop := ∀ s ∈ shards, ∀ t ∈ shards, s.length = t.length

instance (shards : List Bytes) : Decidable (SameLength shards) :=
  inferInstanceAs (Decidable (∀ s ∈ shards, _))

/-- The library's encoder. Calls of `Encode` may fail, and do if the shards differ in length. -/
structure RsEncoder where
  code : ReedSolomon
  fails : Nat → Bool

def RsEncoder.encode (enc : RsEncoder) (call : Nat) (shards : List Bytes) : Option (List Bytes) :=
  if enc.fails call ∨ ¬SameLength shards then none else some (enc.code.parity (shards.take fecK))

def shardAt (shard : Option (Slice UInt8)) : Slice UInt8 := shard.getD (.ofList [])

/-- `FECEncoder` with its table of shards, the pool, and the shards that `Encode` has been called with. -/
structure PoolEncoder where
  enc : RsEncoder
  pool : PacketPool
  shards : List (Option (Slice UInt8)) := List.replicate (fecK + fecM) none
  shardSize : Nat := 0
  idx : Nat := 0
  encoded : List (List Bytes) := []

def putHeader (buf : Slice UInt8) (seqNum : Nat) : Exec (Slice UInt8) := do
  let buf ← buf.store 0 markerFEC
  let buf ← buf.copyAt 1 5 (put 4 seqNum)
  let buf ← buf.store 5 (UInt8.ofNat fecK)
  buf.store 6 (UInt8.ofNat fecM)

namespace PoolEncoder

def encodeFEC (fe : PoolEncoder) (data : Bytes) (seqNum : Nat) : Exec (Slice UInt8 × PoolEncoder) := do
  let rsShardLen := 2 + data.length
  let totalLen := 7 + rsShardLen
  let (buf, pool) ← fe.pool.getPacketBuf totalLen
  let buf ← buf.upTo totalLen
  let buf ← putHeader buf seqNum
  let buf ← buf.copyAt 7 9 (putUint16 data.length)
  let buf ← buf.copyAt 9 buf.len data
  let (shardBuf, pool) ← pool.getPacketBuf rsShardLen
  let shardBuf ← shardBuf.upTo rsShardLen
  let shard ← buf.part 7 (7 + rsShardLen)
  let shardBuf ← shardBuf.copyAt 0 shardBuf.len shard
  let shards ← modify fe.shards fe.idx fun _ => some shardBuf
  ret (buf, { fe with pool, shards, shardSize := max fe.shardSize rsShardLen, idx := fe.idx + 1 })

/-- Zeros from the end of a shard up to the length of the longest one, in the shard's own buffer. -/
def extend (shard : Slice UInt8) (size : Nat) : Exec (Slice UInt8) := do
  let newShard ← shard.upTo size
  (List.range (size - shard.len)).foldlM (fun newShard j => newShard.store (shard.len + j) 0) newShard

def extendShard (size : Nat) (shards : List (Option (Slice UInt8))) (i : Nat) : Exec (List (Option (Slice UInt8))) := do
  let shard ← index shards i
  if (shardAt shard).len < size then
    let newShard ← extend (shardAt shard) size
    modify shards i fun _ => some newShard
  else ret shards

def addParity (size : Nat) (st : List (Option (Slice UInt8)) × PacketPool) (i : Nat) :
    Exec (List (Option (Slice UInt8)) × PacketPool) := do
  let (buf, pool) ← st.2.getPacketBuf size
  let buf ← buf.upTo size
  let shards ← modify st.1 (fecK + i : Nat) fun _ => some buf
  ret (shards, pool)

def writeParity (parity : List Bytes) (shards : List (Option (Slice UInt8))) (i : Nat) :
    Exec (List (Option (Slice UInt8))) := do
  let shard ← index shards (fecK + i : Nat)
  let shard ← (shardAt shard).copyAt 0 (shardAt shard).len (parity.getD i [])
  modify shards (fecK + i : Nat) fun _ => some shard

def parityPacket (shards : List (Option (Slice UInt8))) (baseSeq : Nat) (st : List (Slice UInt8) × PacketPool)
    (i : Nat) :
    Exec (List (Slice UInt8) × PacketPool) := do
  let parityData ← index shards (fecK + i : Nat)
  let totalLen := 7 + (shardAt parityData).len
  let (buf, pool) ← st.2.getPacketBuf totalLen
  let buf ← buf.upTo totalLen
  let buf ← putHeader buf (seqAt baseSeq i)
  let buf ← buf.copyAt 7 buf.len (shardAt parityData).elems
  ret (st.1 ++ [buf], pool)

def releaseShard (fe : PoolEncoder) (i : Nat) : Exec PoolEncoder := do
  let shard ← index fe.shards i
  match shard with
  | some b =>
    let shards ← modify fe.shards i fun _ => none
    ret { fe with pool := fe.pool.putPacketBuf b, shards }
  | none => ret fe

def reset (fe : PoolEncoder) : Exec PoolEncoder := do
  let fe ← (List.range fe.shards.length).foldlM releaseShard fe
  ret { fe with idx := 0, shardSize := 0 }

def finish (fe : PoolEncoder) (baseSeq : Nat) : Option (List Bytes) → Exec (List (Slice UInt8) × PoolEncoder)
  | none => do
    let fe ← fe.reset
    ret ([], fe)
  | some parity => do
    let shards ← (List.range fecM).foldlM (writeParity parity) fe.shards
    let (packets, pool) ← (List.range fecM).foldlM (parityPacket shards baseSeq) ([], fe.pool)
    let fe ← (List.range (fecK + fecM)).foldlM releaseShard { fe with shards, pool }
    ret (packets, { fe with idx := 0, shardSize := 0 })

def getParityPackets (fe : PoolEncoder) (baseSeq : Nat) : Exec (List (Slice UInt8) × PoolEncoder) :=
  if fe.idx < fecK then ret ([], fe)
  else do
    let shards ← (List.range fecK).foldlM (extendShard fe.shardSize) fe.shards
    let (shards, pool) ← (List.range fecM).foldlM (addParity fe.shardSize) (shards, fe.pool)
    let given := shards.map fun shard => (shardAt shard).elems
    finish { fe with shards, pool, encoded := fe.encoded ++ [given] } baseSeq (fe.enc.encode fe.encoded.length given)

end PoolEncoder

structure PoolSender where
  enc : PoolEncoder
  blockStart : Nat := 0
  cnt : Nat := 0
  lastAt : Int := 0

namespace PoolSender

def encodeNext (s : PoolSender) (payload : Bytes) : Exec (Bytes × PoolSender) := do
  let (buf, enc) ← s.enc.encodeFEC payload (seqAt s.blockStart s.cnt)
  ret (buf.elems, { s with enc, cnt := s.cnt + 1 })

def fillBlock : Nat → PoolSender → Exec (List Bytes × PoolSender)
  | 0, s => ret ([], s)
  | n + 1, s => do
    let (packet, s) ← s.encodeNext []
    let (packets, s) ← fillBlock n s
    ret (packet :: packets, s)

def finishBlock (s : PoolSender) : Exec (List Bytes × PoolSender) := do
  let (packets, enc) ← s.enc.getParityPackets (seqAt s.blockStart fecK)
  ret (packets.map Slice.elems, { s with enc, blockStart := seqAt s.blockStart (fecK + fecM), cnt := 0 })

def flushLocked (s : PoolSender) : Exec (List Bytes × PoolSender) :=
  if s.cnt = 0 then ret ([], s)
  else do
    let (filled, s) ← fillBlock (fecK - s.cnt) s
    let (parity, s) ← s.finishBlock
    ret (filled ++ parity, s)

def flushIdle (s : PoolSender) (since : Int) : Exec (List Bytes × PoolSender) :=
  if 0 < s.cnt ∧ fecBlockWait ≤ since - s.lastAt then s.flushLocked else ret ([], s)

def place (s : PoolSender) (payload : Bytes) (now : Int) : Exec (List Bytes × PoolSender) := do
  let (packet, s) ← { s with lastAt := now }.encodeNext payload
  if s.cnt = fecK then
    let (parity, s) ← s.finishBlock
    ret (packet :: parity, s)
  else ret ([packet], s)

def encode (s : PoolSender) (payload : Bytes) (since now : Int) : Exec (List Bytes × PoolSender) :=
  if datagramMaxProtected < payload.length then ret ([markerRaw :: payload], s)
  else do
    let (flushed, s) ← s.flushIdle since
    let (packets, s) ← s.place payload now
    ret (flushed ++ packets, s)

def encodeAll (s : PoolSender) : List Send → Exec (List (List Bytes) × PoolSender)
  | [] => ret ([], s)
  | x :: sends => do
    let (packets, s) ← s.encode x.payload x.since x.now
    let (rest, s) ← s.encodeAll sends
    ret (packets :: rest, s)

def start (enc : RsEncoder) (pool : PacketPool) : PoolSender := { enc := { enc, pool } }

end PoolSender
end Whispera
