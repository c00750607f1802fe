import Whispera.Framed

/-! The reading side of the session of `core/relay/relay.go`, and the header of `core/tunnel/datapath.go`. -/

namespace Whispera
open BigEndian Reader

def spliceProtoBit : UInt8 := 0x80
def torrentProtoBit : UInt8 := 0x40
def keepAliveProtoBit : UInt8 := 0x20

/-- The protocol byte without the bits that say how the stream is carried. -/
def protoOf (proto : UInt8) : UInt8 := proto &&& ~~~(spliceProtoBit ||| keepAliveProtoBit ||| torrentProtoBit)

def streamHeader (proto : UInt8) (keepAlive splice : Bool) (addr : Bytes) (port : Nat) : Bytes :=
  let hdrProto := proto &&& ~~~spliceProtoBit
  let hdrProto := if keepAlive then hdrProto ||| keepAliveProtoBit else hdrProto
  let hdrProto := if splice then hdrProto ||| spliceProtoBit else hdrProto
  hdrProto :: (putUint16 addr.length ++ (addr ++ putUint16 port))

structure ProxyStreamHeader where
  proto : UInt8
  splice : Bool
  keepAlive : Bool
  torrent : Bool
  addr : Bytes
  port : Nat
  deriving DecidableEq

/-- `readProxyStreamHeader`: the loop over the fillers before the header. Every round takes bytes off the
    transport. -/
def readProxyStreamHeaderLoop (spliceEnabled : Bool) : Nat → Stream → Option ProxyStreamHeader × Stream
  | 0, s => (none, s)
  | fuel + 1, s =>
    match readFull Stream.read 3 s with
    | (_, some _, s) => (none, s)
    | (hdr, none, s) =>
      if hdr = [0x17, 0x03, 0x03] then
        match skipFillerRecord s with
        | (false, s) => (none, s)
        | (true, s) => readProxyStreamHeaderLoop spliceEnabled fuel s
      else
        let addrLen := get (hdr.drop 1)
        if addrLen = 0 ∨ 255 < addrLen then (none, s)
        else
          match readFull Stream.read (addrLen + 2) s with
          | (_, some _, s) => (none, s)
          | (rest, none, s) =>
            let proto := hdr.headD 0
            (some { proto := protoOf proto
                    splice := proto &&& spliceProtoBit ≠ 0 ∧ spliceEnabled
                    keepAlive := proto &&& keepAliveProtoBit ≠ 0
                    torrent := proto &&& torrentProtoBit ≠ 0
                    addr := rest.take addrLen
                    port := get (rest.drop addrLen) }, s)

def readProxyStreamHeader (spliceEnabled : Bool) (s : Stream) : Option ProxyStreamHeader × Stream :=
  readProxyStreamHeaderLoop spliceEnabled (s.bytes.length + 1) s

/-- What the server has read of one stream, and what was unread on the connection when its end came. -/
structure ServedStream where
  header : ProxyStreamHeader
  payload : Bytes
  left : Bytes

/-- The loop of `runSession`, while the targets keep up: a header, then a new framed connection that is read
    to its end in buffers of the sizes `bufs`. A stream without keep-alive takes the rest of the connection.
    The framed connections write to `k`. -/
def runSession (spliceEnabled : Bool) (bufs : Nat → Nat → Nat) (k : Sink) : Nat → Stream → List ServedStream × Stream
  | 0, s => ([], s)
  | rounds + 1, s =>
    match readProxyStreamHeader spliceEnabled s with
    | (none, s) => ([], s)
    | (some header, s) =>
      if header.keepAlive then
        let (payload, _, framed) := reads FramedConn.read (bufs 0) (s.bytes.length + 1) { inp := s, out := k }
        let served := { header, payload, left := framed.inp.bytes }
        if framed.done then
          let (more, s) := runSession spliceEnabled (fun i => bufs (i + 1)) k rounds framed.inp
          (served :: more, s)
        else ([served], framed.inp)
      else
        let (payload, _, s) := reads Stream.read (bufs 0) (s.bytes.length + 1) s
        ([{ header, payload, left := s.bytes }], s)

end Whispera
