import Whispera.Lib.Bytes
import Whispera.Lib.ParseIP
import Whispera.Lib.Reader

/-! `sendStream` and `pumpUDPStreamReplies` of `core/socks5/module.go`, and `relayUDP` of
`core/relay/relay.go`. -/

namespace Whispera
open BigEndian Reader Net

def sendStream (payload : Bytes) : Bytes :=
  UInt8.ofNat (payload.length >>> 8) :: UInt8.ofNat payload.length :: payload

/-- The largest payload that a buffer of `udpCopyBufPool` has room for, behind the two bytes of the length. -/
def udpCopyBufData : Nat := 65535

/-- The loop of `relayUDP` to the target: the datagrams that it writes, and the error with which it ends. -/
def relayUp : Nat → Stream → Option (List Bytes × Err)
  | 0, _ => none
  | fuel + 1, s =>
    match readFull Stream.read 2 s with
    | (_, some e, _) => some ([], e)
    | (hdr, none, s) =>
      if get hdr = 0 ∨ udpCopyBufData < get hdr then some ([], .text s!"invalid UDP frame size {get hdr}")
      else
        match readFull Stream.read (get hdr) s with
        | (_, some e, _) => some ([], e)
        | (data, none, s) => (relayUp fuel s).map fun r => (data :: r.1, r.2)

/-- What the loop of `relayUDP` from the target to the stream writes, for the datagrams of the target. -/
def relayDown (datagrams : List Bytes) : Bytes :=
  datagrams.flatMap fun d =>
    let data := d.take udpCopyBufData
    if 0 < data.length then putUint16 data.length ++ data else []

/-- `replyHeader`, for a host by its bytes. -/
def replyHeader (host : Bytes) (port : UInt16) : Bytes :=
  match parseIP (host.map fun b => Char.ofNat b.toNat) with
  | some ip =>
    match ip.to4 with
    | some ip4 => [0, 0, 0, 1] ++ ip4 ++ putUint16 port.toNat
    | none => [0, 0, 0, 4] ++ ip ++ putUint16 port.toNat
  | none => [0, 0, 0, 3, UInt8.ofNat host.length] ++ host ++ putUint16 port.toNat

/-- What `sendUDPReply` sends: nothing, if `WriteToUDP` finds the packet longer than the socket's limit. -/
def sendUDPReply (limit : Nat) (hdr payload : Bytes) : List Bytes :=
  if (hdr ++ payload).length ≤ limit then [hdr ++ payload] else []

/-- The loop of `pumpUDPStreamReplies`: the packets that it sends to the client. -/
def pumpUDPStreamReplies (limit : Nat) (hdr : Bytes) : Nat → Stream → Option (List Bytes)
  | 0, _ => none
  | fuel + 1, s =>
    match readFull Stream.read 2 s with
    | (_, some _, _) => some []
    | (size, none, s) =>
      if get size = 0 then some []
      else
        match readFull Stream.read (get size) s with
        | (_, some _, _) => some []
        | (data, none, s) => (pumpUDPStreamReplies limit hdr fuel s).map fun r => sendUDPReply limit hdr data ++ r

end Whispera
