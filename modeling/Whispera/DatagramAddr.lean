import Whispera.Lib.ParseIP
import Whispera.ReplyTargets
import Whispera.UdpFrames

/-! `appendAddr` and `parseIPFast` of `core/protocol/quic/datagram.go`, and the UDP header of
`core/socks5/module.go`. Texts have a character for each byte. -/

namespace Whispera
open BigEndian Net

def hostBytes (host : List Char) : Bytes := host.map fun c => UInt8.ofNat c.toNat

/-- The loop of `parseIPFast`: whether it has met digits and a colon, or nothing, if the text is taken for a
    name. -/
def scanHost (digits colon : Bool) : List Char → Option (Bool × Bool)
  | [] => some (digits, colon)
  | c :: host =>
    if c = ':' then scanHost digits true host
    else if c = '.' then scanHost digits colon host
    else if isDecimal c then scanHost true colon host
    else if isHex c then if colon then scanHost digits colon host else none
    else none

def parseIPFast (host : List Char) : Option IP :=
  match scanHost false false host with
  | none => none
  | some (digits, colon) => if digits = false ∧ colon = false then none else parseIP host

def encodeAddr (host : List Char) (port : UInt16) : Bytes :=
  (match parseIPFast host with
    | some ip =>
      match ip.to4 with
      | some ip4 => 0x01 :: ip4
      | none => 0x04 :: ip
    | none => 0x03 :: UInt8.ofNat host.length :: hostBytes host) ++ putUint16 port.toNat

/-- The key under which the client looks up the answer `data`: `pumpTargetResponses` encodes the address that
    the server decoded. -/
def echoKey (host : List Char) (port : UInt16) (payload data : Bytes) : Option (List Char) :=
  (decodeAddr (encodeAddr host port ++ payload)).bind fun (host, port, _) =>
    (decodeAddr (encodeAddr host port ++ data)).map fun (host, port, _) => ReplyTarget.key ⟨host, port⟩

def parseUDPHeader : Bytes → Except String (List Char × UInt16 × Bytes)
  | _ :: _ :: _ :: 0x01 :: rest =>
    if rest.length < 6 then .error "IPv4 packet too short"
    else .ok (IP.string (rest.take 4), UInt16.ofNat (get ((rest.drop 4).take 2)), rest.drop 6)
  | _ :: _ :: _ :: 0x04 :: rest =>
    if rest.length < 18 then .error "IPv6 packet too short"
    else .ok (IP.string (rest.take 16), UInt16.ofNat (get ((rest.drop 16).take 2)), rest.drop 18)
  | _ :: _ :: _ :: 0x03 :: dl :: rest =>
    if rest.length < dl.toNat + 2 then .error "domain packet too short"
    else .ok (text (rest.take dl.toNat), UInt16.ofNat (get ((rest.drop dl.toNat).take 2)), rest.drop (dl.toNat + 2))
  | [_, _, _, 0x03] => .error "domain packet too short"
  | _ :: _ :: _ :: atyp :: _ => .error ("unsupported ATYP 0x" ++ String.ofList (hexByte atyp))
  | data => .error s!"packet too short ({data.length} bytes)"

def buildUDPReply (host : List Char) (port : UInt16) (payload : Bytes) : Bytes :=
  replyHeader (hostBytes host) port ++ payload

end Whispera
