import Whispera.Router
import Whispera.Session

/-! `core/relay/relay.go` between the header of a stream and the connection to its target, and `decodeAddr`
and `handlePayload` in `core/protocol/quic/datagram.go`. Each call of a dialer is recorded. -/

namespace Whispera
open Net BigEndian

inductive Network
  | tcp
  | udp
  deriving DecidableEq, Repr

def networkOf (proto : UInt8) : Network := if proto = 0x11 then .udp else .tcp

inductive Dialer
  | direct
  | upstream
  | outbound (tag : String)
  deriving DecidableEq, Repr

inductive Endpoint
  | addr (ip : IP)
  | name (host : List Char)
  deriving DecidableEq, Repr

structure Dial where
  dialer : Dialer
  network : Network
  endpoint : Endpoint
  port : UInt16
  deriving DecidableEq, Repr

def text (bs : Bytes) : List Char := bs.map fun b => Char.ofNat b.toNat

structure RelayServer where
  router : Option Engine := none
  upstream : Bool := false
  outboundDial : Bool := false

def firstTCPAddr (ips : List IP) (port : UInt16) : Option Addr :=
  match ips with
  | [] => none
  | ip :: _ => some (.tcp ip port.toNat [])

def preferIPv6 (ips : List IP) : List IP := (ips.filter fun ip => ip.to4 = none) ++ ips.filter fun ip => ip.to4 ≠ none

namespace RelayServer

def proxyDialer (s : RelayServer) : Dialer := if s.upstream then .upstream else .direct

/-- What `resolveProxyDialer` makes of the answer of the router; nothing if the target is blocked. -/
def verdict (s : RelayServer) (dest : Destination) : Option (Dialer × String) :=
  match dest.type with
  | .direct => some (.direct, "")
  | .block => none
  | _ => some (s.proxyDialer, dest.tag)

section
variable (lib : RouterLib)

/-- `found` is the answer of the resolver, if it gives one in time. -/
def targetIPs (host : List Char) (found : Option (List IP)) : List IP :=
  match lib.parseIP host with
  | some ip => [ip]
  | none => found.getD []

def routeIPs (s : RelayServer) (host : List Char) (found : Option (List IP)) : List IP :=
  match s.router with
  | none => []
  | some e => if e.routesOnAddress then targetIPs lib host found else []

def resolveProxyDialer (s : RelayServer) (network : Network) (port : UInt16) (ips : List IP) :
    Option (Dialer × String) × RelayServer :=
  match network, s.router with
  | .udp, _ => (some (.direct, ""), s)
  | .tcp, none => (some (s.proxyDialer, ""), s)
  | .tcp, some e =>
    let (dest, e') := e.route lib { dstAddr := firstTCPAddr ips port }
    (s.verdict dest, { s with router := some e' })

def endpoint (host : List Char) : Endpoint :=
  match lib.parseIP host with
  | some ip => .addr ip
  | none => .name host

def dialLoop (reach : Dial → Bool) (network : Network) (port : UInt16) : List IP → List Dial
  | [] => []
  | ip :: ips =>
    let d : Dial := { dialer := .direct, network, endpoint := .addr ip, port }
    d :: if reach d then [] else dialLoop reach network port ips

def dialTarget (reach : Dial → Bool) (dialer : Dialer) (network : Network) (host : List Char) (port : UInt16)
    (ips : List IP) : List Dial :=
  if dialer ≠ .direct ∨ lib.parseIP host ≠ none ∨ ips = [] then
    [{ dialer, network, endpoint := endpoint lib host, port }]
  else dialLoop reach network port (preferIPv6 ips)

def dialProxyTarget (s : RelayServer) (reach : Dial → Bool) (outboundTag : String) (dialer : Dialer) (network : Network)
    (host : List Char) (port : UInt16) (ips : List IP) : List Dial :=
  if outboundTag ≠ "" ∧ s.outboundDial then
    [{ dialer := .outbound outboundTag, network, endpoint := endpoint lib host, port }]
  else dialTarget lib reach dialer network host port ips

/-- The part that `handleProxyStream` and `serveStream` share. -/
def openTarget (s : RelayServer) (reach : Dial → Bool) (network : Network) (host : List Char) (port : UInt16)
    (found : Option (List IP)) : List Dial × RelayServer :=
  let ips := s.routeIPs lib host found
  match s.resolveProxyDialer lib network port ips with
  | (none, s') => ([], s')
  | (some (dialer, outboundTag), s') => (s'.dialProxyTarget lib reach outboundTag dialer network host port ips, s')

/-- `handleProxyStream`, after it has read the header. -/
def handleProxyStream (s : RelayServer) (reach : Dial → Bool) (h : ProxyStreamHeader) (found : Option (List IP)) :
    List Dial × RelayServer :=
  s.openTarget lib reach (networkOf h.proto) (text h.addr) (UInt16.ofNat h.port) found

/-- `muxHandler.serveStream`, after it has read the protocol byte: the destination is a name or an address. -/
def serveStream (s : RelayServer) (reach : Dial → Bool) (proto : UInt8) (fqdn : List Char) (addr : IP) (port : UInt16)
    (found : Option (List IP)) : List Dial × RelayServer :=
  s.openTarget lib reach (networkOf proto) (if fqdn = [] then addr.string else fqdn) port found

end
end RelayServer

inductive ClientStream
  | perFlow (h : ProxyStreamHeader)
  | mux (proto : UInt8) (fqdn : List Char) (addr : IP) (port : UInt16)

namespace ClientStream

def network : ClientStream → Network
  | perFlow h => networkOf h.proto
  | mux proto _ _ _ => networkOf proto

def host : ClientStream → List Char
  | perFlow h => text h.addr
  | mux _ fqdn addr _ => if fqdn = [] then addr.string else fqdn

def port : ClientStream → UInt16
  | perFlow h => UInt16.ofNat h.port
  | mux _ _ _ port => port

end ClientStream

def RelayServer.serve (lib : RouterLib) (s : RelayServer) (reach : Dial → Bool) (found : Option (List IP)) :
    ClientStream → List Dial × RelayServer
  | .perFlow h => s.handleProxyStream lib reach h found
  | .mux proto fqdn addr port => s.serveStream lib reach proto fqdn addr port found

def decodeAddr (b : Bytes) : Option (List Char × UInt16 × Bytes) :=
  match b with
  | [] => none
  | 0x01 :: rest =>
    if b.length < 7 then none
    else some (IP.string (rest.take 4), UInt16.ofNat (get ((rest.drop 4).take 2)), rest.drop 6)
  | 0x04 :: rest =>
    if b.length < 19 then none
    else some (IP.string (rest.take 16), UInt16.ofNat (get ((rest.drop 16).take 2)), rest.drop 18)
  | 0x03 :: rest =>
    match rest with
    | [] => none
    | len :: rest =>
      let l := len.toNat
      if l = 0 ∨ b.length < 2 + l + 2 then none
      else some (text (rest.take l), UInt16.ofNat (get ((rest.drop l).take 2)), rest.drop (l + 2))
  | _ :: _ => none

structure DatagramSession where
  targets : List (List Char) := []

/-- `handlePayload`: the target of a datagram is dialled unless the session has a connection to it. -/
def DatagramSession.handlePayload (lib : RouterLib) (s : DatagramSession) (reach : Dial → Bool) (payload : Bytes) :
    List Dial × DatagramSession :=
  match decodeAddr payload with
  | none => ([], s)
  | some (host, port, _) =>
    let key := joinHostPort host (Text.itoa port.toNat)
    if s.targets.contains key then ([], s)
    else
      let d : Dial := { dialer := .direct, network := .udp, endpoint := RelayServer.endpoint lib host, port }
      ([d], if reach d then { s with targets := key :: s.targets } else s)

end Whispera
