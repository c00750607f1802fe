import Whispera.YaDisk
import Whispera.AltAuth

/-! `yadiskDial` in `core/tunnel/selector.go` and its callers in `core/tunnel/datapath.go`, for a manager with
no other way to dial. -/

namespace Whispera
open YaDisk

/-- The disk with the server's transport, at 0, and the manager's, and the transports whose connections are
    parked. -/
structure DiskManager where
  disk : Disk
  idle : List Nat := []

namespace DiskManager

inductive Source
  | fresh
  | parked (i : Nat) (alive : Bool)
  deriving DecidableEq, Repr

/-- A call that dials has the random session identifier and the time of its login. -/
inductive Act
  | connect (sessionID : Block altTransportSessionIDLen) (now : Int) (park : Bool)
  | openStream (source : Source) (sessionID : Block altTransportSessionIDLen) (now : Int) (header : Bytes)
  | muxDial (sessionID : Block altTransportSessionIDLen) (now : Int)
  | park (i : Nat)
  | disk (act : Disk.Act)

def add (s : DiskManager) (t : Transport) : DiskManager :=
  { s with disk := { s.disk with transports := s.disk.transports ++ [t] } }

/-- A step on the disk. The connection of a transport of the manager is taken by the function of its dial
    alone. -/
def diskStep (s : DiskManager) : Disk.Act → Option DiskManager
  | .go (_ + 1) .accept => none
  | act => (s.disk.step act).map fun d => { s with disk := d }

section
variable (crypto : Crypto) (cfg : Config) (psk : Bytes)

def yadiskDial : Option Transport := (Transport.new cfg).start

/-- The function that `yadiskDial` returns, on its transport, and whether it returns a connection. -/
def call (t : Transport) (sessionID : Block altTransportSessionIDLen) (now : Int) : Option (Bool × Transport) :=
  (t.step .accept).bind fun t =>
    match sendAltTransportAuth crypto psk sessionID now with
    | none => (t.step .stop).map (false, ·)
    | some hdr => (t.step (.write hdr)).bind fun t => (t.step .offer).map (true, ·)

def openFresh (s : DiskManager) (t : Transport) (sessionID : Block altTransportSessionIDLen) (now : Int)
    (header : Bytes) : Option DiskManager :=
  (call crypto psk t sessionID now).bind fun r => if r.1 then (r.2.step (.write header)).map s.add else some (s.add r.2)

def step (s : DiskManager) (act : Act) : Option DiskManager :=
  match act with
  | .connect sessionID now park =>
    match yadiskDial cfg with
    | none => some s
    | some t => (call crypto psk t sessionID now).bind fun r =>
        if r.1 && park then some { s.add r.2 with idle := s.idle ++ [s.disk.transports.length] }
        else (r.2.step .stop).map s.add
  | .openStream source sessionID now header =>
    match yadiskDial cfg with
    | none => some s
    | some t =>
      match source with
      | .fresh => s.openFresh crypto psk t sessionID now header
      | .parked i alive =>
        if i ∉ s.idle then none
        else
          let s := { s with idle := s.idle.erase i }
          -- the new transport is there already, and is left alone if the parked connection is alive
          if alive then (s.disk.step (.go i (.write header))).map fun d => { s with disk := d }.add t
          else (s.disk.step (.go i .writeStop)).bind fun d => openFresh crypto psk { s with
            disk := d } t sessionID now header
  | .muxDial sessionID now =>
    match yadiskDial cfg with
    | none => some s
    | some t => (call crypto psk t sessionID now).map fun r => s.add r.2
  | .park i =>
    match s.disk.transports[i]? with
    | some t => if t.connCh = true ∨ t.config.serverMode = true then none else some { s with idle := s.idle ++ [i] }
    | none => none
  | .disk act => s.diskStep act

end

end DiskManager

end Whispera
