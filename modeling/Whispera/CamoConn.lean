import Mathlib.Data.List.AList
import Whispera.Selector

/-! `camoConn` in `core/protocol/quic/camouflage.go`. Each part of the loop of `ReadFrom` between two locks is
a step. Peers go by the texts of their addresses; the clock may show anything. -/

namespace Whispera

def quicCamoTrustWindow : Int := (windowTol * 2 + 1) * windowSeconds * 1000000000
def quicCamoIdleTimeout : Int := 2 * 60 * 1000000000
def quicCamoCleanupEvery : Int := 60 * 1000000000

structure ParsedInitial where
  sni : String
  random : Bytes
  keyShare : Bytes
  deriving DecidableEq, Repr

/-- A packet that the reader has taken from the socket, with the time at which its peer was looked up. -/
structure CamoPacket where
  key : String
  data : Bytes
  checkedAt : Int
  deriving DecidableEq, Repr

/-- A packet was returned and its peer's trust refreshed, it authenticated its peer, or it went elsewhere. -/
inductive CamoVerdict
  | returned (refreshed : Int)
  | authenticated (since : Int)
  | diverted
  deriving DecidableEq, Repr

inductive CamoPc
  | waiting
  | inspecting (p : CamoPacket)
  | accepted (p : CamoPacket)
  | refused (p : CamoPacket) (sni : String)
  | dialled (p : CamoPacket) (lastActive : Int)
  | forwarding (p : CamoPacket)
  deriving DecidableEq, Repr

/-- `camoConn`. Besides, what became of every packet, and which of them, by their places there, `ReadFrom` has
    returned. -/
structure CamoConn where
  realPeers : AList fun _ : String => Int := ∅
  decoySessions : AList fun _ : String => Int := ∅
  lastClean : Int := 0
  pc : CamoPc := .waiting
  returned : List Nat := []
  handled : List (CamoPacket × CamoVerdict) := []

def newCamoConn (now : Int) : CamoConn := { lastClean := now }

namespace CamoConn

inductive Act
  | read (key : String) (data : Bytes) (now refresh clean : Int) (idleAt : String → Int)
  | inspect (selects : Bool) (keys : List Bytes) (unix : Int)
  | trust (now : Int)
  | divert (allowed : Bool) (decoyAddr : String → String) (dialled : Option Int)
  | store
  | forward (now : Int)
  | pump (key : String) (now : Int)

/-- `cleanupLocked`; `idleAt` is what the clock shows when a decoy session is looked at. -/
def cleanupLocked (s : CamoConn) (now : Int) (idleAt : String → Int) : CamoConn :=
  if now - s.lastClean < quicCamoCleanupEvery then s
  else
    { s with
      lastClean := now
      realPeers :=
        { entries := s.realPeers.entries.filter fun e => ¬now > e.2
          nodupKeys := s.realPeers.nodupKeys.sublist List.filter_sublist }
      decoySessions :=
        { entries := s.decoySessions.entries.filter fun e => ¬idleAt e.1 - e.2 > quicCamoIdleTimeout
          nodupKeys := s.decoySessions.nodupKeys.sublist List.filter_sublist } }

/-- The end of the first locked part of `ReadFrom`, for a peer that is not trusted. -/
def lookupDecoy (s : CamoConn) (p : CamoPacket) (clean : Int) (idleAt : String → Int) : CamoConn :=
  { s.cleanupLocked clean idleAt with
    pc := if (s.decoySessions.lookup p.key).isSome then .forwarding p else .inspecting p }

/-- The first locked part of `ReadFrom`. -/
def check (s : CamoConn) (p : CamoPacket) (refresh clean : Int) (idleAt : String → Int) : CamoConn :=
  match s.realPeers.lookup p.key with
  | some exp =>
    if p.checkedAt < exp then
      { s with
        realPeers := s.realPeers.insert p.key (refresh + quicCamoTrustWindow)
        returned := s.handled.length :: s.returned
        handled := s.handled ++ [(p, .returned refresh)] }
    else { s with realPeers := s.realPeers.erase p.key }.lookupDecoy p clean idleAt
  | none => s.lookupDecoy p clean idleAt

def finish (s : CamoConn) (p : CamoPacket) (v : CamoVerdict) : CamoConn :=
  { s with pc := .waiting, handled := s.handled ++ [(p, v)] }

variable (crypto : Crypto) (parse : Bytes → Option ParsedInitial)

/-- `authenticate`; `selects` is what `bySelector` says of the packet. -/
def authenticate (parsed : ParsedInitial) (selects : Bool) (keys : List Bytes) (unix : Int) : Bool :=
  selects || markerMatches crypto keys parsed.random parsed.keyShare unix

def step (s : CamoConn) : Act → Option CamoConn
  | .read key data now refresh clean idleAt =>
    match s.pc with
    | .waiting => some (s.check { key, data, checkedAt := now } refresh clean idleAt)
    | _ => none
  | .inspect selects keys unix =>
    match s.pc with
    | .inspecting p =>
      match parse p.data with
      | some parsed =>
        some { s with
          pc := if authenticate crypto parsed selects keys unix then .accepted p else .refused p parsed.sni }
      | none => some { s with pc := .refused p "" }
    | _ => none
  | .trust now =>
    match s.pc with
    | .accepted p =>
      some ({ s with realPeers := s.realPeers.insert p.key (now + quicCamoTrustWindow) }.finish p (.authenticated now))
    | _ => none
  | .divert allowed decoyAddr dialled =>
    match s.pc with
    | .refused p sni =>
      if ¬allowed ∨ decoyAddr sni = "" then some (s.finish p .diverted)
      else
        match dialled with
        | none => some (s.finish p .diverted)
        | some lastActive => some { s with pc := .dialled p lastActive }
    | _ => none
  | .store =>
    match s.pc with
    | .dialled p lastActive =>
      some { s with decoySessions := s.decoySessions.insert p.key lastActive, pc := .forwarding p }
    | _ => none
  | .forward now =>
    match s.pc with
    | .forwarding p => some ({ s with decoySessions := s.decoySessions.replace p.key now }.finish p .diverted)
    | _ => none
  | .pump key now => some { s with decoySessions := s.decoySessions.replace key now }

end CamoConn
end Whispera
