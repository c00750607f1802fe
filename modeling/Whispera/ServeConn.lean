import Whispera.KeyLimits
import Whispera.Lib.Net

/-! `serveWhisperaConn` in `app/server/transport.go`. Each connection of a session has an admission and a
release of its own; the server registers no closer. -/

namespace Whispera
open Net Table

inductive ConnPhase
  | serving
  | ended
  | released
  deriving DecidableEq, Repr

structure ServedConn where
  user : KeyID
  sid : SessionID
  phase : ConnPhase := .serving
  torrent : Bool := false
  deriving DecidableEq, Repr

structure ConnServer where
  limiter : KeyLimiter
  conns : List ServedConn := []
  denied : List (DenyReason × String) := []

namespace ConnServer

inductive Act
  | accept (user : KeyID) (sessionID : Bytes) (remoteIP : List Char) (now : Int)
  | torrent (i : Nat)
  | finish (i : Nat)
  | release (i : Nat)
  | gcExpired (now : Int)
  | next (i : Nat) (order : List ((KeyID × SessionID) × Int))
  deriving DecidableEq, Repr

def accept (s : ConnServer) (user : KeyID) (sessionID : Bytes) (remoteIP : List Char) (now : Int) : ConnServer :=
  let sid := sessionID.flatMap hexByte
  let r := s.limiter.manager.tryAdmit user sid remoteIP now
  match r.1 with
  | some denial => { s with limiter.manager := r.2, denied := s.denied ++ [denial] }
  | none => { s with limiter.manager := r.2, conns := s.conns ++ [{ user := user, sid := sid }] }

def connIn (s : ConnServer) (i : Nat) (phase : ConnPhase) : Option ServedConn :=
  (s.conns[i]?).filter fun c => c.phase == phase

def step (s : ConnServer) : Act → Option ConnServer
  | .accept user sessionID remoteIP now => some (s.accept user sessionID remoteIP now)
  | .torrent i => (s.connIn i .serving).map fun c =>
    { s with
      limiter.manager := s.limiter.manager.markTorrent c.user c.sid
      conns := s.conns.set i { c with torrent := true } }
  | .finish i => (s.connIn i .serving).map fun c => { s with conns := s.conns.set i { c with phase := .ended } }
  | .release i => (s.connIn i .ended).map fun c =>
    { s with limiter := s.limiter.release c.user c.sid, conns := s.conns.set i { c with phase := .released } }
  | .gcExpired now => some { s with limiter := s.limiter.gcExpired now }
  | .next i order => (s.limiter.step (.next i order)).map fun limiter => { s with limiter := limiter }

def start (defaults : KeyLimit) (keyLimits : Map KeyID KeyLimit) : ConnServer where
  limiter := { manager := { defaultLimits := defaults, keyLimits := keyLimits } }

end ConnServer
end Whispera
