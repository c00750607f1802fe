import Whispera.Token
import Whispera.Lib.Reader

/-! `sendAltTransportAuth` in `core/tunnel/selector.go`, the accept loop in `app/server/transport.go`, and
`app/server/conn_limiter.go`. -/

namespace Whispera
open Reader BigEndian

structure AltLogin where
  sessionID : Bytes
  token : Bytes
  deriving DecidableEq, Repr

def altTransportSessionIDLen : Nat := 8

def AltLogin.header (l : AltLogin) : Bytes :=
  UInt8.ofNat l.sessionID.length :: (l.sessionID ++ (putUint16 l.token.length ++ l.token))

section
variable (crypto : Crypto)

/-- `sendAltTransportAuth`: what is written, if there is a key. The session identifier is random. -/
def sendAltTransportAuth (psk : Bytes) (sessionID : Block altTransportSessionIDLen) (now : Int) : Option Bytes :=
  if psk.length ≠ 32 then none
  else some (AltLogin.header ⟨sessionID.val, authToken crypto psk (now.tdiv authWindowSeconds) sessionID.val⟩)

def readNew {σ : Type} (read : Read σ) (n : Nat) (s : σ) : Option (Bytes × σ) :=
  match readFull read n s with
  | (data, none, s) => some (data, s)
  | (_, some _, _) => none

/-- What `verifyAltTransportAuth` reads. The deadline is among the errors of the connection. -/
def readAltLogin {σ : Type} (read : Read σ) (s : σ) : Option (AltLogin × σ) := do
  let (sidLen, s) ← readNew read 1 s
  if get sidLen = 0 ∨ get sidLen > 64 then none
  else
    let (sessionID, s) ← readNew read (get sidLen) s
    let (tokLen, s) ← readNew read 2 s
    if get tokLen = 0 ∨ get tokLen > 256 then none
    else
      let (token, s) ← readNew read (get tokLen) s
      some (⟨sessionID, token⟩, s)

/-- The body of the loop over the users: the text of a user's key, and the clock as `VerifyAuthToken` reads
    it. -/
def AltLogin.passes (l : AltLogin) (check : Bytes × Int64) : Bool :=
  match Base64.decodeStd check.1 with
  | none => false
  | some psk => psk.length = 32 && verifyAuthToken crypto psk l.token l.sessionID check.2.toInt

structure AltAcceptance where
  login : AltLogin
  time : Int64
  deriving DecidableEq, Repr

/-- `verifyAltTransportAuth`: whether the token is good, and for what it was answered. The users come in the
    order of the iteration. -/
def verifyAltTransportAuth {σ : Type} (read : Read σ) (users : List (Bytes × Int64)) (s : σ) : Option AltAcceptance :=
  match readAltLogin read s with
  | none => none
  | some (login, _) => (users.find? (login.passes crypto)).map fun check => ⟨login, check.2⟩

end

def maxTCPConnsPerIP : Nat := 200

inductive AltPc
  | verifying
  | serving
  | closed
  deriving DecidableEq, Repr

structure AltConn where
  host : String
  pc : AltPc
  deriving DecidableEq, Repr

/-- `connLimiterPerIP`, the connections with a slot, and the logins that were accepted, in order. -/
structure AltServer where
  perIP : String → Nat := fun _ => 0
  conns : List AltConn := []
  accepted : List AltAcceptance := []

namespace AltServer

def setConn (s : AltServer) (i : Nat) (c : AltConn) : AltServer := { s with conns := s.conns.set i c }

/-- `acquireConnSlot`. -/
def acquire (s : AltServer) (host : String) : Option AltServer :=
  if s.perIP host ≥ maxTCPConnsPerIP then none
  else some { s with perIP := fun h => if h = host then s.perIP h + 1 else s.perIP h }

def release (s : AltServer) (host : String) : AltServer :=
  { s with perIP := fun h => if h = host then s.perIP h - 1 else s.perIP h }

/-- A verification uses nothing that another one changes, so it is one step. -/
inductive Act
  | accept (host : String)
  | verify (i : Nat) (conn : Stream) (users : List (Bytes × Int64))
  | finish (i : Nat)

def step (crypto : Crypto) (relay : Bool) (s : AltServer) : Act → Option AltServer
  | .accept host =>
    match s.acquire host with
    | none => some s
    | some s => some { s with conns := s.conns ++ [⟨host, .verifying⟩] }
  | .verify i conn users =>
    match s.conns[i]? with
    | some ⟨host, .verifying⟩ =>
      match verifyAltTransportAuth crypto Stream.read users conn with
      | none => some ((s.release host).setConn i ⟨host, .closed⟩)
      | some a =>
        let s := { s with accepted := s.accepted ++ [a] }
        some (if relay then s.setConn i ⟨host, .serving⟩ else (s.release host).setConn i ⟨host, .closed⟩)
    | _ => none
  | .finish i =>
    match s.conns[i]? with
    | some ⟨host, .serving⟩ => some ((s.release host).setConn i ⟨host, .closed⟩)
    | _ => none

end AltServer

end Whispera
