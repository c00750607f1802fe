import Mathlib.Data.List.Basic
import Whispera.Lib.Bytes

/-! `Manager` in `core/tunnel`, with a record of every network connection that it opens. A caller takes a step
between two accesses to what the callers share. -/

namespace Whispera

/-- A dial function dials a target through outbounds, or yields a connection that is there already. -/
inductive DialFn
  | cascade (hops : List String) (target : String)
  | handed (conn : Nat)
  deriving DecidableEq, Repr

structure TunnelConfig where
  serverAddr : String
  transport : String := ""
  enableWhispera : Bool := false
  whisperaAddr : String := ""
  whisperaSNI : String := ""
  whisperaSecret : Bytes := []
  whisperaQUICAddr : String := ""
  enableGRPC : Bool := false
  grpcAddr : String := ""
  enableYaDisk : Bool := false
  yaDiskOAuthToken : String := ""
  customDialFn : Option DialFn := none
  maxReconnectAttempts : Nat := 0
  deriving DecidableEq, Repr

structure TunnelEnv where
  streamMux : Bool
  keepAlive : Bool
  deriving DecidableEq, Repr

inductive Route
  | tcp (addr : String)
  | quic (addr : String)
  | grpc (addr : String)
  | yadisk
  | custom (fn : DialFn)
  deriving DecidableEq, Repr

structure DialLibs where
  grpcNew : Bool
  yadiskStart : Bool
  muxNew : Bool
  deriving DecidableEq, Repr, Inhabited

namespace TunnelConfig
variable (cfg : TunnelConfig) (libs : DialLibs)

def whisperaDial : Option Route :=
  if ¬cfg.enableWhispera ∨ cfg.whisperaSecret = [] then none
  else some (.tcp (if cfg.whisperaAddr = "" then cfg.serverAddr else cfg.whisperaAddr))

def grpcDial : Option Route :=
  if ¬cfg.enableGRPC ∨ cfg.grpcAddr = "" ∨ ¬libs.grpcNew then none else some (.grpc cfg.grpcAddr)

def yadiskDial : Option Route :=
  if ¬cfg.enableYaDisk ∨ cfg.yaDiskOAuthToken = "" ∨ ¬libs.yadiskStart then none else some .yadisk

/-- `selector.dial`: the function that it returns, by the connection that this opens. -/
def dial : Option Route := cfg.whisperaDial <|> cfg.grpcDial libs <|> cfg.yadiskDial libs

/-- The condition of `startDatagramLane`. -/
def HasLane : Prop := cfg.enableWhispera ∧ cfg.whisperaQUICAddr ≠ "" ∧ cfg.whisperaSecret ≠ []

instance : Decidable cfg.HasLane := inferInstanceAs (Decidable (_ ∧ _ ∧ _))

end TunnelConfig

inductive BreakerState
  | cbClosed
  | cbOpen
  | cbHalfOpen
  deriving DecidableEq, Repr

structure CircuitBreaker where
  failures : Nat := 0
  lastFailure : Int := 0
  state : BreakerState := .cbClosed
  deriving DecidableEq, Repr

namespace CircuitBreaker

def threshold : Nat := 5
def resetTime : Int := 30 * 1000000000

def allow (cb : CircuitBreaker) (now : Int) : Bool × CircuitBreaker :=
  match cb.state with
  | .cbOpen => if now - cb.lastFailure > resetTime then (true, { cb with state := .cbHalfOpen }) else (false, cb)
  | .cbClosed | .cbHalfOpen => (true, cb)

def fail (cb : CircuitBreaker) (now : Int) : CircuitBreaker :=
  { failures := cb.failures + 1
    lastFailure := now
    state := if cb.state = .cbHalfOpen ∨ cb.failures + 1 ≥ threshold then .cbOpen else cb.state }

def success (cb : CircuitBreaker) : CircuitBreaker := { cb with failures := 0, state := .cbClosed }

end CircuitBreaker

inductive TunnelState
  | disconnected
  | connecting
  | connected
  | reconnecting
  | rotating
  | error
  deriving DecidableEq, Repr

inductive ConnectPc
  | start
  | disconnect
  | internal
  | dial
  | probed (conn : Route)
  | lane
  | done (ok : Bool)
  deriving DecidableEq, Repr

structure ReconnectState where
  originalTransport : String := ""
  fellBackToAuto : Bool := false
  attempts : Nat := 0
  deriving DecidableEq, Repr

inductive ReconnectPc
  | start
  | begun
  | loop
  | calling (pc : ConnectPc)
  | pausing
  | finish
  | done
  deriving DecidableEq, Repr

/-- Where a call of `DialStream` stands, with the dial function that it has got, and the stream after it. -/
inductive StreamPc
  | start
  | opening
  | flow (dial : Route)
  | dialling (dial : Route)
  | header (dial conn : Route) (reused : Bool)
  | redial (dial : Route)
  | rewrite (conn : Route)
  | mux
  | muxWrite
  | ready (conn : Route)
  | muxReady
  | ended
  deriving DecidableEq, Repr

/-- Calls of `Connect`, `Reconnect` and `DialStream`, and the goroutine that dials the datagram lane. -/
inductive Caller
  | connect (pc : ConnectPc)
  | reconnect (st : ReconnectState) (pc : ReconnectPc)
  | stream (pc : StreamPc)
  | laneDial
  | laneDone
  | gone
  deriving DecidableEq, Repr

/-- `Manager`: its transport, its idle connections with the newest first, the rest of what the callers share,
    and every connection that was opened. -/
structure Tunnel where
  transport : String
  state : TunnelState := .disconnected
  idle : List Route := []
  idleClosed : Bool := false
  smClient : Bool := false
  laneClient : Bool := false
  laneDialing : Bool := false
  reconnecting : Bool := false
  breaker : CircuitBreaker := {}
  callers : List Caller := []
  opened : List Route := []
  deriving DecidableEq, Repr

inductive DialOutcome
  | ok
  | failed
  | cancelled
  deriving DecidableEq, Repr

inductive Choice
  | go
  | clock (now : Int)
  | cancel
  | parse (ok : Bool)
  | dial (libs : DialLibs) (outcome : DialOutcome)
  | take (dead : Nat)
  | write (ok : Bool)
  | session (outcome : DialOutcome)
  | close (park : Bool)
  deriving DecidableEq, Repr

namespace Tunnel

def idleMax : Nat := 8

/-- `idleSet.put`: a closed set takes nothing, and a full one gives up its oldest connection. -/
def put (s : Tunnel) (conn : Route) : Tunnel :=
  if s.idleClosed then s else { s with idle := (conn :: s.idle).take idleMax }

def disconnect (s : Tunnel) : Tunnel :=
  { s with idle := [], idleClosed := true, smClient := false, state := .disconnected }

def setState (s : Tunnel) (state : TunnelState) : Tunnel := { s with state }

def openConn (s : Tunnel) (r : Route) : Tunnel := { s with opened := r :: s.opened }

variable (env : TunnelEnv) (cfg : TunnelConfig)

def startDatagramLane (s : Tunnel) : Tunnel :=
  if ¬cfg.HasLane ∨ s.laneClient ∨ s.laneDialing then s
  else { s with laneDialing := true, callers := s.callers ++ [.laneDial] }

/-- `Connect`, with `connectInternal`, `connectPerFlow` and `connectStreamMux`. -/
def stepConnect (s : Tunnel) : ConnectPc → Choice → Option (Tunnel × ConnectPc)
  | .start, .go =>
    if s.state = .connecting ∨ s.state = .connected then some (s, .done true)
    else some (s.setState .connecting, .disconnect)
  | .disconnect, .go => some (s.disconnect, .internal)
  | .internal, .go => some (s.setState .connecting, .dial)
  | .dial, .dial libs outcome =>
    if env.streamMux ∧ ¬s.smClient ∧ ¬libs.muxNew then some (s.setState .error, .done false)
    else
      let s := { s with smClient := s.smClient || env.streamMux }
      match cfg.dial libs with
      | none => some (s.setState .error, .done false)
      | some r =>
        match outcome with
        | .ok => some (s.openConn r, .probed r)
        | .failed | .cancelled => some ((s.openConn r).setState .error, .done false)
  | .probed r, .go =>
    if env.streamMux then some (s.setState .connected, .done true)
    else
      let s := { s with idleClosed := false }
      some ((if env.keepAlive then s.put r else s).setState .connected, .lane)
  | .lane, .go => some (s.startDatagramLane cfg, .done true)
  | _, _ => none

def reconnectFallbackAfterAttempts : Nat := 3

/-- `prepareAttempt`: after some failures any transport will do. -/
def prepareAttempt (s : Tunnel) (st : ReconnectState) : Tunnel × ReconnectState :=
  if st.attempts = reconnectFallbackAfterAttempts + 1 ∧ st.originalTransport ≠ "" ∧ st.originalTransport ≠ "auto" ∧
      ¬st.fellBackToAuto then
    ({ s with transport := "auto" }.disconnect, { st with fellBackToAuto := true })
  else (s.disconnect, st)

def stepReconnect (s : Tunnel) (st : ReconnectState) :
    ReconnectPc → Choice → Option (Tunnel × ReconnectState × ReconnectPc)
  | .start, .go =>
    -- another call is at it, and this one only waits for it
    if s.reconnecting then some (s, st, .done)
    else some ({ s with reconnecting := true }, { originalTransport := s.transport }, .begun)
  | .begun, .clock now =>
    let (allowed, breaker) := s.breaker.allow now
    if allowed then some ({ s with breaker, state := .reconnecting }, st, .loop)
    else some ({ s with breaker }, st, .finish)
  | .loop, .cancel => some (s, { st with attempts := st.attempts + 1 }, .finish)
  | .loop, .clock now =>
    let st := { st with attempts := st.attempts + 1 }
    if cfg.maxReconnectAttempts > 0 ∧ st.attempts > cfg.maxReconnectAttempts then
      some ({ s with breaker := s.breaker.fail now, state := .error }, st, .finish)
    else
      let (s, st) := s.prepareAttempt st
      some (s, st, .calling .start)
  | .calling (.done true), .go => some ({ s with breaker := s.breaker.success }, st, .finish)
  | .calling (.done false), .clock now => some ({ s with breaker := s.breaker.fail now }, st, .pausing)
  | .calling pc, choice => (s.stepConnect env cfg pc choice).map fun (s, pc) => (s, st, .calling pc)
  | .pausing, .go => some (s, st, .loop)
  | .pausing, .cancel => some (s, st, .finish)
  | .finish, .go =>
    let transport := if st.fellBackToAuto then st.originalTransport else s.transport
    some ({ s with transport, reconnecting := false }, st, .done)
  | _, _ => none

/-- What a failed dial leaves of the state, unless the caller has given up. -/
def dialFailed (s : Tunnel) : DialOutcome → Tunnel
  | .cancelled => s
  | .ok | .failed => s.setState .error

/-- `DialStream`, with `OpenStream`, `openStreamPerFlow` and `openStreamMux`, and the end of the stream. -/
def stepStream (s : Tunnel) : StreamPc → Choice → Option (Tunnel × StreamPc)
  | .start, .parse ok => some (s, if ok then .opening else .ended)
  | .opening, .dial libs _ =>
    if env.streamMux then
      if ¬s.smClient ∧ ¬libs.muxNew then some (s, .ended) else some ({ s with smClient := true }, .mux)
    else
      match cfg.dial libs with
      | none => some (s, .ended)
      | some r => some (s, .flow r)
  | .flow r, .take dead =>
    if env.keepAlive then
      -- connections that have died while idle are passed over
      match s.idle.drop dead with
      | [] => some ({ s with idle := [] }, .dialling r)
      | conn :: rest => some ({ s with idle := rest }, .header r conn true)
    else some (s, .dialling r)
  | .dialling r, .dial _ outcome =>
    match outcome with
    | .ok => some (s.openConn r, .header r r false)
    | .failed | .cancelled => some ((s.openConn r).dialFailed outcome, .ended)
  | .header r conn reused, .write ok =>
    if ok then some (s, .ready conn) else if reused then some (s, .redial r) else some (s, .ended)
  | .redial r, .dial _ outcome =>
    match outcome with
    | .ok => some (s.openConn r, .rewrite r)
    | .failed | .cancelled => some ((s.openConn r).dialFailed outcome, .ended)
  | .rewrite conn, .write ok => some (s, if ok then .ready conn else .ended)
  -- the multiplexer has a connection for the stream, or asks for one
  | .mux, .session outcome =>
    match outcome with
    | .ok => some (s, .muxWrite)
    | .failed | .cancelled => some (s.dialFailed outcome, .ended)
  | .mux, .dial libs outcome =>
    match cfg.dial libs with
    | none => some (s.dialFailed outcome, .ended)
    | some r =>
      match outcome with
      | .ok => some (s.openConn r, .muxWrite)
      | .failed | .cancelled => some ((s.openConn r).dialFailed outcome, .ended)
  | .muxWrite, .write ok => some (s, if ok then .muxReady else .ended)
  | .ready conn, .close park => some (if env.keepAlive ∧ park then s.put conn else s, .ended)
  | .muxReady, .close _ => some (s, .ended)
  | _, _ => none

def stepCaller (s : Tunnel) : Caller → Choice → Option (Tunnel × Caller)
  | .connect pc, choice => (s.stepConnect env cfg pc choice).map fun (s, pc) => (s, .connect pc)
  | .reconnect st pc, choice => (s.stepReconnect env cfg st pc choice).map fun (s, st, pc) => (s, .reconnect st pc)
  | .stream pc, choice => (s.stepStream env cfg pc choice).map fun (s, pc) => (s, .stream pc)
  | .laneDial, .dial _ outcome =>
    let s := s.openConn (.quic cfg.whisperaQUICAddr)
    some ({ s with laneClient := s.laneClient || outcome = .ok }, .laneDone)
  | .laneDone, .go => some ({ s with laneDialing := false }, .gone)
  | _, _ => none

inductive Call
  | connect
  | reconnect
  | dialStream
  deriving DecidableEq, Repr

def Call.caller : Call → Caller
  | .connect => .connect .start
  | .reconnect => .reconnect {} .start
  | .dialStream => .stream .start

inductive Act
  | call (c : Call)
  | run (i : Nat) (choice : Choice)
  | dies (i : Nat)
  | laneEnds
  | stop
  deriving DecidableEq, Repr

def step (s : Tunnel) : Act → Option Tunnel
  | .call c => some { s with callers := s.callers ++ [c.caller] }
  | .run i choice =>
    match s.callers[i]? with
    | none => none
    | some c => (s.stepCaller env cfg c choice).map fun (t, c) => { t with callers := t.callers.set i c }
  | .dies i => some { s with idle := s.idle.eraseIdx i }
  | .laneEnds => some { s with laneClient := false }
  | .stop => some s.disconnect

def new : Tunnel := { transport := cfg.transport }

end Tunnel
end Whispera
