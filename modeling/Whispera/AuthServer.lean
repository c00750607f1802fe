import Whispera.Token

/-! `camouflageListener.handle` in `core/protocol/camouflage.go`, and `handlePerflowConn` and
`registerRTDatagrams` in `core/protocol/listener.go`. Handlers run beside each other and beside updates of the
user store. The clock, an `int64` that is not negative, is read anew at every step that reads it. -/

namespace Whispera

/-- A presentation of a token. `since` is the number of updates of the user store that were complete when it
    arrived. -/
structure AuthRequest where
  perflow : Bool
  sessionID : Bytes
  token : Bytes
  since : Nat
  deriving DecidableEq

structure Grant where
  secret : Bytes
  userID : String
  deriving DecidableEq

/-- A handler is in the camouflage layer, has a connection that was passed on, resolves a request, or is to
    record its token. -/
inductive HandlerPc
  | idle
  | hello (random keyShare : Bytes) (since : Nat)
  | scan (random keyShare : Bytes) (since : Nat)
  | passed (known : KnownUser) (since : Nat)
  | known (req : AuthRequest) (known : KnownUser)
  | shared (req : AuthRequest)
  | walk (req : AuthRequest) (raw : Bytes)
  | users (req : AuthRequest) (raw : Bytes) (rest : List UserEntry)
  | resolved (req : AuthRequest) (grant : Grant)
  | ready (req : AuthRequest) (grant : Grant)
  | stamped (req : AuthRequest) (grant : Grant) (now : Nat)
  | finished

structure AuthServer where
  clock : Nat
  table : UserTable
  cache : UserCache := []
  seen : Nat → SeenShard := fun _ => ∅
  sweeping : Option (Nat × Nat) := none
  handlers : Nat → HandlerPc := fun _ => .idle
  accepted : List (AuthRequest × Grant) := []

namespace AuthServer

def start (users : List UserEntry) (clock : Fin (2 ^ 63)) : AuthServer where
  clock := clock
  table := .start users

/-- The steps of the handler `i`, of the user store, of the sweep, and of the clock. The store is read in any
    order. -/
inductive Act
  | table (a : UserTable.Act)
  | hello (i : Nat) (random keyShare : Bytes)
  | select (i : Nat)
  | scan (i : Nat)
  | preamble (i : Nat) (sessionID token : Bytes)
  | datagram (i : Nat) (sessionID token : Bytes)
  | tryKnown (i : Nat)
  | tryShared (i : Nat)
  | walk (i : Nat) (users : List UserEntry)
  | tryUser (i : Nat)
  | remember (i : Nat)
  | stamp (i : Nat)
  | consume (i : Nat)
  | tick (seconds : Nat)
  | sweep
  | sweepShard

def setHandler (s : AuthServer) (i : Nat) (pc : HandlerPc) : AuthServer :=
  { s with handlers := Function.update s.handlers i pc }

/-- A handler begins its calls of `snapshot` itself. The QUIC listener calls it too, with the number of an
    idle handler. -/
def ownCall (s : AuthServer) : UserTable.Act → Bool
  | .begin i => match s.handlers i with
    | .idle => false
    | _ => true
  | _ => false

variable (crypto : Crypto) (cfg : ServerConfig)

def beginSnapshot (s : AuthServer) (i : Nat) (pc : HandlerPc) : Option AuthServer :=
  (s.table.step crypto cfg (.begin i)).map fun table => { s with table }.setHandler i pc

/-- What `bySelector` says of the hello. A hello that is no good is found out only here; the source calls
    `snapshot` before, too. -/
def select (s : AuthServer) (i : Nat) (random keyShare : Bytes) (since : Nat) (byTag : TagMap) : Option AuthServer :=
  match resolveBySelector crypto cfg byTag random keyShare s.clock with
  | .ok entry => some (s.setHandler i (.passed { id := entry.userID, psk := entry.psk } since))
  | .error _ => s.beginSnapshot crypto cfg i (.scan random keyShare since)

/-- The check of a hello without a selector: the connection is passed on without a user, or goes to the decoy.
    -/
def scan (s : AuthServer) (i : Nat) (random keyShare : Bytes) (since : Nat) : AuthServer :=
  if markerMatches crypto s.table.index.keys random keyShare s.clock then
    s.setHandler i (.passed { id := "", psk := [] } since)
  else s.setHandler i .finished

/-- The part of `resolveSecretFor` before the walk over all users. -/
def tryKnown (s : AuthServer) (i : Nat) (req : AuthRequest) (known : KnownUser) : AuthServer :=
  if known.psk.length = 32 ∧ verifyAuthToken crypto (authKey crypto known.psk) req.token req.sessionID s.clock then
    s.setHandler i (.resolved req { secret := known.psk, userID := known.id })
  else s.setHandler i (.shared req)

/-- `resolveSecret`, up to the call of `GetUsers`. -/
def tryShared (s : AuthServer) (i : Nat) (req : AuthRequest) : AuthServer :=
  match Base64.decode req.token with
  | none => s.setHandler i .finished
  | some raw =>
    if raw.length ≠ 32 then s.setHandler i .finished
    else if cfg.sharedSecret.length = 32 ∧
        verifyAuthTokenRaw crypto (authKey crypto cfg.sharedSecret) raw req.sessionID s.clock then
      s.setHandler i (.resolved req { secret := cfg.sharedSecret, userID := "default" })
    else s.setHandler i (.walk req raw)

def tryUser (s : AuthServer) (i : Nat) (req : AuthRequest) (raw : Bytes) : List UserEntry → AuthServer
  | [] => s.setHandler i .finished
  | u :: rest =>
    if u.psk.length = 32 ∧ verifyAuthTokenRaw crypto (authKey crypto u.psk) raw req.sessionID s.clock then
      s.setHandler i (.resolved req { secret := u.psk, userID := u.userID })
    else s.setHandler i (.users req raw rest)

def record (s : AuthServer) (i : Nat) (req : AuthRequest) (grant : Grant) (now : Nat) : AuthServer :=
  let shard := tokenShardIndex req.token
  match Whispera.consume (s.seen shard) req.token now with
  | (true, seen) =>
    { s.setHandler i .finished with
      seen := Function.update s.seen shard seen
      accepted := s.accepted ++ [(req, grant)] }
  | (false, _) => s.setHandler i .finished

def step (s : AuthServer) : Act → Option AuthServer
  | .table a => if s.ownCall a then none else (s.table.step crypto cfg a).map fun table => { s with table }
  | .hello i random keyShare =>
    match s.handlers i with
    | .idle => s.beginSnapshot crypto cfg i (.hello random keyShare s.table.completed.length)
    | _ => none
  | .select i =>
    match s.handlers i, (s.table.calls i).pc with
    | .hello random keyShare since, .returned byTag => s.select crypto cfg i random keyShare since byTag
    | _, _ => none
  | .scan i =>
    match s.handlers i, (s.table.calls i).pc with
    | .scan random keyShare since, .returned _ => some (s.scan crypto i random keyShare since)
    | _, _ => none
  | .preamble i sessionID token =>
    match s.handlers i with
    | .passed known since =>
      if sessionID.length = 16 ∧ 0 < token.length ∧ token.length ≤ 512 then
        some (s.setHandler i (.known { perflow := true, sessionID, token, since } known))
      else some (s.setHandler i .finished)
    | _ => none
  | .datagram i sessionID token =>
    match s.handlers i with
    | .idle =>
      if sessionID = [] ∨ token = [] then some (s.setHandler i .finished)
      else
        let (known, cache) := userHint s.cache sessionID
        some ({ s with cache }.setHandler i
          (.known { perflow := false, sessionID, token, since := s.table.completed.length } known))
    | _ => none
  | .tryKnown i =>
    match s.handlers i with
    | .known req known => some (s.tryKnown crypto i req known)
    | _ => none
  | .tryShared i =>
    match s.handlers i with
    | .shared req => some (s.tryShared crypto cfg i req)
    | _ => none
  | .walk i users =>
    match s.handlers i with
    | .walk req raw => if users.isPerm s.table.users then some (s.setHandler i (.users req raw users)) else none
    | _ => none
  | .tryUser i =>
    match s.handlers i with
    | .users req raw rest => some (s.tryUser crypto i req raw rest)
    | _ => none
  | .remember i =>
    match s.handlers i with
    | .resolved req grant =>
      let cache := if req.perflow then rememberUser s.cache req.sessionID { id := grant.userID, psk := grant.secret }
        else s.cache
      some ({ s with cache }.setHandler i (.ready req grant))
    | _ => none
  | .stamp i =>
    match s.handlers i with
    | .ready req grant => some (s.setHandler i (.stamped req grant s.clock))
    | _ => none
  | .consume i =>
    match s.handlers i with
    | .stamped req grant now => some (s.record i req grant now)
    | _ => none
  | .tick seconds => if s.clock + seconds < 2 ^ 63 then some { s with clock := s.clock + seconds } else none
  | .sweep =>
    match s.sweeping with
    | none => some { s with sweeping := some (s.clock, 0) }
    | some _ => none
  | .sweepShard =>
    match s.sweeping with
    | some (now, shard) => some { s with
        seen := Function.update s.seen shard (deleteExpired now (s.seen shard))
        sweeping := if shard + 1 < tokenSeenShardCount then some (now, shard + 1) else none }
    | none => none

end AuthServer

end Whispera
