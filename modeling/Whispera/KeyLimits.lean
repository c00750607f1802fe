import Whispera.Lib.Table

/-! `core/keylimits/keylimits.go`. A step is what happens under one lock, or one change of the count outside
it. What others subtract while `Admit` holds the lock commutes with it, so it is one step. The order in which
a map is gone through is chosen from outside. -/

namespace Whispera
open Table

abbrev KeyID : Type := List Char
abbrev SessionID : Type := List Char

inductive DenyReason
  | activeCap
  | globalCap
  | softIPCap
  | rateLimit
  deriving DecidableEq, Repr

structure KeyLimit where
  maxActiveSessions : Int := 0
  globalCap : Int := 0
  softIPCap : Int := 0
  burstPerMinute : Int := 0
  sessionTTL : Int := 0
  deriving DecidableEq, Repr

structure KeySession where
  sessionID : SessionID
  remoteIP : List Char
  startedAt : Int
  lastSeen : Int
  isTorrent : Bool := false
  deriving DecidableEq, Repr

structure BurstWindow where
  since : Int
  count : Int := 0
  deriving DecidableEq, Repr

/-- `keylimits.Manager`; a closer is known by its number. -/
structure KeyLimits where
  defaultLimits : KeyLimit
  keyLimits : Map KeyID KeyLimit := ∅
  sessions : Map KeyID (Map SessionID KeySession) := ∅
  burst : Map KeyID BurstWindow := ∅
  totalSessions : Int := 0
  closers : Map KeyID (Map SessionID Nat) := ∅

namespace KeyLimits

def second : Int := 1000000000
def minute : Int := 60 * second

def normalCount (km : Map SessionID KeySession) : Nat := count (fun _ s => !s.isTorrent) km

def countUniqueIPs (km : Map SessionID KeySession) (adding : List Char) : Nat :=
  (adding :: km.entries.map fun e => e.2.remoteIP).dedup.length

def limitsFor (m : KeyLimits) (key : KeyID) : KeyLimit := (m.keyLimits.lookup key).getD m.defaultLimits

/-- The window that `Admit` counts in: a new one if there is none or it is over. -/
def burstWindow (m : KeyLimits) (key : KeyID) (now : Int) : BurstWindow :=
  match m.burst.lookup key with
  | none => { since := now }
  | some bw => if now - bw.since > minute then { since := now } else bw

def rateLimited (m : KeyLimits) (key : KeyID) (now : Int) : Bool :=
  0 < (m.limitsFor key).burstPerMinute && (m.limitsFor key).burstPerMinute ≤ (m.burstWindow key now).count

def setBurst (m : KeyLimits) (key : KeyID) (bw : BurstWindow) : KeyLimits := { m with burst := m.burst.insert key bw }

def admitSession (m : KeyLimits) (key : KeyID) (sid : SessionID) (ip : List Char) (now : Int) :
    Option (DenyReason × String) × KeyLimits :=
  let l := m.limitsFor key
  if 0 < m.defaultLimits.globalCap ∧ m.defaultLimits.globalCap ≤ m.totalSessions then
    let cap := m.defaultLimits.globalCap
    (some (.globalCap, s!"Server connection limit reached ({cap}). Try again later."), m)
  else
    let km := inner m.sessions key
    -- a key without sessions has an empty map from here on
    let m := { m with sessions := m.sessions.insert key km }
    if 0 < l.maxActiveSessions ∧ l.maxActiveSessions ≤ normalCount km then
      let max := l.maxActiveSessions
      (some (.activeCap,
        s!"Too many simultaneous connections from this key ({max}). Close some tabs or applications and retry."), m)
    else if 0 < l.softIPCap ∧ l.softIPCap < countUniqueIPs km ip then
      let unique := countUniqueIPs km ip
      let max := l.softIPCap
      (some (.softIPCap, s!"IP limit exceeded ({unique} > {max}); you will have to wait until someone disconnects."), m)
    else
      let s : KeySession := { sessionID := sid, remoteIP := ip, startedAt := now, lastSeen := now }
      (none, { m with sessions := m.sessions.insert key (km.insert sid s), totalSessions := m.totalSessions + 1 })

/-- `Admit`, with the reason and the message of a refusal. -/
def tryAdmit (m : KeyLimits) (key : KeyID) (sid : SessionID) (ip : List Char) (now : Int) :
    Option (DenyReason × String) × KeyLimits :=
  if 0 < (m.limitsFor key).burstPerMinute then
    let bw := m.burstWindow key now
    if m.rateLimited key now then
      (some (.rateLimit, "too many reconnects in the last minute — wait and try again"), m.setBurst key bw)
    else (m.setBurst key { bw with count := bw.count + 1 }).admitSession key sid ip now
  else m.admitSession key sid ip now

def modifySession (m : KeyLimits) (key : KeyID) (sid : SessionID) (f : KeySession → KeySession) : KeyLimits :=
  match (inner m.sessions key).lookup sid with
  | none => m
  | some s => { m with sessions := m.sessions.insert key ((inner m.sessions key).insert sid (f s)) }

def markTorrent (m : KeyLimits) (key : KeyID) (sid : SessionID) : KeyLimits :=
  m.modifySession key sid fun s => { s with isTorrent := true }

def touch (m : KeyLimits) (key : KeyID) (sid : SessionID) (now : Int) : KeyLimits :=
  m.modifySession key sid fun s => { s with lastSeen := now }

/-- Take the entry with the two keys out of a map of maps, and a map out that is empty then. -/
def takeOut {ν : Type} (t : Map KeyID (Map SessionID ν)) (key : KeyID) (sid : SessionID) :
    Map KeyID (Map SessionID ν) :=
  let km := (inner t key).erase sid
  if km.entries.isEmpty then t.erase key else t.insert key km

def deleteSession (m : KeyLimits) (key : KeyID) (sid : SessionID) : Bool × KeyLimits :=
  match (inner m.sessions key).lookup sid with
  | none => (false, m)
  | some _ => (true, { m with sessions := takeOut m.sessions key sid })

def deleteSessions (m : KeyLimits) : List (KeyID × SessionID) → Nat × KeyLimits
  | [] => (0, m)
  | e :: es =>
    let d := m.deleteSession e.1 e.2
    let r := d.2.deleteSessions es
    (if d.1 then r.1 + 1 else r.1, r.2)

def takeClosers (m : KeyLimits) : List (KeyID × SessionID) → List Nat × KeyLimits
  | [] => ([], m)
  | e :: es =>
    match (inner m.closers e.1).lookup e.2 with
    | none => m.takeClosers es
    | some fn =>
      let r := ({ m with closers := takeOut m.closers e.1 e.2 } : KeyLimits).takeClosers es
      (fn :: r.1, r.2)

def registerCloser (m : KeyLimits) (key : KeyID) (sid : SessionID) (fn : Nat) : KeyLimits :=
  { m with closers := m.closers.insert key ((inner m.closers key).insert sid fn) }

def ttl (m : KeyLimits) (key : KeyID) : Int :=
  if (m.limitsFor key).sessionTTL ≤ 0 then 30 * minute else (m.limitsFor key).sessionTTL

/-- `gcExpired` keeps a session that has a closer or was seen lately. -/
def alive (m : KeyLimits) (now : Int) (key : KeyID) (sid : SessionID) (s : KeySession) : Bool :=
  ((inner m.closers key).lookup sid).isSome || now - s.lastSeen ≤ m.ttl key

/-- What `gcExpired` does under the lock, with the sessions that have expired. -/
def expire (m : KeyLimits) (now : Int) : List (KeyID × SessionID) × KeyLimits :=
  (swept (m.alive now) m.sessions,
    { m with sessions := sweep (m.alive now) m.sessions, burst := filter (fun _ bw =>
      now - bw.since ≤ 5 * minute) m.burst })

def startsOf (m : KeyLimits) (key : KeyID) : List ((KeyID × SessionID) × Int) :=
  (inner m.sessions key).entries.map fun e => ((key, e.1), e.2.startedAt)

def starts (m : KeyLimits) : List ((KeyID × SessionID) × Int) :=
  m.sessions.entries.flatMap fun km => km.2.entries.map fun e => ((km.1, e.1), e.2.startedAt)

def setLimits (m : KeyLimits) (key : KeyID) (l : KeyLimit) : KeyLimits :=
  { m with keyLimits := m.keyLimits.insert key l }
def clearLimits (m : KeyLimits) (key : KeyID) : KeyLimits := { m with keyLimits := m.keyLimits.erase key }
def setDefault (m : KeyLimits) (l : KeyLimit) : KeyLimits := { m with defaultLimits := l }

end KeyLimits

/-- What a call that takes sessions out has left to do. `Release` drops the closers, the others call them. -/
inductive TakingOut
  | evict (found : List ((KeyID × SessionID) × Int)) (n : Nat)
  | subtract (n : Nat) (gone : List (KeyID × SessionID)) (call : Bool)
  | close (gone : List (KeyID × SessionID)) (call : Bool)
  deriving DecidableEq, Repr

structure KeyLimiter where
  manager : KeyLimits
  calls : List TakingOut := []
  closed : List Nat := []

namespace KeyLimiter

/-- `next` has the order that sorting the sessions gives. -/
inductive Act
  | tryAdmit (key : KeyID) (sid : SessionID) (ip : List Char) (now : Int)
  | markTorrent (key : KeyID) (sid : SessionID)
  | touch (key : KeyID) (sid : SessionID) (now : Int)
  | registerCloser (key : KeyID) (sid : SessionID) (fn : Nat)
  | setLimits (key : KeyID) (l : KeyLimit)
  | clearLimits (key : KeyID)
  | setDefault (l : KeyLimit)
  | release (key : KeyID) (sid : SessionID)
  | evictOldest (key : KeyID) (n : Nat)
  | evictOldestGlobal (n : Nat)
  | gcExpired (now : Int)
  | next (i : Nat) (order : List ((KeyID × SessionID) × Int))
  deriving DecidableEq, Repr

def afterDelete (deleted : Nat) (gone : List (KeyID × SessionID)) (call : Bool) : TakingOut :=
  if 0 < deleted then .subtract deleted gone call else .close gone call

def begin (s : KeyLimiter) (call : TakingOut) : KeyLimiter := { s with calls := s.calls ++ [call] }

def release (s : KeyLimiter) (key : KeyID) (sid : SessionID) : KeyLimiter :=
  let d := s.manager.deleteSession key sid
  begin { s with manager := d.2 } (afterDelete (if d.1 then 1 else 0) [(key, sid)] false)

/-- `gcExpired` up to the end of its locked part; it returns if nothing has expired. -/
def gcExpired (s : KeyLimiter) (now : Int) : KeyLimiter :=
  let e := s.manager.expire now
  if e.1.isEmpty then { s with manager := e.2 } else begin { s with manager := e.2 } (.subtract e.1.length e.1 true)

def Sorted (found order : List ((KeyID × SessionID) × Int)) : Prop :=
  order.Perm found ∧ order.Pairwise fun a b => a.2 ≤ b.2

instance (found order : List ((KeyID × SessionID) × Int)) : Decidable (Sorted found order) :=
  inferInstanceAs (Decidable (_ ∧ _))

def next (s : KeyLimiter) (i : Nat) (call : TakingOut) (order : List ((KeyID × SessionID) × Int)) : Option KeyLimiter :=
  match call with
  | .evict found n =>
    if Sorted found order then
      let gone := (order.map (·.1)).take n
      let d := s.manager.deleteSessions gone
      some { s with manager := d.2, calls := s.calls.set i (afterDelete d.1 gone true) }
    else none
  | .subtract n gone call =>
    some { s with manager.totalSessions := s.manager.totalSessions - n, calls := s.calls.set i (.close gone call) }
  | .close gone call =>
    let r := s.manager.takeClosers gone
    some { s with manager := r.2, calls := s.calls.eraseIdx i, closed := if call then s.closed ++ r.1 else s.closed }

def step (s : KeyLimiter) : Act → Option KeyLimiter
  | .tryAdmit key sid ip now => some { s with manager := (s.manager.tryAdmit key sid ip now).2 }
  | .markTorrent key sid => some { s with manager := s.manager.markTorrent key sid }
  | .touch key sid now => some { s with manager := s.manager.touch key sid now }
  | .registerCloser key sid fn => some { s with manager := s.manager.registerCloser key sid fn }
  | .setLimits key l => some { s with manager := s.manager.setLimits key l }
  | .clearLimits key => some { s with manager := s.manager.clearLimits key }
  | .setDefault l => some { s with manager := s.manager.setDefault l }
  | .release key sid => some (s.release key sid)
  | .evictOldest key n => some (s.begin (.evict (s.manager.startsOf key) n))
  | .evictOldestGlobal n => some (s.begin (.evict s.manager.starts n))
  | .gcExpired now => some (s.gcExpired now)
  | .next i order => (s.calls[i]?).bind fun call => s.next i call order

def new (defaults : KeyLimit) : KeyLimiter := { manager := { defaultLimits := defaults } }

end KeyLimiter
end Whispera
