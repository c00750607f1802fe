import Whispera.Selector
import Mathlib.Data.List.AList

/-! `core/protocol/selector_index.go` and the user store of `core/apiserver/key_store.go`. Calls run side by
side while the store is updated: an update replaces the users and then increases the version. -/

namespace Whispera

structure UserEntry where
  userID : String
  psk : Bytes
  deriving DecidableEq, Repr

structure SelectorEntry where
  userID : String
  psk : Bytes
  camoKey : Bytes
  deriving DecidableEq, Repr

abbrev TagMap : Type := AList fun _ : Block 8 => SelectorEntry

/-- What is used of `ServerConfig`: the shared secret, the seed of the certificate identity, whether
    `UsersVersion` is set. -/
structure ServerConfig where
  sharedSecret : Bytes
  identity : Option Bytes
  versioned : Bool

section
variable (crypto : Crypto)

def selectorEntry (userID : String) (psk : Bytes) : SelectorEntry :=
  { userID, psk, camoKey := deriveKey crypto psk }

def addUser (built : TagMap) (u : UserEntry) : TagMap :=
  if u.psk.length ≠ 32 then built else built.insert (userTag crypto u.psk) (selectorEntry crypto u.userID u.psk)

def buildIndex (sharedSecret : Bytes) (users : List UserEntry) : TagMap :=
  users.foldl (addUser crypto)
    (if sharedSecret.length = 32 then
      AList.insert (userTag crypto sharedSecret) (selectorEntry crypto "default" sharedSecret) ∅
    else ∅)

inductive SelReason
  | shortFields
  | noIdentity
  | noKey
  | badRandom
  | openFailed
  | unknownTag
  | staleMarker
  deriving DecidableEq, Repr

def resolveBySelector (cfg : ServerConfig) (byTag : TagMap) (random keyShare : Bytes) (now : Int) :
    Except SelReason SelectorEntry :=
  if random.length ≠ 32 ∨ keyShare.length ≠ 32 then .error .shortFields
  else
    match cfg.identity with
    | none => .error .noIdentity
    | some seed =>
      match serverKeyFromSeed crypto seed with
      | none => .error .noKey
      | some priv =>
        match splitRandom random with
        | none => .error .badRandom
        | some (sel, marker) =>
          match openSelector crypto sel priv keyShare with
          | none => .error .openFailed
          | some tag =>
            match byTag.lookup tag with
            | none => .error .unknownTag
            | some entry =>
              if markerMatchesKey crypto entry.camoKey marker keyShare now then .ok entry else .error .staleMarker

end

def selectorIndexTTL : Int := 1000000000

/-- `selectorIndex`; `byTag` is nil until it is built. -/
structure SelectorIndex where
  builtAt : Int := 0
  builtVer : UInt64 := 0
  hasVer : Bool := false
  byTag : Option TagMap := none

namespace SelectorIndex

def keys (s : SelectorIndex) : List Bytes :=
  match s.byTag with
  | none => []
  | some byTag => byTag.entries.map fun e => e.2.camoKey

def fresh (s : SelectorIndex) (versioned : Bool) (ver : UInt64) (now : Int) : Bool :=
  if versioned ∧ s.hasVer then s.builtVer = ver else now - s.builtAt < selectorIndexTTL

end SelectorIndex

inductive SnapshotPc
  | idle
  | begun
  | checking (ver : UInt64)
  | building (ver : UInt64)
  | storing (ver : UInt64) (built : TagMap)
  | returned (byTag : TagMap)

/-- A call of `snapshot`, with the number of updates that were complete when it began. -/
structure SnapshotCall where
  since : Nat := 0
  pc : SnapshotPc := .idle

/-- The user store and the index. The sets of users installed are numbered, `count` being the present one.
    Updates in `replaced` have yet to increase the version; those in `completed` have done so, in this order.
    -/
structure UserTable where
  installed : Nat → List UserEntry
  count : Nat := 0
  replaced : List Nat := []
  completed : List Nat := []
  ver : UInt64 := 0
  index : SelectorIndex := {}
  calls : Nat → SnapshotCall := fun _ => {}

namespace UserTable

def start (users : List UserEntry) : UserTable where
  installed _ := users

def users (s : UserTable) : List UserEntry := s.installed s.count

/-- `GetUsers` ranges over a Go map, so the users come in any order; `now` is what the clock shows. -/
inductive Act
  | replace (users : List UserEntry)
  | bump (u : Nat)
  | begin (i : Nat)
  | readVer (i : Nat)
  | check (i : Nat) (now : Int)
  | getUsers (i : Nat) (users : List UserEntry)
  | store (i : Nat) (now : Int)

def setPc (s : UserTable) (i : Nat) (pc : SnapshotPc) : UserTable :=
  { s with calls := Function.update s.calls i { s.calls i with pc } }

variable (crypto : Crypto) (cfg : ServerConfig)

def step (s : UserTable) : Act → Option UserTable
  | .replace users => some { s with
      installed := Function.update s.installed (s.count + 1) users
      count := s.count + 1
      replaced := (s.count + 1) :: s.replaced }
  | .bump u =>
    if u ∈ s.replaced then
      some { s with replaced := s.replaced.erase u, completed := s.completed ++ [u], ver := s.ver + 1 }
    else none
  | .begin i =>
    match (s.calls i).pc with
    | .idle | .returned _ =>
      some { s with calls := Function.update s.calls i { since := s.completed.length, pc := .begun } }
    | _ => none
  | .readVer i =>
    match (s.calls i).pc with
    | .begun => some (s.setPc i (.checking (if cfg.versioned then s.ver else 0)))
    | _ => none
  | .check i now =>
    match (s.calls i).pc with
    | .checking ver =>
      match s.index.byTag with
      | some byTag =>
        some (s.setPc i (if s.index.fresh cfg.versioned ver now then .returned byTag else .building ver))
      | none => some (s.setPc i (.building ver))
    | _ => none
  | .getUsers i users =>
    match (s.calls i).pc with
    | .building ver =>
      if users.isPerm s.users then some (s.setPc i (.storing ver (buildIndex crypto cfg.sharedSecret users))) else none
    | _ => none
  | .store i now =>
    match (s.calls i).pc with
    | .storing ver built =>
      some { s.setPc i (.returned built) with
        index := { builtAt := now, builtVer := ver, hasVer := cfg.versioned, byTag := some built } }
    | _ => none

end UserTable

end Whispera
