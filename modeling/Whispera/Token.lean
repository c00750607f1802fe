import Whispera.Lib.Base64
import Whispera.SelectorIndex

/-! `core/protocol/pathgen.go`, `tokenset.go`, and the cache of users by session in `config.go`. -/

namespace Whispera

def authWindowSeconds : Int := 30
def authWindowTolerance : Nat := 1

section
variable (crypto : Crypto)

def authKey (psk : Bytes) : Bytes := crypto.hkdf psk (ascii "whispera-auth-v1")

def authToken (key : Bytes) (window : Int) (sessionID : Bytes) : Bytes :=
  Base64.encode (crypto.hmac key (windowBytes window ++ sessionID))

def macMatches (key : Bytes) (window : Int) (sessionID want : Bytes) : Bool :=
  crypto.hmac key (windowBytes window ++ sessionID) = want

def verifyAuthTokenRaw (key raw sessionID : Bytes) (now : Int) : Bool :=
  if raw.length ≠ 32 then false
  else (windows authWindowSeconds authWindowTolerance now).any fun candidate =>
    macMatches crypto key candidate sessionID raw

def verifyAuthToken (key token sessionID : Bytes) (now : Int) : Bool :=
  match Base64.decode token with
  | none => false
  | some raw => verifyAuthTokenRaw crypto key raw sessionID now

end

def replayWindowSeconds : Int := (2 * authWindowTolerance + 1) * authWindowSeconds

def tokenSeenShardCount : Nat := 16
def tokenSeenShardCleanupThreshold : Nat := 1000 / tokenSeenShardCount

/-- A shard of `tokenSeenSet`: the texts of tokens, and when each of them was recorded. -/
abbrev SeenShard : Type := AList fun _ : Bytes => Int

def fnv32a (bs : Bytes) : UInt32 := bs.foldl (fun h b => (h ^^^ b.toUInt32) * 16777619) 2166136261

def tokenShardIndex (token : Bytes) : Nat := (fnv32a token).toNat % tokenSeenShardCount

def deleteExpired (now : Int) (seen : SeenShard) : SeenShard where
  entries := seen.entries.filter fun e => ¬ now - e.2 ≥ replayWindowSeconds
  nodupKeys := seen.nodupKeys.sublist List.filter_sublist

def consume (seen : SeenShard) (token : Bytes) (now : Int) : Bool × SeenShard :=
  if ∃ t ∈ seen.lookup token, now - t < replayWindowSeconds then (false, seen)
  else
    let seen := seen.insert token now
    (true, if seen.entries.length > tokenSeenShardCleanupThreshold then deleteExpired now seen else seen)

abbrev TokenSeenSet : Type := Fin tokenSeenShardCount → SeenShard

namespace TokenSeenSet

def shardOf (token : Bytes) : Fin tokenSeenShardCount := ⟨tokenShardIndex token, Nat.mod_lt _ (by decide)⟩

def consume (s : TokenSeenSet) (token : Bytes) (now : Int) : Bool × TokenSeenSet :=
  let answer := Whispera.consume (s (shardOf token)) token now
  (answer.1, Function.update s (shardOf token) answer.2)

def sweep (s : TokenSeenSet) (now : Int) : TokenSeenSet := fun i => deleteExpired now (s i)

end TokenSeenSet

/-- A set of tokens in use, with the tokens that `consume` took and when, and the time of the last call. -/
structure TokenHistory where
  set : TokenSeenSet := fun _ => ∅
  accepted : List (Bytes × Int) := []
  now : Int

namespace TokenHistory

inductive Call
  | consume (token : Bytes) (now : Int)
  | sweep (now : Int)
  deriving DecidableEq, Repr

/-- A call. The times of the calls do not decrease. -/
def step (s : TokenHistory) : Call → Option TokenHistory
  | .consume token now =>
    if now < s.now then none
    else
      let answer := s.set.consume token now
      some { set := answer.2, accepted := if answer.1 then s.accepted ++ [(token, now)] else s.accepted, now }
  | .sweep now => if now < s.now then none else some { s with set := s.set.sweep now, now }

end TokenHistory

structure KnownUser where
  id : String
  psk : Bytes
  deriving DecidableEq, Repr

abbrev UserCache : Type := List (Bytes × KnownUser)

def userCacheSize : Nat := 4096

def rememberUser (users : UserCache) (sessionID : Bytes) (u : KnownUser) : UserCache :=
  if u.psk.length ≠ 32 ∨ sessionID = [] then users
  else ((sessionID, u) :: users.filter fun e => e.1 ≠ sessionID).take userCacheSize

/-- `userHint`, with the cache after it; no user is known as one without a key. -/
def userHint (users : UserCache) (sessionID : Bytes) : KnownUser × UserCache :=
  match users.lookup sessionID with
  | none => ({ id := "", psk := [] }, users)
  | some u => (u, (sessionID, u) :: users.filter fun e => e.1 ≠ sessionID)

end Whispera
