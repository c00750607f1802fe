import Whispera.Lib.Transition
import Whispera.SplitTunnel

/-! The verdicts on hosts that the split tunnel keeps, in `common/split_tunnel/split_tunnel.go`:
`byCountryVerdict`, `learnInBackground` and `recordCountry`, and the calls that change what a verdict is
computed from, `SetGeoIP`, `SetResolver` and `LoadAppRules`. Each part of them between two locks is a step,
and so is each shard that is reset. A verdict carries the numbers of the list and of the resolver that it was
computed from. -/

namespace Whispera
open Net

def verdictShards : Nat := 64

def verdictMax : Nat := 4096

def verdictTTL : Int := 60000000000

/-- `shardFor`: a hash of the bytes of the host. -/
def shardFor (host : List Char) : Nat :=
  ((host.flatMap String.utf8EncodeChar).foldl (fun (h : UInt32) b => (h ^^^ b.toUInt32) * 16777619) 2166136261).toNat %
    verdictShards

structure CountryVerdict where
  bypass : Bool
  expires : Int
  geo : Nat
  resolver : Option Nat
  deriving DecidableEq, Repr

inductive LookupPc
  | look
  | record (geo : GeoIPSet) (ips : List IP)
  | learn (geo : GeoIPSet)
  | returned (bypass : Bool) (verdict : Option CountryVerdict)

/-- A lookup that no rule decides, with the settings of the snapshot that it has loaded. -/
structure CountryLookup where
  host : List Char
  country : CountrySettings
  geo : Nat
  resolver : Nat
  pc : LookupPc := .look

/-- A goroutine of `learnInBackground`, and whether its resolver has returned. -/
structure CountryLearner where
  host : List Char
  list : GeoIPSet
  geo : Nat
  resolver : Nat
  resolved : Bool := false

/-- The settings of the last snapshot, with the numbers of its list and its resolver; the verdicts; for each
    call that resets them the shard that is next; the lookups, and the goroutines that learn. -/
structure Verdicts where
  country : CountrySettings := {}
  geo : Nat := 0
  resolver : Nat := 0
  verdicts : List (List Char × CountryVerdict) := []
  pending : List (List Char) := []
  resets : List Nat := []
  lookups : List CountryLookup := []
  learners : List CountryLearner := []

namespace Verdicts

/-- `put`: a shard that is full loses what has expired, or everything. -/
def put (verdicts : List (List Char × CountryVerdict)) (host : List Char) (v : CountryVerdict) (now : Int) :
    List (List Char × CountryVerdict) :=
  let full := fun (m : List (List Char × CountryVerdict)) => verdictMax / verdictShards ≤ m.countP fun e =>
    shardFor e.1 = shardFor host
  let fresh := verdicts.filter fun e => shardFor e.1 ≠ shardFor host ∨ now ≤ e.2.expires
  let kept :=
    if full verdicts then if full fresh then verdicts.filter fun e => shardFor e.1 ≠ shardFor host
    else fresh else verdicts
  (host, v) :: kept.filter fun e => e.1 ≠ host

def record (s : Verdicts) (host : List Char) (v : CountryVerdict) (now : Int) : Verdicts :=
  { s with verdicts := put s.verdicts host v now }

def setPc (s : Verdicts) (i : Nat) (l : CountryLookup) (pc : LookupPc) : Verdicts :=
  { s with lookups := s.lookups.set i { l with pc } }

/-- The verdict on a host, unless it has expired. -/
def get (s : Verdicts) (host : List Char) (now : Int) : Option CountryVerdict :=
  (s.verdicts.lookup host).filter fun v => now < v.expires

def go (s : Verdicts) (i : Nat) (now : Int) (l : CountryLookup) : Option Verdicts :=
  match l.pc with
  | .look =>
    let verdict := s.get l.host now
    match byCountryVerdict l.country (verdict.map CountryVerdict.bypass) l.host with
    | .known bypass => some (s.setPc i l (.returned bypass (verdict.filter fun _ => l.country.byCountry)))
    | .record geo ips => some (s.setPc i l (.record geo ips))
    | .learn geo _ => some (s.setPc i l (.learn geo))
  | .record geo ips =>
    let v : CountryVerdict := ⟨countryBypass geo ips, now + verdictTTL, l.geo, none⟩
    some ((s.record l.host v now).setPc i l (.returned v.bypass (some v)))
  | .learn geo =>
    if s.pending.contains l.host then some (s.setPc i l (.returned false none))
    else
      some { s.setPc i l (.returned false none) with
        pending := l.host :: s.pending
        learners := s.learners ++ [{ host := l.host, list := geo, geo := l.geo, resolver := l.resolver }] }
  | .returned _ _ => none

/-- The resolver returns to a goroutine, with addresses or an error, and the verdict is recorded. -/
def learned (s : Verdicts) (k : Nat) (ips : Option (List IP)) (now : Int) (l : CountryLearner) : Option Verdicts :=
  if l.resolved then none
  else
    let t := { s with learners := s.learners.set k { l with resolved := true } }
    match ips with
    | none => some t
    | some ips => some (t.record l.host ⟨countryBypass l.list ips, now + verdictTTL, l.geo, some l.resolver⟩ now)

inductive Act
  | setGeoIP (geo : Option GeoIPSet)
  | setResolver (resolve : Option Nat)
  | setCached (cached : Option (List Char → Option (List IP)))
  | loadAppRules (byCountry : Bool)
  | reset (j : Nat)
  | lookup (host : List Char)
  | go (i : Nat) (now : Int)
  | learned (k : Nat) (ips : Option (List IP)) (now : Int)
  | forget (k : Nat)

def step (s : Verdicts) : Act → Option Verdicts
  | .setGeoIP geo => some { s with country := { s.country with geo }, geo := s.geo + 1 }
  | .setResolver resolve =>
    some { s with country := { s.country with resolve }, resolver := s.resolver + 1, resets := s.resets ++ [0] }
  | .setCached cached => some { s with country := { s.country with cached } }
  | .loadAppRules byCountry => some { s with country := { s.country with byCountry }, resets := s.resets ++ [0] }
  | .reset j =>
    (s.resets[j]?).bind fun k =>
      if k < verdictShards then
        some { s with resets := s.resets.set j (k + 1), verdicts := s.verdicts.filter fun e => shardFor e.1 ≠ k }
      else none
  | .lookup host =>
    some { s with lookups := s.lookups ++ [{ host, country := s.country, geo := s.geo, resolver := s.resolver }] }
  | .go i now => (s.lookups[i]?).bind (s.go i now)
  | .learned k ips now => (s.learners[k]?).bind (s.learned k ips now)
  | .forget k =>
    (s.learners[k]?).bind fun l => if l.resolved then some { s with pending := s.pending.filter (· ≠ l.host) } else none

end Verdicts
end Whispera
