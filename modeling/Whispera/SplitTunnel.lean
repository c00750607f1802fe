import Whispera.GeoIP
import Whispera.Lib.Heap

/-! `common/split_tunnel/split_tunnel.go`: which hosts and addresses go past the tunnel. -/

namespace Whispera
open Net

inductive SplitRuleType
  | domain
  | domainExact
  | domainKeyword
  | ip
  | unsupported (name : String)
  deriving DecidableEq, Repr

structure SplitTunnelRule where
  type : SplitRuleType
  value : List Char
  action : String
  enabled : Bool
  priority : Int := 0
  deriving DecidableEq, Repr

def SplitTunnelRule.direct (r : SplitTunnelRule) : Bool := r.action = "direct"

/-- `unicode.ToLower`: what it does to ASCII, and that of all other characters only two become one of ASCII.
    -/
structure Lowering where
  lower : Char → Char
  ascii : ∀ c, c.toNat < 128 → lower c = c.toLower
  other : ∀ c, 128 ≤ c.toNat → 128 ≤ (lower c).toNat ∨ lower c = 'i' ∨ lower c = 'k'

def Lowering.toLower (low : Lowering) (s : List Char) : List Char := s.map low.lower

def trimStar : List Char → List Char
  | '*' :: '.' :: s => s
  | s => s

def trimDot (s : List Char) : List Char := if s.getLast? = some '.' then s.dropLast else s

def containsText (s sub : List Char) : Bool := s.tails.any fun t => sub.isPrefixOf t

structure RuleKey where
  kind : SplitRuleType
  value : List Char
  deriving DecidableEq, Repr

section
variable (low : Lowering)

def keyOf (r : SplitTunnelRule) : RuleKey :=
  let value := low.toLower r.value
  { kind := r.type, value := if r.type = .domain then trimStar value else value }

def uniqueRules (seen : List RuleKey) : List SplitTunnelRule → List SplitTunnelRule
  | [] => []
  | r :: rules =>
    if seen.contains (keyOf low r) then uniqueRules seen rules
    else r :: uniqueRules (keyOf low r :: seen) rules

end

def sortRulesByPriority (rules : List SplitTunnelRule) : List SplitTunnelRule :=
  rules.insertionSort fun a b => b.priority ≤ a.priority

structure IdxRange where
  lo : Block 16
  hi : Block 16
  idx : Nat
  deriving DecidableEq

def IdxRange.has (r : IdxRange) (a : Block 16) : Bool := !a.less r.lo && !r.hi.less a

def incBytes : Bytes → Bytes × Bool
  | [] => ([], false)
  | b :: bs =>
    if b + 1 ≠ 0 then ((b + 1) :: bs, true)
    else
      let (bs, ok) := incBytes bs
      ((b + 1) :: bs, ok)

theorem length_incBytes : ∀ bs, (incBytes bs).1.length = bs.length
  | [] => rfl
  | b :: bs => by
    rw [incBytes]
    split
    · rfl
    · exact congrArg (· + 1) (length_incBytes bs)

def incAddr (a : Block 16) : Block 16 × Bool :=
  (⟨(incBytes a.val.reverse).1.reverse,
   by rw [List.length_reverse, length_incBytes, List.length_reverse, a.length_val]⟩,
    (incBytes a.val.reverse).2)

def decBytes : Bytes → Bytes
  | [] => []
  | b :: bs => if b ≠ 0 then (b - 1) :: bs else 0xff :: decBytes bs

theorem length_decBytes : ∀ bs, (decBytes bs).length = bs.length
  | [] => rfl
  | b :: bs => by
    rw [decBytes]
    split
    · rfl
    · exact congrArg (· + 1) (length_decBytes bs)

def decAddr (a : Block 16) : Block 16 :=
  ⟨(decBytes a.val.reverse).reverse, by rw [List.length_reverse, length_decBytes, List.length_reverse, a.length_val]⟩

structure RangeEvent where
  addr : Block 16
  idx : Nat
  start : Bool
  deriving DecidableEq

/-- The order of the events in `flattenRanges`. -/
def RangeEvent.less (e f : RangeEvent) : Bool := if e.addr ≠ f.addr then e.addr.less f.addr else e.start && !f.start

def rangeEvents (r : IdxRange) : List RangeEvent :=
  { addr := r.lo, idx := r.idx, start := true } ::
    if (incAddr r.hi).2 then [{ addr := (incAddr r.hi).1, idx := r.idx, start := false }] else []

/-- The variables of the sweep; the ranges that it has put out, the last one first. -/
structure Sweep where
  active : Array Nat := #[]
  ended : List Bool
  out : List IdxRange := []

namespace Sweep

def event (st : Sweep) (e : RangeEvent) : Sweep :=
  if e.start then { st with active := Heap.push st.active e.idx } else { st with ended := st.ended.set e.idx true }

/-- Rules that have ended are taken from the heap when they are on top of it. -/
def clean : Nat → Sweep → Sweep
  | 0, st => st
  | k + 1, st =>
    if 0 < st.active.size ∧ st.ended.getD st.active[0]! false = true then
      clean k { st with active := (Heap.pop st.active).2 }
    else st

def lastAddr : Option RangeEvent → Block 16
  | some e => decAddr e.addr
  | none => ⟨List.replicate 16 0xff, rfl⟩

/-- The range from `addr` to the next event goes to the rule on top of the heap. -/
def emit (st : Sweep) (addr : Block 16) (next : Option RangeEvent) : Sweep :=
  if st.active.size = 0 then st
  else
    let best := st.active[0]!
    match st.out with
    | [] => { st with out := [{ lo := addr, hi := lastAddr next, idx := best }] }
    | r :: out =>
      if r.idx = best ∧ (incAddr r.hi).2 = true ∧ (incAddr r.hi).1 = addr then
        { st with out := { r with hi := lastAddr next } :: out }
      else { st with out := { lo := addr, hi := lastAddr next, idx := best } :: r :: out }

/-- The loop of `flattenRanges`, with a bound on its rounds: in each, the events at one address. -/
def run : Nat → List RangeEvent → Sweep → Sweep
  | 0, _, st => st
  | _ + 1, [], st => st
  | k + 1, e :: events, st =>
    let same := (e :: events).takeWhile fun f => f.addr = e.addr
    let rest := (e :: events).dropWhile fun f => f.addr = e.addr
    let st := same.foldl event st
    run k rest ((clean st.active.size st).emit e.addr rest.head?)

end Sweep

def flattenRanges (sortEvents : Sorting.Slice RangeEvent RangeEvent.less) (raw : List IdxRange) (ruleCount : Nat) :
    List IdxRange :=
  if raw = [] then []
  else
    let events := sortEvents.sort (raw.flatMap rangeEvents)
    (Sweep.run events.length events { ended := List.replicate ruleCount false }).out.reverse

/-- The search of `bypassIP`: the rule that has the address. -/
def rangeIndex (ranges : List IdxRange) (addr : Block 16) : Option Nat :=
  let i := Sorting.search ranges.length fun i => ranges[i]?.any fun r => !r.hi.less addr
  (ranges[i]?.filter fun r => !addr.less r.lo).map IdxRange.idx

structure KwRule where
  value : List Char
  idx : Nat
  deriving DecidableEq

def valueRange (value : List Char) : Option IpRange :=
  match parseCIDR value with
  | some network => rangeOf network
  | none => (parseIP value).map fun ip => { lo := Block.copy 16 ip, hi := Block.copy 16 ip }

/-- What `publishLocked` fills in, rule by rule. -/
structure RuleIndex where
  suffixes : List (List Char × Nat) := []
  exacts : List (List Char × Nat) := []
  keywords : List KwRule := []
  raw : List IdxRange := []

def insertNew (m : List (List Char × Nat)) (e : List Char × Nat) : List (List Char × Nat) :=
  if (m.lookup e.1).isSome then m else e :: m

/-- What decides on hosts that no rule decides on. A resolver is known by its number. -/
structure CountrySettings where
  byCountry : Bool := true
  geo : Option GeoIPSet := none
  resolve : Option Nat := none
  cached : Option (List Char → Option (List IP)) := none

structure RuleSnapshot where
  enabled : Bool
  country : CountrySettings
  suffixes : List (List Char × Nat)
  exacts : List (List Char × Nat)
  keywords : List KwRule
  ranges : List IdxRange
  direct : List Bool

section
variable (low : Lowering)

def RuleIndex.add (index : RuleIndex) (x : SplitTunnelRule × Nat) : RuleIndex :=
  let (r, i) := x
  if r.enabled = false then index
  else
    match r.type with
    | .domain => { index with suffixes := insertNew index.suffixes (low.toLower (trimStar r.value), i) }
    | .domainExact => { index with exacts := insertNew index.exacts (low.toLower r.value, i) }
    | .domainKeyword => { index with keywords := index.keywords ++ [{ value := low.toLower r.value, idx := i }] }
    | .ip =>
      match valueRange r.value with
      | some rg => { index with raw := index.raw ++ [{ lo := rg.lo, hi := rg.hi, idx := i }] }
      | none => index
    | .unsupported _ => index

variable (sortEvents : Sorting.Slice RangeEvent RangeEvent.less)

def publishLocked (enabled : Bool) (country : CountrySettings) (rules : List SplitTunnelRule) : RuleSnapshot :=
  let index := rules.zipIdx.foldl (RuleIndex.add low) {}
  { enabled
    country
    suffixes := index.suffixes
    exacts := index.exacts
    keywords := index.keywords
    ranges := flattenRanges sortEvents index.raw rules.length
    direct := rules.map SplitTunnelRule.direct }

structure SplitTunnelManager where
  enabled : Bool := false
  rules : List SplitTunnelRule := []
  country : CountrySettings := {}
  snap : Option RuleSnapshot := none

namespace SplitTunnelManager

def publish (stm : SplitTunnelManager) : SplitTunnelManager :=
  { stm with snap := some (publishLocked low sortEvents stm.enabled stm.country stm.rules) }

def recompile (stm : SplitTunnelManager) : SplitTunnelManager :=
  publish low sortEvents { stm with rules := uniqueRules low [] stm.rules }

/-- The end of `LoadConfig`, `AddRule` and `LoadAppRules`: rules are added to those that there are. -/
def addRules (stm : SplitTunnelManager) (rules : List SplitTunnelRule) : SplitTunnelManager :=
  recompile low sortEvents { stm with rules := sortRulesByPriority (stm.rules ++ rules) }

def setEnabled (stm : SplitTunnelManager) (enabled : Bool) : SplitTunnelManager :=
  publish low sortEvents { stm with enabled }

def setCountry (stm : SplitTunnelManager) (country : CountrySettings) : SplitTunnelManager :=
  publish low sortEvents { stm with country }

inductive Call
  | addRules (rules : List SplitTunnelRule)
  | loadAppRules (rules : List SplitTunnelRule) (byCountry : Bool)
  | setEnabled (enabled : Bool)
  | setGeoIP (geo : Option GeoIPSet)
  | setResolver (resolve : Option Nat)
  | setCachedResolver (cached : Option (List Char → Option (List IP)))

/-- The calls that change a manager, each under its lock. -/
def call (stm : SplitTunnelManager) : Call → SplitTunnelManager
  | .addRules rules => stm.addRules low sortEvents rules
  | .loadAppRules rules byCountry =>
    addRules low sortEvents { stm with country := { stm.country with byCountry } } rules
  | .setEnabled enabled => stm.setEnabled low sortEvents enabled
  | .setGeoIP geo => stm.setCountry low sortEvents { stm.country with geo }
  | .setResolver resolve => stm.setCountry low sortEvents { stm.country with resolve }
  | .setCachedResolver cached => stm.setCountry low sortEvents { stm.country with cached }

def after (calls : List Call) : SplitTunnelManager := calls.foldl (call low sortEvents) {}

end SplitTunnelManager

end

/-- Answer, answer from known addresses and record the answer, or use the tunnel and ask the resolver in the
    background. -/
inductive CountryAnswer
  | known (bypass : Bool)
  | record (geo : GeoIPSet) (ips : List IP)
  | learn (geo : GeoIPSet) (resolve : Nat)

/-- `recordCountry`, but for the table of verdicts. -/
def countryBypass (geo : GeoIPSet) (ips : List IP) : Bool := ips.any geo.contains

def CountryAnswer.bypass : CountryAnswer → Bool
  | known bypass => bypass
  | record geo ips => countryBypass geo ips
  | learn _ _ => false

def byCountryVerdict (c : CountrySettings) (verdict : Option Bool) (hostname : List Char) : CountryAnswer :=
  if c.byCountry = false then .known false
  else
    match verdict with
    | some bypass => .known bypass
    | none =>
      match c.geo with
      | none => .known false
      | some geo =>
        if geo.len = 0 then .known false
        else
          match c.cached.bind fun cached => cached hostname with
          | some ips => .record geo ips
          | none =>
            match c.resolve with
            | some resolve => .learn geo resolve
            | none => .known false

def afterDots : List Char → List (List Char)
  | [] => []
  | c :: s => if c = '.' then s :: afterDots s else afterDots s

def takeSuffix (suffixes : List (List Char × Nat)) (best : Option Nat) (h : List Char) : Option Nat :=
  match suffixes.lookup h, best with
  | some i, none => some i
  | some i, some b => if i < b then some i else some b
  | none, best => best

def takeKeyword (hostname : List Char) (best : Option Nat) (k : KwRule) : Option Nat :=
  if best.any (· < k.idx) then best else if containsText hostname k.value then some k.idx else best

/-- The rule on which `bypassHostReason` settles. -/
def hostIndex (snap : RuleSnapshot) (hostname : List Char) : Option Nat :=
  let best := snap.exacts.lookup hostname
  let best := (hostname :: afterDots hostname).foldl (takeSuffix snap.suffixes) best
  snap.keywords.foldl (takeKeyword hostname) best

section
variable (low : Lowering)

def bypassHostReason (verdicts : List Char → Option Bool) (snap : RuleSnapshot) (hostname : List Char) : Bool × Bool :=
  let hostname := low.toLower (trimDot hostname)
  match hostIndex snap hostname with
  | some best => (snap.direct.getD best false, false)
  | none => ((byCountryVerdict snap.country (verdicts hostname) hostname).bypass, true)

def bypassIP (snap : RuleSnapshot) (ip : IP) : Bool :=
  match rangeIndex snap.ranges (Block.copy 16 (ip.to16.getD [])) with
  | some idx => snap.direct.getD idx false
  | none =>
    match snap.country.geo with
    | some geo => if snap.country.byCountry then geo.contains ip else false
    | none => false

def looksLikeIPLoop : List Char → Bool
  | [] => true
  | c :: s => if c = ':' then true else if c ≠ '.' ∧ isDecimal c = false then false else looksLikeIPLoop s

def looksLikeIP (s : List Char) : Bool := if s = [] then false else looksLikeIPLoop s

variable (verdicts : List Char → Option Bool)

def bypassDecision (snap : Option RuleSnapshot) (addr : List Char) : Bool × Bool :=
  match snap with
  | none => (false, false)
  | some snap =>
    if snap.enabled = false then (false, false)
    else
      match if looksLikeIP addr then parseIP addr else none with
      | some ip => (bypassIP snap ip, false)
      | none => bypassHostReason low verdicts snap addr

def shouldBypass (snap : Option RuleSnapshot) (addr : List Char) : Bool :=
  match snap with
  | none => false
  | some snap =>
    if snap.enabled = false then false
    else
      match if looksLikeIP addr then parseIP addr else none with
      | some ip => bypassIP snap ip
      | none => (bypassHostReason low verdicts snap addr).1

end

def shouldBypassByIP (snap : Option RuleSnapshot) (ipStr : List Char) : Bool :=
  match parseIP ipStr with
  | none => false
  | some ip =>
    match snap with
    | none => false
    | some snap => if snap.enabled = false then false else bypassIP snap ip

section
variable (low : Lowering)

/-- A rule hits a host in lower case, as the scan of `oldHostnameMatch` has it. -/
def hitsHost (hostname : List Char) (r : SplitTunnelRule) : Bool :=
  let value := low.toLower r.value
  match r.type with
  | .domain => hostname = trimStar value || ('.' :: trimStar value).isSuffixOf hostname
  | .domainExact => hostname = value
  | .domainKeyword => containsText hostname value
  | .ip => false
  | .unsupported _ => false

/-- `oldHostnameMatch`: the first enabled rule that hits the host decides. -/
def oldHostnameMatch (rules : List SplitTunnelRule) (hostname : List Char) : Option Bool :=
  (rules.find? fun r => r.enabled && hitsHost low (low.toLower (trimDot hostname)) r).map SplitTunnelRule.direct

end

def hitsAddr (a : Block 16) (r : SplitTunnelRule) : Bool := r.type = .ip && (valueRange r.value).any fun rg => rg.has a

end Whispera
