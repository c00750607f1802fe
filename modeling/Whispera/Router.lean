import Whispera.Lib.Lru
import Whispera.Lib.Net

/-! The model of `core/router/router.go`. -/

namespace Whispera
open Net

inductive DestinationType
  | direct
  | proxy
  | block
  | tun
  | unnamed (name : String)
  deriving DecidableEq, Repr

structure Destination where
  type : DestinationType
  address : String := ""
  port : UInt16 := 0
  tag : String := ""
  deriving DecidableEq, Repr

inductive RuleField
  | dstIP
  | srcIP
  | dstPort
  | srcPort
  | sessionID
  | unsupported (name : String)
  deriving DecidableEq, Repr

inductive RuleOperator
  | eq
  | cidr
  | isIn
  | range
  | unsupported (name : String)
  deriving DecidableEq, Repr

inductive RuleValue
  | str (s : List Char)
  | strs (l : List (List Char))
  | int (n : Int)
  | ints (l : List Int)
  | u32 (n : UInt32)
  | u32s (l : List UInt32)
  | unsupported
  deriving DecidableEq, Repr

structure RuleCondition where
  field : RuleField
  operator : RuleOperator
  value : RuleValue
  deriving DecidableEq, Repr

structure RoutingRule where
  id : String
  priority : Int := 0
  conditions : List RuleCondition
  destination : Destination
  deriving DecidableEq, Repr

structure Packet where
  sessionID : UInt32 := 0
  srcAddr : Option Addr := none
  dstAddr : Option Addr := none
  deriving DecidableEq, Repr

/-- The standard library: `sort.Slice` by descending priority leaves the order of rules with the same priority
    open. -/
structure RouterLib where
  parseIP : List Char → Option IP
  parseCIDR : List Char → Option IPNet
  sortRules : List RoutingRule → List RoutingRule

def addrIP (addr : Option Addr) : Option IP := (addr.bind Addr.inet).map Prod.fst

def addrPort (addr : Option Addr) : Option Int := (addr.bind Addr.inet).map Prod.snd

def matchPort (addr : Option Addr) (cond : RuleCondition) : Bool :=
  match addrPort addr with
  | none => false
  | some port =>
    match cond.operator, cond.value with
    | .eq, .int v => port = v
    | .isIn, .ints l => port ∈ l
    | .range, .ints [lo, hi] => lo ≤ port ∧ port ≤ hi
    | _, _ => false

def matchSessionID (packet : Packet) (cond : RuleCondition) : Bool :=
  match cond.operator, cond.value with
  | .eq, .u32 v => packet.sessionID = v
  | .isIn, .u32s l => packet.sessionID ∈ l
  | _, _ => false

section
variable (lib : RouterLib)

def matchIP (addr : Option Addr) (cond : RuleCondition) : Bool :=
  match addrIP addr with
  | none => false
  | some ip =>
    match cond.operator, cond.value with
    | .eq, .str s => ip.string = s
    | .cidr, .str s =>
      match lib.parseCIDR s with
      | none => false
      | some cidr => cidr.contains ip
    | .isIn, .strs l => ip.string ∈ l
    | _, _ => false

def matchCondition (cond : RuleCondition) (packet : Packet) : Bool :=
  match cond.field with
  | .dstIP => matchIP lib packet.dstAddr cond
  | .srcIP => matchIP lib packet.srcAddr cond
  | .dstPort => matchPort packet.dstAddr cond
  | .srcPort => matchPort packet.srcAddr cond
  | .sessionID => matchSessionID packet cond
  | .unsupported _ => false

structure CompiledCond where
  raw : RuleCondition
  cidr : Option IPNet := none
  ip : Option IP := none

structure CompiledRule where
  conds : List CompiledCond
  dest : Destination

def compileCond (cond : RuleCondition) : CompiledCond :=
  match cond.field, cond.operator, cond.value with
  | .dstIP, .cidr, .str s | .srcIP, .cidr, .str s => { raw := cond, cidr := lib.parseCIDR s }
  | .dstIP, .eq, .str s | .srcIP, .eq, .str s => { raw := cond, ip := lib.parseIP s }
  | _, _, _ => { raw := cond }

def compileRules (rules : List RoutingRule) : List CompiledRule :=
  rules.map fun r => { conds := r.conditions.map (compileCond lib), dest := r.destination }

/-- The network and the address of a compiled condition, as far as it has them. -/
def CompiledCond.admits (c : CompiledCond) (addr : Option Addr) : Bool :=
  match addrIP addr with
  | none => false
  | some ip => (c.cidr.all fun n => n.contains ip) && (c.ip.all fun x => x.equal ip)

def matchCompiledCond (c : CompiledCond) (packet : Packet) : Bool :=
  if c.cidr = none ∧ c.ip = none then matchCondition lib c.raw packet
  else c.admits (if c.raw.field = .srcIP then packet.srcAddr else packet.dstAddr)

def matchCompiled (cr : CompiledRule) (packet : Packet) : Bool :=
  cr.conds.all fun c => matchCompiledCond lib c packet

end

structure RouterConfig where
  defaultDestination : Destination := { type := .direct }
  maxRules : Int := 1000
  enableCache : Bool := true
  cacheSize : Int := 10000

def RouterConfig.validate (c : RouterConfig) : RouterConfig :=
  { c with
    maxRules := if c.maxRules ≤ 0 then 1000 else c.maxRules
    cacheSize := if c.cacheSize ≤ 0 then 10000 else c.cacheSize }

structure Engine where
  config : RouterConfig
  rules : List RoutingRule := []
  compiled : List CompiledRule := []
  byID : List String := []
  cache : Lru (List Char) Destination

inductive RuleError
  | noID
  | exists (id : String)
  | full (max : Int)
  | notFound (id : String)
  | duplicate (id : String)
  deriving DecidableEq, Repr

namespace Engine

def new (cfg : RouterConfig) : Engine where
  config := cfg.validate
  cache := { size := cfg.validate.cacheSize.toNat }

def routesOnAddress (e : Engine) : Bool :=
  e.rules.any fun rule => rule.conditions.any fun cond => cond.field = .dstIP ∨ cond.field = .srcIP

def checkCache (e : Engine) (packet : Packet) : Option Destination × Engine :=
  match packet.dstAddr with
  | none => (none, e)
  | some addr =>
    let (dest, cache) := e.cache.get addr.string
    (dest, { e with cache })

def updateCache (e : Engine) (packet : Packet) (dest : Destination) : Engine :=
  match packet.dstAddr with
  | none => e
  | some addr => { e with cache := e.cache.add addr.string dest }

section
variable (lib : RouterLib)

def scan (e : Engine) (packet : Packet) : Destination :=
  match e.compiled.find? fun cr => matchCompiled lib cr packet with
  | some cr => cr.dest
  | none => e.config.defaultDestination

def route (e : Engine) (packet : Packet) : Destination × Engine :=
  if e.config.enableCache then
    match e.checkCache packet with
    | (some dest, e') => (dest, e')
    | (none, e') => (e'.scan lib packet, e'.updateCache packet (e'.scan lib packet))
  else (e.scan lib packet, e)

def setRules (e : Engine) (rules : List RoutingRule) (byID : List String) : Engine :=
  { e with rules, compiled := compileRules lib rules, byID, cache := e.cache.purge }

def addRule (e : Engine) (rule : RoutingRule) : Except RuleError Engine :=
  if rule.id = "" then .error .noID
  else if rule.id ∈ e.byID then .error (.exists rule.id)
  else if e.config.maxRules ≤ e.rules.length then .error (.full e.config.maxRules)
  else
    let rules := lib.sortRules (e.rules ++ [rule])
    .ok (e.setRules lib rules (rules.map RoutingRule.id))

def removeRule (e : Engine) (id : String) : Except RuleError Engine :=
  if id ∉ e.byID then .error (.notFound id)
  else .ok (e.setRules lib (e.rules.filter fun r => r.id ≠ id) (e.byID.filter (· ≠ id)))

/-- The check of the identifiers in `UpdateRules`, with those it has seen. -/
def checkIDs (seen : List String) : List RoutingRule → Option RuleError
  | [] => none
  | r :: rules =>
    if r.id = "" then some .noID
    else if r.id ∈ seen then some (.duplicate r.id)
    else checkIDs (r.id :: seen) rules

def updateRules (e : Engine) (rules : List RoutingRule) : Except RuleError Engine :=
  match checkIDs [] rules with
  | some err => .error err
  | none => .ok (e.setRules lib (lib.sortRules rules) ((lib.sortRules rules).map RoutingRule.id))

end
end Engine

inductive EngineCall
  | route (packet : Packet)
  | addRule (rule : RoutingRule)
  | removeRule (id : String)
  | updateRules (rules : List RoutingRule)

/-- An engine, with the packet that was routed when the cache entry of a key was made. -/
structure RoutedEngine where
  engine : Engine
  filler : List Char → Option Packet := fun _ => none

namespace RoutedEngine

def start (cfg : RouterConfig) : RoutedEngine where
  engine := .new cfg

def fill (s : RoutedEngine) (packet : Packet) : List Char → Option Packet :=
  match packet.dstAddr with
  | none => s.filler
  | some addr =>
    if s.engine.config.enableCache ∧ (s.engine.checkCache packet).1 = none then
      fun k => if k = addr.string then some packet else s.filler k
    else s.filler

/-- A call that is refused changes nothing. -/
def change (s : RoutedEngine) : Except RuleError Engine → RoutedEngine
  | .error _ => s
  | .ok engine => { s with engine }

def step (lib : RouterLib) (s : RoutedEngine) : EngineCall → Option RoutedEngine
  | .route packet => some { engine := (s.engine.route lib packet).2, filler := s.fill packet }
  | .addRule rule => some (s.change (s.engine.addRule lib rule))
  | .removeRule id => some (s.change (s.engine.removeRule lib id))
  | .updateRules rules => some (s.change (s.engine.updateRules lib rules))

end RoutedEngine
end Whispera
