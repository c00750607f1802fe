import Whispera.Lib.Table
import Whispera.Outbound

/-! `validateChainGraph`, `AddOutbound` and `UpdateOutbounds` of `core/outbound/outbound.go`. -/

namespace Whispera

/-- `known`, in which the last configuration with a tag counts. -/
def knownChain (configs : List OutboundConfig) (tag : String) : Option (List String) :=
  (configs.reverse.find? fun c => c.tag == tag).map OutboundConfig.chain

theorem mem_of_knownChain {configs : List OutboundConfig} {tag : String} {chain : List String}
    (h : knownChain configs tag = some chain) : ∃ c ∈ configs, c.tag = tag ∧ c.chain = chain := by
  obtain ⟨c, hc, hchain⟩ := Option.map_eq_some_iff.mp h
  have htag := List.find?_some hc
  exact ⟨c, List.mem_reverse.mp (List.mem_of_find?_eq_some hc), beq_iff_eq.mp htag, hchain⟩

/-- `visit` with the tags on the stack; the error is the tag at which there is a cycle. -/
def visit (configs : List OutboundConfig) (stack : List String) (tag : String) : Option String :=
  match _h : knownChain configs tag with
  | none => none
  | some chain =>
    if _hs : tag ∈ stack then some tag else chain.findSome? fun hop => visit configs (tag :: stack) hop
termination_by ((configs.map OutboundConfig.tag).filter fun t => t ∉ stack).length
decreasing_by
  -- `tag` is known, and is on the stack from now on
  obtain ⟨c, hc, htag, -⟩ := mem_of_knownChain _h
  have hfilter : (configs.map OutboundConfig.tag).filter (fun t => t ∉ tag :: stack) =
      ((configs.map OutboundConfig.tag).filter fun t => t ∉ stack).filter fun t => t ≠ tag := by
    simp [List.filter_filter]
  rw [hfilter, List.length_filter_lt_length_iff_exists]
  exact ⟨tag, List.mem_filter.mpr ⟨htag ▸ List.mem_map_of_mem hc, by simpa using _hs⟩, by simp⟩

def validateChainGraph (configs : List OutboundConfig) (order : List String) : Option String :=
  order.findSome? (visit configs [])

/-- The durations of `tunnel.Config`, in nanoseconds. -/
structure TunnelDurations where
  keepaliveInterval : Int := 0
  reconnectInterval : Int := 0
  reconnectMaxDelay : Int := 0
  connectionTimeout : Int := 0
  deriving DecidableEq, Repr

/-- `Config.Validate`, which sets what is missing. -/
def TunnelDurations.validate (c : TunnelDurations) : Except String TunnelDurations :=
  let or (d standard : Int) := if d ≤ 0 then standard else d
  .ok {
    keepaliveInterval := or c.keepaliveInterval 10000000000
    reconnectInterval := or c.reconnectInterval 2000000000
    reconnectMaxDelay := or c.reconnectMaxDelay 30000000000
    connectionTimeout := or c.connectionTimeout 90000000000 }

/-- What `tunnel.New`, `Init` and `Start` set in a manager. -/
structure TunnelModule where
  durations : TunnelDurations
  running : Bool := false
  healthy : Bool := true
  healthMsg : String := "initialized"
  deriving DecidableEq, Repr

namespace TunnelModule

/-- `tunnel.New`, which fails if the configuration is not valid. -/
def new (cfg : TunnelDurations) : Except String TunnelModule :=
  match cfg.validate with
  | .error err => .error err
  | .ok durations => .ok { durations }

/-- `Module.Init` of `common/runtime/base/base.go`. -/
def init (m : TunnelModule) : Except String TunnelModule := .ok { m with healthMsg := "initialized" }

/-- `Module.Start` of `common/runtime/base/base.go`. -/
def startModule (m : TunnelModule) : Except String TunnelModule :=
  .ok { m with running := true, healthy := true, healthMsg := "running" }

/-- `Manager.Start`. -/
def start (m : TunnelModule) : Except String TunnelModule :=
  match m.startModule with
  | .error err => .error err
  | .ok m => .ok { m with healthy := true, healthMsg := "tunnel manager running" }

end TunnelModule

/-- The configurations that the managers were made from, and those that were stored. -/
structure OutboundTables where
  outbounds : Table.Map String OutboundConfig := ∅
  outboundCfgs : Table.Map String OutboundConfig := ∅

namespace OutboundTables

/-- The durations that `tunnelConfigFor` sets. -/
def tunnelDurations : TunnelDurations := { keepaliveInterval := 15000000000, reconnectInterval := 5000000000 }

/-- The manager of an outbound, made, initialised and started. -/
def startManager : Except String TunnelModule :=
  match TunnelModule.new tunnelDurations with
  | .error err => .error err
  | .ok m =>
    match m.init with
    | .error err => .error err
    | .ok m => m.start

/-- `AddOutbound`, which stores the configuration first. -/
def addOutbound (om : OutboundTables) (cfg : OutboundConfig) : OutboundTables × Option String :=
  if (om.outbounds.lookup cfg.tag).isSome then (om, some ("outbound " ++ cfg.tag ++ " already exists"))
  else
    let outboundCfgs := om.outboundCfgs.insert cfg.tag cfg
    match startManager with
    | .error err => ({ om with outboundCfgs }, some err)
    | .ok _ => ({ outbounds := om.outbounds.insert cfg.tag cfg, outboundCfgs }, none)

def addMissing (om : OutboundTables) (configs : List OutboundConfig) : OutboundTables :=
  configs.foldl (fun om c => if (om.outbounds.lookup c.tag).isSome then om else (om.addOutbound c).1) om

def removeOthers (om : OutboundTables) (current : String → Bool) : OutboundTables where
  outbounds := Table.filter (fun tag _ => current tag) om.outbounds
  outboundCfgs := Table.filter (fun tag _ => current tag || (om.outbounds.lookup tag).isNone) om.outboundCfgs

/-- `UpdateOutbounds`; `order` is that of the map of the tags in the validation. -/
def updateOutbounds (om : OutboundTables) (configs : List OutboundConfig) (order : List String) : OutboundTables :=
  match validateChainGraph configs order with
  | some _ => om
  | none => (om.addMissing configs).removeOthers fun tag => configs.any fun c => c.tag == tag

inductive Call
  | addOutbound (cfg : OutboundConfig)
  | updateOutbounds (configs : List OutboundConfig) (order : List String)

def call (om : OutboundTables) : Call → OutboundTables
  | .addOutbound cfg => (om.addOutbound cfg).1
  | .updateOutbounds configs order => om.updateOutbounds configs order

end OutboundTables
end Whispera
