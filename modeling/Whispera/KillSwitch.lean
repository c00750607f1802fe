import Whispera.Lib.Net

/-! `core/killswitch/killswitch.go`. Every method holds the lock for all of its work. A call of the platform
that fails changes nothing. -/

namespace Whispera
open Net

inductive KillSwitchState
  | disabled
  | enabled
  | active
  deriving DecidableEq, Repr

structure KillSwitchConfig where
  enabled : Bool := false
  allowLAN : Bool := true
  allowDNS : Bool := false
  persistRules : Bool := false
  allowedIPs : List (List Char) := []
  deriving DecidableEq, Repr

/-- The blocking rules, by what `Platform.Enable` was called with. -/
structure BlockingRules where
  vpnIP : Option IP
  vpnPort : Int
  allowLAN : Bool
  allowDNS : Bool
  allowedIPs : List IP
  deriving DecidableEq, Repr

structure KillSwitch where
  config : KillSwitchConfig
  state : KillSwitchState := .disabled
  vpnIP : Option IP := none
  vpnPort : Int := 0
  localIPs : List IP
  rules : Option BlockingRules
  deriving DecidableEq, Repr

/-- What a method reports; an error of the platform is passed on, with or without a text before it. -/
inductive KillSwitchError
  | unsupported
  | noServer
  | enable
  | disable
  | platform
  deriving DecidableEq, Repr

namespace KillSwitch

def new (cfg : Option KillSwitchConfig) (localIPs : List IP) (rules : Option BlockingRules) : KillSwitch where
  config := cfg.getD {}
  localIPs := localIPs
  rules := rules

def setVPNServer (ks : KillSwitch) (ip : Option IP) (port : Int) : KillSwitch :=
  { ks with vpnIP := ip, vpnPort := port }

section
variable (parseIP : List Char → Option IP)

def wanted (ks : KillSwitch) (cfg : KillSwitchConfig) : BlockingRules where
  vpnIP := ks.vpnIP
  vpnPort := ks.vpnPort
  allowLAN := cfg.allowLAN
  allowDNS := cfg.allowDNS
  allowedIPs := cfg.allowedIPs.filterMap parseIP ++ if cfg.allowLAN then ks.localIPs else []

/-- `Enable`, when the platform is `supported` and its `Enable` succeeds if `ok` holds. -/
def enable (ks : KillSwitch) (supported ok : Bool) : Option KillSwitchError × KillSwitch :=
  if supported = false then (some .unsupported, ks)
  else if ks.state = .active then (none, ks)
  else if ks.vpnIP = none then (some .noServer, ks)
  else if ok = false then (some .enable, ks)
  else (none, { ks with rules := some (ks.wanted parseIP ks.config), state := .active })

def disable (ks : KillSwitch) (ok : Bool) : Option KillSwitchError × KillSwitch :=
  if ks.state = .disabled then (none, ks)
  else if ok = false then (some .disable, ks)
  else (none, { ks with rules := none, state := .disabled })

/-- `UpdateConfig`: rules that are active are removed, and installed anew if the new configuration says so. -/
def updateConfig (ks : KillSwitch) (cfg : KillSwitchConfig) (disabled enabled : Bool) :
    Option KillSwitchError × KillSwitch :=
  if ks.state = .active then
    if disabled = false then (some .platform, ks)
    else
      let ks := { ks with rules := none, config := cfg }
      if cfg.enabled = false then (none, ks)
      else if enabled = false then (some .platform, ks)
      else (none, { ks with rules := some (ks.wanted parseIP cfg) })
  else (none, { ks with config := cfg })

def shutdown (ks : KillSwitch) (ok : Bool) : Option KillSwitchError × KillSwitch :=
  if ks.config.persistRules then (none, { ks with state := .disabled })
  else if ok = false then (some .platform, ks)
  else (none, { ks with rules := none, state := .disabled })

inductive Call
  | setVPNServer (ip : Option IP) (port : Int)
  | enable (supported ok : Bool)
  | disable (ok : Bool)
  | updateConfig (cfg : KillSwitchConfig) (disabled enabled : Bool)
  | shutdown (ok : Bool)
  deriving DecidableEq, Repr

def step (ks : KillSwitch) : Call → Option KillSwitch
  | .setVPNServer ip port => some (ks.setVPNServer ip port)
  | .enable supported ok => some (ks.enable parseIP supported ok).2
  | .disable ok => some (ks.disable ok).2
  | .updateConfig cfg disabled enabled => some (ks.updateConfig parseIP cfg disabled enabled).2
  | .shutdown ok => some (ks.shutdown ok).2

end
end KillSwitch
end Whispera
