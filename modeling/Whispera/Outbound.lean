import Mathlib.Data.List.AList
import Whispera.Lib.Base64
import Whispera.Lib.Strings
import Whispera.Tunnel

/-! `core/outbound`: which tunnel an outbound gets, and how `dialCascade` goes through a chain of outbounds.
-/

namespace Whispera

structure OutboundConfig where
  tag : String
  address : String
  settings : String → Option String
  chain : List String

def decodePSK (s : String) : Option Bytes :=
  Base64.decodeStd (Strings.utf8 s) <|> Strings.hexDecode (Strings.utf8 s)

namespace OutboundConfig
variable (cfg : OutboundConfig)

def setting (name : String) : Option String := (cfg.settings name).filter fun s => s ≠ ""

def whisperaSecret : Option Bytes :=
  (cfg.setting "whispera_secret").bind fun secret => (decodePSK secret).filter fun decoded => decoded.length = 32

def withWhispera (tCfg : TunnelConfig) : TunnelConfig :=
  match cfg.whisperaSecret with
  | none => tCfg
  | some decoded =>
    { tCfg with
      enableWhispera := true
      whisperaAddr := cfg.address
      whisperaSecret := decoded
      whisperaSNI := (cfg.setting "whispera_sni").getD tCfg.whisperaSNI
      whisperaQUICAddr := (cfg.setting "whispera_quic_addr").getD tCfg.whisperaQUICAddr }

def tunnelConfig (stealthMode : String) : TunnelConfig :=
  let tCfg := cfg.withWhispera
    { serverAddr := cfg.address, transport := if stealthMode = "russia" then "asn_bypass" else "" }
  if cfg.chain ≠ [] then { tCfg with customDialFn := some (.cascade cfg.chain cfg.address) } else tCfg

def hopConfig (conn : Nat) : TunnelConfig :=
  cfg.withWhispera { serverAddr := cfg.address, maxReconnectAttempts := 1, customDialFn := some (.handed conn) }

end OutboundConfig

/-- `OutboundManager`: the outbounds that have a manager, and the configurations of all. -/
structure OutboundManager where
  outbounds : List String
  outboundCfgs : AList fun _ : String => OutboundConfig

/-- A manager that `dialCascade` uses: that of an outbound, or one that it has made for a hop, on its
    connection with the number. -/
inductive Via
  | outbound (tag : String)
  | hop (tag : String) (conn : Nat)
  deriving DecidableEq, Repr

inductive CascadeStep
  | dial (via : Via) (addr : String)
  | tunnel (tag : String) (conn : Nat)
  | closeConn (conn : Nat)
  | closeHop (conn : Nat)
  deriving DecidableEq, Repr

inductive CascadeError
  | emptyChain
  | hopNotFound (tag : String)
  | configNotFound (tag : String)
  | stream
  | hopDial (source target : String)
  | hopTunnel (tag : String)
  | finalDial (addr : String)
  deriving DecidableEq, Repr

namespace OutboundManager
variable (om : OutboundManager) (ok : CascadeStep → Bool) (finalAddr : String)

def cleanup (n : Nat) : List CascadeStep := (List.range n).reverse.map .closeHop

/-- The loop of `dialCascade`, with `n` hops behind it, and the last dial. -/
def cascadeFrom (via : Via) (prev : String) (n : Nat) : List String → List CascadeStep × Except CascadeError Via
  | [] =>
    let last := CascadeStep.dial via finalAddr
    if ok last then ([last], .ok via) else (last :: cleanup n, .error (.finalDial finalAddr))
  | hop :: hops =>
    match om.outboundCfgs.lookup hop with
    | none => (cleanup n, .error (.configNotFound hop))
    | some cfg =>
      let dial := CascadeStep.dial via cfg.address
      if ¬ok dial then (dial :: cleanup n, .error (.hopDial prev hop))
      else
        let tunnel := CascadeStep.tunnel hop n
        if ¬ok tunnel then (dial :: tunnel :: .closeConn n :: cleanup n, .error (.hopTunnel hop))
        else
          let (steps, result) := cascadeFrom (.hop hop n) hop (n + 1) hops
          (dial :: tunnel :: steps, result)

/-- `dialCascade`: what it does, and the manager whose stream it returns; `ok` says which steps succeed. -/
def dialCascade (hops : List String) : List CascadeStep × Except CascadeError Via :=
  match hops with
  | [] => ([], .error .emptyChain)
  | first :: rest =>
    if ¬om.outbounds.contains first then ([], .error (.hopNotFound first))
    else if rest = [] then
      let last := CascadeStep.dial (.outbound first) finalAddr
      ([last], if ok last then .ok (.outbound first) else .error .stream)
    else om.cascadeFrom ok finalAddr (.outbound first) first 0 rest

end OutboundManager
end Whispera
