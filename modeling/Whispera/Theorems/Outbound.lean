import Whispera.Outbound
import Whispera.Theorems.Tunnel

/-! `dialCascade` goes through the hops of a chain. But an outbound with a chain dials its exit itself. -/

namespace Whispera
open List Transition

namespace OutboundManager
variable {om : OutboundManager} {ok : CascadeStep → Bool} {finalAddr : String}

/-- Every manager is asked for the address of the next hop, and the last one for the exit. -/
inductive Path (om : OutboundManager) (finalAddr : String) : Via → Nat → List String → List CascadeStep → Via → Prop
  | last (via : Via) (n : Nat) : Path om finalAddr via n [] [.dial via finalAddr] via
  | hop {via via' : Via} {n : Nat} {tag : String} {cfg : OutboundConfig} {hops : List String}
      {steps : List CascadeStep} :
      om.outboundCfgs.lookup tag = some cfg → Path om finalAddr (.hop tag n) (n + 1) hops steps via' →
      Path om finalAddr via n (tag :: hops) (.dial via cfg.address :: .tunnel tag n :: steps) via'

def twoHops : OutboundManager := ⟨["a"], AList.singleton "b" ⟨"b", "192.0.2.2:443", fun _ => none, []⟩⟩

theorem mem_cleanup {n k : Nat} : CascadeStep.closeHop k ∈ cleanup n ↔ k < n := by
  simp [cleanup]

/-- The step that closes the connection with the number: by itself if its tunnel failed, else with the tunnel.
    -/
def closing (ok : CascadeStep → Bool) (tag : String) (k : Nat) : CascadeStep :=
  if ok (.tunnel tag k) then .closeHop k else .closeConn k

theorem cascadeFrom_closes {hops : List String} :
    ∀ {via : Via} {prev : String} {n : Nat} {steps : List CascadeStep} {err : CascadeError},
    om.cascadeFrom ok finalAddr via prev n hops = (steps, .error err) →
    (∀ k < n, .closeHop k ∈ steps) ∧ ∀ tag k, .tunnel tag k ∈ steps → closing ok tag k ∈ steps := by
  induction hops with
  | nil =>
    intro via prev n steps err h
    simp only [cascadeFrom] at h
    split at h <;> cases h
    exact ⟨fun k hk => mem_cons_of_mem _ (mem_cleanup.mpr hk), by simp [cleanup]⟩
  | cons tag hops ih =>
    intro via prev n steps err h
    simp only [cascadeFrom] at h
    split at h
    · cases h
      exact ⟨fun k hk => mem_cleanup.mpr hk, by simp [cleanup]⟩
    · split at h
      · cases h
        exact ⟨fun k hk => mem_cons_of_mem _ (mem_cleanup.mpr hk), by simp [cleanup]⟩
      · split at h
        · rename_i hfailed
          cases h
          refine ⟨fun k hk => ?_, fun tag' k hk => ?_⟩
          · exact mem_cons_of_mem _ (mem_cons_of_mem _ (mem_cons_of_mem _ (mem_cleanup.mpr hk)))
          · -- the only tunnel is the one that failed
            obtain ⟨rfl, rfl⟩ : tag' = tag ∧ k = n := by simpa [cleanup] using hk
            simp [closing, hfailed]
        · rename_i hmade
          obtain ⟨hsteps, hresult⟩ := Prod.mk.inj h
          obtain ⟨hbefore, hafter⟩ := ih (Prod.ext rfl hresult)
          subst hsteps
          refine ⟨fun k hk => by simp [hbefore k (Nat.lt_succ_of_lt hk)], fun tag' k hk => ?_⟩
          rcases mem_cons.mp hk with hk | hk
          · cases hk
          · rcases mem_cons.mp hk with hk | hk
            · cases hk
              rw [closing, if_pos (Decidable.not_not.mp hmade)]
              exact mem_cons_of_mem _ (mem_cons_of_mem _ (hbefore n (Nat.lt_succ_self n)))
            · exact mem_cons_of_mem _ (mem_cons_of_mem _ (hafter tag' k hk))

/-- A cascade that fails leaves no tunnel behind, and no connection whose tunnel was not made. -/
theorem dialCascade_closes {hops : List String} {steps : List CascadeStep} {err : CascadeError}
    (h : om.dialCascade ok finalAddr hops = (steps, .error err)) :
    ∀ tag k, .tunnel tag k ∈ steps → closing ok tag k ∈ steps := by
  cases hops with
  | nil =>
    cases h
    simp
  | cons first rest =>
    simp only [dialCascade] at h
    split at h
    · cases h
      simp
    · split at h
      · obtain ⟨hsteps, -⟩ := Prod.mk.inj h
        simp [← hsteps]
      · exact (cascadeFrom_closes h).2

def threeHops : OutboundManager where
  outbounds := ["a"]
  outboundCfgs := twoHops.outboundCfgs.insert "c" ⟨"c", "192.0.2.3:443", fun _ => none, []⟩

theorem dialCascade_closes_threeHops :
    CascadeStep.closeHop 0 ∈ (threeHops.dialCascade (· ≠ .tunnel "c" 1) "exit" ["a", "b", "c"]).1 ∧
      CascadeStep.closeConn 1 ∈ (threeHops.dialCascade (· ≠ .tunnel "c" 1) "exit" ["a", "b", "c"]).1 :=
  have hclosed := @dialCascade_closes threeHops (· ≠ .tunnel "c" 1) "exit" ["a", "b", "c"] _ (.hopTunnel "c") rfl
  ⟨hclosed "b" 0 (by decide), hclosed "c" 1 (by decide)⟩

end OutboundManager

namespace OutboundConfig
variable (cfg : OutboundConfig)

theorem dial_withWhispera (tCfg : TunnelConfig) (hgrpc : tCfg.enableGRPC = false) (hyadisk : tCfg.enableYaDisk = false)
    (hwhispera : tCfg.enableWhispera = false) (haddr : tCfg.serverAddr = cfg.address) (libs : DialLibs) :
    (cfg.withWhispera tCfg).dial libs = cfg.whisperaSecret.map fun _ => .tcp cfg.address := by
  unfold withWhispera
  split
  · rename_i hnone
    simp [TunnelConfig.dial, TunnelConfig.whisperaDial, TunnelConfig.grpcDial, TunnelConfig.yadiskDial, hgrpc,
      hyadisk, hwhispera, hnone]
  · rename_i decoded hsome
    have hlength : decoded ≠ [] := by
      rintro rfl
      obtain ⟨secret, -, hdecoded⟩ := Option.bind_eq_some_iff.mp hsome
      exact absurd (Option.filter_eq_some_iff.mp hdecoded).2 (by decide)
    simp [TunnelConfig.dial, TunnelConfig.whisperaDial, hlength, haddr, hsome]

theorem dial_tunnelConfig (stealthMode : String) (libs : DialLibs) :
    (cfg.tunnelConfig stealthMode).dial libs = cfg.whisperaSecret.map fun _ => .tcp cfg.address := by
  have hdial := cfg.dial_withWhispera
    { serverAddr := cfg.address, transport := if stealthMode = "russia" then "asn_bypass" else "" } rfl rfl rfl rfl libs
  by_cases hchain : cfg.chain ≠ []
  · rw [tunnelConfig, if_pos hchain]
    exact hdial
  · rw [tunnelConfig, if_neg hchain]
    exact hdial

theorem dial_hopConfig (conn : Nat) (libs : DialLibs) :
    (cfg.hopConfig conn).dial libs = cfg.whisperaSecret.map fun _ => .tcp cfg.address :=
  cfg.dial_withWhispera _ rfl rfl rfl rfl libs

end OutboundConfig

open OutboundConfig Tunnel

variable (env : TunnelEnv) (stealthMode : String) (om : OutboundManager)

/-- The manager of the outbound opens only what goes through its chain, and that of an inner hop only the
    connection it was given. -/
def CascadeHonoured (cfg : OutboundConfig) : Prop :=
  Honours env (cfg.tunnelConfig stealthMode) (.cascade cfg.chain cfg.address) ∧
    ∀ tag ∈ cfg.chain.tail, ∀ hop ∈ om.outboundCfgs.lookup tag, ∀ conn, Honours env (hop.hopConfig conn) (.handed conn)

/-- A chain is kept to only if neither the outbound nor an inner hop has a secret. -/
theorem cascadeHonoured_iff (cfg : OutboundConfig) : CascadeHonoured env stealthMode om cfg ↔
      cfg.whisperaSecret = none ∧
      ∀ tag ∈ cfg.chain.tail, ∀ hop ∈ om.outboundCfgs.lookup tag, hop.whisperaSecret = none := by
  have houtbound : Honours env (cfg.tunnelConfig stealthMode) (.cascade cfg.chain cfg.address) ↔
      cfg.whisperaSecret = none := by
    simp only [honours_iff, dial_tunnelConfig, Option.map_eq_none_iff, forall_const]
  have hhop : ∀ hop : OutboundConfig, (∀ conn, Honours env (hop.hopConfig conn) (.handed conn)) ↔
      hop.whisperaSecret = none := by
    intro hop
    simp only [honours_iff, dial_hopConfig, Option.map_eq_none_iff, forall_const]
  rw [CascadeHonoured, houtbound]
  simp only [hhop]

def sampleExit : OutboundConfig where
  tag := "exit"
  address := "198.51.100.7:443"
  settings name := if name = "whispera_secret" then some "AQIDBAUGBwgJCgsMDQ4PEBESExQVFhcYGRobHB0eHyA=" else none
  chain := ["entry"]

def exitActs : List Act :=
  [.call .connect, .run 0 .go, .run 0 .go, .run 0 .go, .run 0 (.dial ⟨true, true, true⟩ .ok), .run 0 .go, .run 0 .go,
    .call .dialStream, .run 1 (.parse true), .run 1 (.dial ⟨true, true, true⟩ .ok), .run 1 (.take 0),
    .run 1 (.write true)]

/-- The manager of an outbound with a chain dials the exit itself, and the stream runs on that connection. -/
theorem exit_is_dialled_directly :
    ∃ s, AnyRun (step ⟨false, true⟩ (sampleExit.tunnelConfig "")) (new (sampleExit.tunnelConfig "")) exitActs s ∧
      s.opened = [.tcp "198.51.100.7:443"] ∧
      s.callers = [.connect (.done true), .stream (.ready (.tcp "198.51.100.7:443"))] :=
  AnyRun.exists_of_exec (by decide +kernel)

end Whispera
