import Whispera.KillSwitch
import Whispera.Lib.Transition

/-! Only `UpdateConfig` leaves the state alone while it removes the rules. -/

namespace Whispera
open Net Transition

namespace KillSwitch

/-- While the kill switch says that it is active, the rules are installed. -/
def Honest (ks : KillSwitch) : Prop := ks.state = .active → ks.rules ≠ none

instance (ks : KillSwitch) : Decidable ks.Honest := inferInstanceAs (Decidable (_ → _))

/-- A new configuration takes effect at once: an active kill switch cannot remove its rules, or installs new
    ones. -/
def Restored (ks : KillSwitch) : Call → Prop
  | .updateConfig cfg disabled enabled => ks.state = .active → disabled = false ∨ (cfg.enabled = true ∧ enabled = true)
  | _ => True

instance (ks : KillSwitch) (call) : Decidable (ks.Restored call) := by
  unfold Restored
  split <;> infer_instance

variable {parseIP : List Char → Option IP} {ks ks' : KillSwitch}

theorem Honest.enable (h : ks.Honest) {supported ok : Bool} (herr : (ks.enable parseIP supported ok).1 = none) :
    (ks.enable parseIP supported ok).2.rules ≠ none := by
  unfold KillSwitch.enable at herr ⊢
  split at herr
  · cases herr
  · rename_i hsupported
    rw [if_neg hsupported]
    split at herr
    · rename_i hactive
      rw [if_pos hactive]
      exact h hactive
    · rename_i hactive
      rw [if_neg hactive]
      split at herr
      · cases herr
      · rename_i hip
        rw [if_neg hip]
        split at herr
        · cases herr
        · rename_i hok
          rw [if_neg hok]
          exact Option.some_ne_none _

theorem honest_enable (h : ks.Honest) (supported ok : Bool) : (ks.enable parseIP supported ok).2.Honest := by
  unfold KillSwitch.enable
  split
  · exact h
  · split
    · exact h
    · split
      · exact h
      · split
        · exact h
        · exact fun _ => Option.some_ne_none _

theorem honest_disable (h : ks.Honest) (ok : Bool) : (ks.disable ok).2.Honest := by
  unfold KillSwitch.disable
  split
  · exact h
  · split
    · exact h
    · exact nofun

theorem honest_shutdown (h : ks.Honest) (ok : Bool) : (ks.shutdown ok).2.Honest := by
  unfold KillSwitch.shutdown
  split
  · exact nofun
  · split
    · exact h
    · exact nofun

theorem honest_updateConfig_iff (h : ks.Honest) (cfg : KillSwitchConfig) (disabled enabled : Bool) :
    (ks.updateConfig parseIP cfg disabled enabled).2.Honest ↔ ks.Restored (.updateConfig cfg disabled enabled) := by
  unfold KillSwitch.updateConfig
  by_cases hactive : ks.state = .active
  · have hrules := h hactive
    cases disabled <;> cases henabled : cfg.enabled <;> cases enabled <;>
      simp [Honest, Restored, hactive, hrules, henabled]
  · simp [Honest, Restored, hactive]

theorem honest_step_iff {call : Call} (h : ks.Honest) (hs : ks.step parseIP call = some ks') :
    ks'.Honest ↔ ks.Restored call := by
  cases call with
  | setVPNServer ip port => cases hs; exact iff_of_true h trivial
  | enable supported ok => cases hs; exact iff_of_true (honest_enable h supported ok) trivial
  | disable ok => cases hs; exact iff_of_true (honest_disable h ok) trivial
  | updateConfig cfg disabled enabled => cases hs; exact honest_updateConfig_iff h cfg disabled enabled
  | shutdown ok => cases hs; exact iff_of_true (honest_shutdown h ok) trivial

end KillSwitch

open KillSwitch

/-- All along a sequence of calls the kill switch is active only while the rules are installed, and `Enable`
    succeeds only with rules installed, exactly if each new configuration finds the kill switch not active, or
    fails to remove the rules, or has them installed again. -/
theorem active_means_installed_iff (parseIP : List Char → Option IP) (cfg : Option KillSwitchConfig)
    (localIPs : List IP)
    (rules : Option BlockingRules) (calls : List Call) (ks : KillSwitch)
    (hrun : AnyRun (KillSwitch.step parseIP) (.new cfg localIPs rules) calls ks) :
    (∀ calls' ks', calls' <+: calls → AnyRun (KillSwitch.step parseIP) (.new cfg localIPs rules) calls' ks' →
      ks'.Honest ∧ ∀ supported ok, (ks'.enable parseIP supported ok).1 = none →
        (ks'.enable parseIP supported ok).2.rules ≠ none) ↔
      Run (KillSwitch.step parseIP) Restored (.new cfg localIPs rules) calls ks := by
  have hnew : (KillSwitch.new cfg localIPs rules).Honest := nofun
  rw [← Run.always_iff honest_step_iff hrun hnew]
  constructor
  · intro h calls' ks' hpre hrun'
    exact (h calls' ks' hpre hrun').1
  · intro h calls' ks' hpre hrun'
    exact ⟨h calls' ks' hpre hrun', fun supported ok => (h calls' ks' hpre hrun').enable⟩

def toServer : Call := .setVPNServer (some [192, 0, 2, 1]) 443

theorem active_means_installed_while_enabled : ∃ ks, AnyRun (KillSwitch.step fun _ => none) (.new none [] none)
      [toServer, .enable true true, .updateConfig { enabled := true } true true] ks ∧
    ks.state = .active ∧ ∀ calls' ks',
      calls' <+: [toServer, .enable true true, .updateConfig { enabled := true } true true] →
      AnyRun (KillSwitch.step fun _ => none) (.new none [] none) calls' ks' →
      ks'.Honest ∧ ∀ supported ok, (ks'.enable (fun _ => none) supported ok).1 = none →
        (ks'.enable (fun _ => none) supported ok).2.rules ≠ none := by
  obtain ⟨ks, hrun, hs⟩ : ∃ ks, Run (KillSwitch.step fun _ => none) Restored (.new none [] none)
      [toServer, .enable true true, .updateConfig { enabled := true } true true] ks ∧ ks.state = .active :=
    Run.exists_of_exec (by decide +kernel) fun _ _ hs => hs
  have hany := hrun.mono fun _ _ _ => trivial
  exact ⟨ks, hany, hs, (active_means_installed_iff _ _ _ _ _ ks hany).mpr hrun⟩

/-- A configuration that switches it off leaves the kill switch active without rules. -/
theorem active_without_rules : ∃ ks, AnyRun (KillSwitch.step fun _ => none) (.new none [] none)
      [toServer, .enable true true, .updateConfig { enabled := false } true true] ks ∧
    ks.state = .active ∧ ks.rules = none ∧ ks.enable (fun _ => none) true true = (none, ks) :=
  AnyRun.exists_of_exec (by decide +kernel)

end Whispera
