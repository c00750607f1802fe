import Whispera.Lib.Transition
import Whispera.Tunnel

/-! A manager opens only connections that the selector dials and the one for the datagram lane, and never
calls the dial function of the configuration. -/

namespace Whispera
open List Option Transition

/-- The routes that the configuration allows. -/
inductive TunnelConfig.Dials (cfg : TunnelConfig) : Route → Prop
  | stream (libs : DialLibs) (r : Route) : cfg.dial libs = some r → cfg.Dials r
  | lane : cfg.HasLane → cfg.Dials (.quic cfg.whisperaQUICAddr)

def StreamPc.Holds (P : Route → Prop) : StreamPc → Prop
  | .flow r | .dialling r | .header r _ _ | .redial r => P r
  | _ => True

def Caller.Sound (cfg : TunnelConfig) : Caller → Prop
  | .stream pc => pc.Holds cfg.Dials
  | .laneDial => cfg.HasLane
  | _ => True

namespace Tunnel

section
variable (s : Tunnel)

@[simp] theorem opened_put (r : Route) : (s.put r).opened = s.opened := by
  unfold put
  split <;> rfl

@[simp] theorem callers_put (r : Route) : (s.put r).callers = s.callers := by
  unfold put
  split <;> rfl

variable (outcome : DialOutcome) (st : ReconnectState)

@[simp] theorem opened_dialFailed : (s.dialFailed outcome).opened = s.opened := by
  cases outcome <;> rfl

@[simp] theorem callers_dialFailed : (s.dialFailed outcome).callers = s.callers := by
  cases outcome <;> rfl

@[simp] theorem opened_prepareAttempt : (s.prepareAttempt st).1.opened = s.opened := by
  unfold prepareAttempt
  split <;> rfl

@[simp] theorem callers_prepareAttempt : (s.prepareAttempt st).1.callers = s.callers := by
  unfold prepareAttempt
  split <;> rfl

end

variable {env : TunnelEnv} {cfg : TunnelConfig} {s t : Tunnel}

/-- What a step opens and hands to callers is allowed. -/
structure Grows (cfg : TunnelConfig) (s t : Tunnel) : Prop where
  opened : ∀ r ∈ t.opened, r ∈ s.opened ∨ cfg.Dials r
  callers : ∃ cs, t.callers = s.callers ++ cs ∧ ∀ c ∈ cs, c.Sound cfg

theorem Grows.of_eq (hopened : t.opened = s.opened) (hcallers : t.callers = s.callers) : Grows cfg s t where
  opened := fun r hr => .inl (hopened ▸ hr)
  callers := ⟨[], by rw [hcallers, append_nil], fun c hc => absurd hc not_mem_nil⟩

theorem Grows.dial {r : Route} (hr : cfg.Dials r) (hopened : t.opened = r :: s.opened)
    (hcallers : t.callers = s.callers) :
    Grows cfg s t where
  opened := by
    intro q hq
    rw [hopened] at hq
    rcases mem_cons.mp hq with rfl | hq
    · exact .inr hr
    · exact .inl hq
  callers := ⟨[], by rw [hcallers, append_nil], fun c hc => absurd hc not_mem_nil⟩

theorem grows_startDatagramLane (s : Tunnel) : Grows cfg s (s.startDatagramLane cfg) := by
  unfold startDatagramLane
  split
  · exact .of_eq rfl rfl
  · rename_i hno
    have hlane : cfg.HasLane := Decidable.not_not.mp fun h => hno (.inl h)
    refine ⟨fun r hr => .inl hr, [.laneDial], rfl, fun c hc => ?_⟩
    rw [mem_singleton.mp hc]
    exact hlane

variable {choice : Choice}

theorem stepConnect_grows {pc pc' : ConnectPc} (h : s.stepConnect env cfg pc choice = some (t, pc')) :
    Grows cfg s t := by
  unfold stepConnect at h
  split at h <;> try cases h
  · split at h <;> cases h <;> exact .of_eq rfl rfl
  · exact .of_eq rfl rfl
  · exact .of_eq rfl rfl
  · -- the dial: the one step that opens a connection
    rename_i libs outcome
    split at h
    · cases h
      exact .of_eq rfl rfl
    · simp only at h
      split at h
      · cases h
        exact .of_eq rfl rfl
      · rename_i r hr
        cases outcome <;> cases h <;> exact .dial (.stream libs r hr) rfl rfl
  · split at h <;> cases h
    · exact .of_eq rfl rfl
    · refine .of_eq ?_ ?_ <;> split <;> simp [setState]
  · exact grows_startDatagramLane s

theorem stepReconnect_grows {st st' : ReconnectState} {pc pc' : ReconnectPc}
    (h : s.stepReconnect env cfg st pc choice = some (t, st', pc')) : Grows cfg s t := by
  unfold stepReconnect at h
  split at h <;> try cases h
  · split at h <;> cases h <;> exact .of_eq rfl rfl
  · simp only at h
    split at h <;> cases h <;> exact .of_eq rfl rfl
  · exact .of_eq rfl rfl
  · simp only at h
    split at h <;> cases h
    · exact .of_eq rfl rfl
    · exact .of_eq (opened_prepareAttempt s _) (callers_prepareAttempt s _)
  · exact .of_eq rfl rfl
  · exact .of_eq rfl rfl
  · -- inside the call of `Connect`
    obtain ⟨⟨u, pc''⟩, hstep, hu⟩ := map_eq_some_iff.mp h
    cases hu
    exact stepConnect_grows hstep
  · exact .of_eq rfl rfl
  · exact .of_eq rfl rfl
  · exact .of_eq rfl rfl

theorem stepStream_grows {pc pc' : StreamPc} (h : s.stepStream env cfg pc choice = some (t, pc'))
    (hpc : pc.Holds cfg.Dials) : Grows cfg s t ∧ pc'.Holds cfg.Dials := by
  unfold stepStream at h
  split at h <;> try cases h
  · refine ⟨.of_eq rfl rfl, ?_⟩
    split <;> trivial
  · -- here the call gets its dial function, which it keeps
    rename_i libs _
    split at h
    · split at h <;> cases h <;> exact ⟨.of_eq rfl rfl, trivial⟩
    · split at h <;> cases h
      · exact ⟨.of_eq rfl rfl, trivial⟩
      · exact ⟨.of_eq rfl rfl, .stream libs _ ‹_›⟩
  · split at h
    · split at h <;> cases h <;> exact ⟨.of_eq rfl rfl, hpc⟩
    · cases h
      exact ⟨.of_eq rfl rfl, hpc⟩
  · rename_i outcome
    cases outcome <;> cases h
    · exact ⟨.dial hpc rfl rfl, hpc⟩
    · exact ⟨.dial hpc rfl rfl, trivial⟩
    · exact ⟨.dial hpc rfl rfl, trivial⟩
  · -- the header; on a reused connection a failed write leads to another dial
    split at h
    · cases h
      exact ⟨.of_eq rfl rfl, trivial⟩
    · split at h <;> cases h
      · exact ⟨.of_eq rfl rfl, hpc⟩
      · exact ⟨.of_eq rfl rfl, trivial⟩
  · rename_i outcome
    cases outcome <;> cases h <;> exact ⟨.dial hpc rfl rfl, trivial⟩
  · refine ⟨.of_eq rfl rfl, ?_⟩
    split <;> trivial
  · rename_i outcome
    cases outcome <;> cases h <;> exact ⟨.of_eq rfl rfl, trivial⟩
  · -- the multiplexer asks the selector itself
    rename_i libs outcome
    split at h
    · cases h
      exact ⟨.of_eq (by simp) (by simp), trivial⟩
    · rename_i r hr
      cases outcome <;> cases h <;> exact ⟨.dial (.stream libs r hr) rfl rfl, trivial⟩
  · refine ⟨.of_eq rfl rfl, ?_⟩
    split <;> trivial
  · refine ⟨.of_eq ?_ ?_, trivial⟩ <;> split <;> simp
  · exact ⟨.of_eq rfl rfl, trivial⟩

theorem stepCaller_grows {c c' : Caller} (h : s.stepCaller env cfg c choice = some (t, c')) (hc : c.Sound cfg) :
    Grows cfg s t ∧ c'.Sound cfg := by
  unfold stepCaller at h
  split at h
  · obtain ⟨⟨u, pc⟩, hstep, hu⟩ := map_eq_some_iff.mp h
    cases hu
    exact ⟨stepConnect_grows hstep, trivial⟩
  · obtain ⟨⟨u, st, pc⟩, hstep, hu⟩ := map_eq_some_iff.mp h
    cases hu
    exact ⟨stepReconnect_grows hstep, trivial⟩
  · obtain ⟨⟨u, pc⟩, hstep, hu⟩ := map_eq_some_iff.mp h
    cases hu
    exact stepStream_grows hstep hc
  · cases h
    exact ⟨.dial (.lane hc) rfl rfl, trivial⟩
  · cases h
    exact ⟨.of_eq rfl rfl, trivial⟩
  · cases h

/-- What is open or with a caller is allowed. -/
structure Sound (cfg : TunnelConfig) (s : Tunnel) : Prop where
  opened : ∀ r ∈ s.opened, cfg.Dials r
  callers : ∀ c ∈ s.callers, c.Sound cfg

theorem sound_new : Sound cfg (new cfg) where
  opened := fun _ hr => absurd hr not_mem_nil
  callers := fun _ hc => absurd hc not_mem_nil

theorem Sound.step (h : Sound cfg s) {a : Act} (hs : s.step env cfg a = some t) : Sound cfg t := by
  cases a with
  | call c =>
    cases hs
    refine ⟨h.opened, fun d hd => ?_⟩
    rcases mem_append.mp hd with hd | hd
    · exact h.callers d hd
    · rw [mem_singleton.mp hd]
      cases c <;> trivial
  | run i choice =>
    simp only [Tunnel.step] at hs
    split at hs
    · cases hs
    · rename_i c hc
      obtain ⟨⟨u, c'⟩, hstep, hu⟩ := map_eq_some_iff.mp hs
      cases hu
      obtain ⟨⟨hopened, cs, hcallers, hcs⟩, hc'⟩ := stepCaller_grows hstep (h.callers c (mem_of_getElem? hc))
      refine ⟨fun r hr => (hopened r hr).elim (h.opened r) id, fun d hd => ?_⟩
      rcases mem_or_eq_of_mem_set hd with hd | rfl
      · rw [hcallers] at hd
        rcases mem_append.mp hd with hd | hd
        · exact h.callers d hd
        · exact hcs d hd
      · exact hc'
  | dies i | laneEnds | stop =>
    cases hs
    exact ⟨h.opened, h.callers⟩

theorem opened_dials {acts : List Act} (hrun : AnyRun (step env cfg) (new cfg) acts s) : ∀ r ∈ s.opened, cfg.Dials r :=
  (hrun.invariant (I := Sound cfg) (fun h _ hs => h.step hs) sound_new).opened

def connectActs (libs : DialLibs) : List Act :=
  [.call .connect, .run 0 .go, .run 0 .go, .run 0 .go, .run 0 (.dial { libs with muxNew := true } .ok)]

theorem connect_opens (env : TunnelEnv) {libs : DialLibs} {r : Route} (hr : cfg.dial libs = some r) :
    ∃ s, AnyRun (step env cfg) (new cfg) (connectActs libs) s ∧ r ∈ s.opened := by
  have hdial : cfg.dial { libs with muxNew := true } = some r := hr
  refine AnyRun.exists_of_exec ?_
  simp [connectActs, exec, step, stepCaller, stepConnect, new, Call.caller, setState, disconnect, openConn, hdial]

end Tunnel

theorem TunnelConfig.not_dials_custom {cfg : TunnelConfig} (fn : DialFn) : ¬cfg.Dials (.custom fn) := by
  rintro (⟨libs, -, h⟩ | -)
  simp only [TunnelConfig.dial, whisperaDial, grpcDial, yadiskDial] at h
  split at h <;> split at h <;> split at h <;> cases h

namespace Tunnel
variable (env : TunnelEnv) (cfg : TunnelConfig)

/-- Whatever the manager does, it opens connections only with the dial function. -/
def Honours (fn : DialFn) : Prop :=
  ∀ acts s, AnyRun (step env cfg) (new cfg) acts s → ∀ r ∈ s.opened, r = .custom fn

theorem honours_iff (fn : DialFn) : Honours env cfg fn ↔ ∀ libs, cfg.dial libs = none := by
  constructor
  · intro h libs
    by_contra hsome
    obtain ⟨r, hr⟩ := ne_none_iff_exists'.mp hsome
    obtain ⟨s, hrun, hmem⟩ := connect_opens env hr
    have hcustom := opened_dials hrun r hmem
    rw [h _ s hrun r hmem] at hcustom
    exact TunnelConfig.not_dials_custom fn hcustom
  · intro hnone acts s hrun r hr
    rcases opened_dials hrun r hr with ⟨libs, _, hsome⟩ | ⟨henable, -, hsecret⟩
    · rw [hnone libs] at hsome
      cases hsome
    · have hdial := hnone default
      rw [TunnelConfig.dial, TunnelConfig.whisperaDial, if_neg (by simp [henable, hsecret])] at hdial
      cases hdial

end Tunnel
end Whispera
