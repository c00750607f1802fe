import Whispera.DatagramLane
import Whispera.Lib.Processes
import Whispera.Lib.Transition

/-! A lane is offered from the moment its connection is dialled, before the server has seen the request to
register it, and it stays when the request is refused. -/

namespace Whispera
namespace DatagramLane
open List Option Transition Processes

variable {cfg : TunnelConfig} {s t : DatagramLane}

/-- The server knows the connection `c`. -/
def Registered (s : DatagramLane) (c : Nat) : Prop := ∃ k, s.conns[c]? = some k ∧ k.registered = true

def laneOf : ForwardPc → Option Nat
  | .read _ _ lane | .datagram lane => lane
  | .start | .locked | .done => none

def Asks : ForwardPc → Bool
  | .read _ _ _ | .locked => true
  | .start | .datagram _ | .done => false

/-- What is in use as a lane has been offered. -/
structure Uses (s : DatagramLane) : Prop where
  relays : ∀ relay ∈ s.relays, ∀ c ∈ relay.lane, c ∈ s.offered
  calls : ∀ call ∈ s.calls, ∀ c ∈ laneOf call.pc, c ∈ s.offered
  sent : ∀ c ∈ s.sent, c ∈ s.offered

/-- Only the lane held may be offered; the rest is as before. -/
structure Offers (s t : DatagramLane) : Prop where
  quicGD : t.quicGD = s.quicGD
  dialing : t.dialing = s.dialing
  pc : t.pc = s.pc
  conns : t.conns = s.conns
  calls : t.calls = s.calls
  offered : ∃ gd, t.offered = s.offered ++ gd ∧ ∀ c ∈ gd, s.quicGD = some c

theorem Offers.refl (s : DatagramLane) : Offers s s := ⟨rfl, rfl, rfl, rfl, rfl, [], by simp, by simp⟩

variable {c : Nat} {relay relay' : UdpRelay} {pc : ForwardPc} {call : ForwardCall} {connected ok : Bool}
  {conn : Option Nat}
variable {status : Nat}

theorem Offers.mem (h : Offers s t) (hc : c ∈ s.offered) : c ∈ t.offered := by
  obtain ⟨gd, hgd, -⟩ := h.offered
  rw [hgd]
  exact mem_append_left gd hc

theorem datagramClient_offers (cfg : TunnelConfig) (s : DatagramLane) : Offers s (s.datagramClient cfg).2 := by
  refine ⟨rfl, rfl, rfl, rfl, rfl, _, rfl, fun c hc => ?_⟩
  split at hc
  · exact mem_toList.mp hc
  · cases hc

theorem datagramClient_mem (h : c ∈ (s.datagramClient cfg).1) : c ∈ (s.datagramClient cfg).2.offered :=
  mem_append_right _ (mem_toList.mpr h)

theorem datagramClient_uses (cfg : TunnelConfig) (h : s.Uses) : (s.datagramClient cfg).2.Uses := by
  have hmem : ∀ c, c ∈ s.offered → c ∈ (s.datagramClient cfg).2.offered := fun c => (datagramClient_offers cfg s).mem
  exact ⟨fun relay hr c hc => hmem c (h.relays relay hr c hc), fun call hcall c hc => hmem c (h.calls call hcall c hc),
    fun c hc => hmem c (h.sent c hc)⟩

theorem Uses.setRelay {r : Nat} {relay : UdpRelay} (h : s.Uses) (hrelay : ∀ c ∈ relay.lane, c ∈ s.offered) :
    (s.setRelay r relay).Uses := by
  refine ⟨fun relay' hr => ?_, h.calls, h.sent⟩
  rcases mem_or_eq_of_mem_set hr with hr | rfl
  · exact h.relays relay' hr
  · exact hrelay

theorem switchLane_spec {r : Nat} {tunnel : Bool} (h : s.Uses) (hrelay : ∀ c ∈ relay.lane, c ∈ s.offered)
    (hs : s.switchLane cfg r relay tunnel = (relay', t)) :
    Offers s t ∧ t.Uses ∧ (∀ c ∈ relay'.lane, c ∈ t.offered) := by
  have hoffers := datagramClient_offers cfg s
  have huses := datagramClient_uses cfg h
  simp only [switchLane] at hs
  split at hs
  · cases hs
    exact ⟨.refl s, h, hrelay⟩
  · split at hs <;> cases hs
    · exact ⟨hoffers, huses, fun c hc => hoffers.mem (hrelay c hc)⟩
    · have hlane : ∀ c ∈ (s.datagramClient cfg).1, c ∈ (s.datagramClient cfg).2.offered := fun c => datagramClient_mem
      exact ⟨⟨hoffers.quicGD, hoffers.dialing, hoffers.pc, hoffers.conns, hoffers.calls, hoffers.offered⟩,
        huses.setRelay hlane, hlane⟩

theorem openTarget_lane {key : TargetKey} {tunnel connected ok : Bool}
    (h : openTarget relay key tunnel connected ok = (relay', pc)) :
    relay'.lane = relay.lane ∧ ∀ c ∈ laneOf pc, c ∈ relay.lane := by
  simp only [openTarget] at h
  split at h
  · cases h
    exact ⟨rfl, nofun⟩
  · split at h
    · cases h
      exact ⟨rfl, fun c hc => hc⟩
    · split at h
      · cases h
        exact ⟨rfl, nofun⟩
      · split at h
        · cases h
          exact ⟨rfl, fun c hc => hc⟩
        · split at h <;> cases h <;> exact ⟨rfl, nofun⟩

theorem afterCheck_lane {sameLane viaStream viaRT : Bool} {lane : Option Nat}
    (h : c ∈ laneOf (afterCheck sameLane viaStream viaRT lane)) : c ∈ lane := by
  rw [afterCheck] at h
  split at h
  · cases h
  · split at h
    · exact h
    · cases h

theorem stepForward_spec (h : s.Uses) (hcall : call ∈ s.calls)
    (hs : s.stepForward cfg call connected ok = some (pc, t)) :
    Offers s t ∧ t.Uses ∧ (∀ c ∈ laneOf pc, c ∈ t.offered) ∧ (Asks call.pc = false → t.offered = s.offered) := by
  simp only [stepForward] at hs
  split at hs
  · cases hs
  · rename_i relay hrelay
    have hlane := h.relays relay (mem_of_getElem? hrelay)
    have hheld := h.calls call hcall
    split at hs
    · cases hs
      exact ⟨.refl s, h, hlane, fun _ => rfl⟩
    · rename_i viaStream viaRT lane hpc
      rw [hpc] at hheld ⊢
      cases hs
      have hoffers : Offers s (if call.tunnel then s.datagramClient cfg else (lane, s)).2 := by
        split
        · exact datagramClient_offers cfg s
        · exact .refl s
      refine ⟨hoffers, ?_, fun c hc => ?_, nofun⟩
      · split
        · exact datagramClient_uses cfg h
        · exact h
      · exact hoffers.mem (hheld c (afterCheck_lane hc))
    · rename_i hpc
      rw [hpc]
      obtain ⟨hoffers, huses, hlane'⟩ :=
        switchLane_spec h hlane (Prod.eta (s.switchLane cfg call.relay relay call.tunnel)).symm
      obtain ⟨hkeeps, hused⟩ :=
        openTarget_lane (Prod.eta (openTarget (s.switchLane cfg call.relay relay call.tunnel).1 call.key
        call.tunnel connected ok)).symm
      cases hs
      refine ⟨⟨hoffers.quicGD, hoffers.dialing, hoffers.pc, hoffers.conns, hoffers.calls, hoffers.offered⟩,
        huses.setRelay fun c hc => hlane' c (hkeeps ▸ hc), fun c hc => hlane' c (hused c hc), nofun⟩
    · rename_i lane hpc
      rw [hpc] at hheld
      cases hs
      refine ⟨⟨rfl, rfl, rfl, rfl, rfl, [], by simp, by simp⟩, ⟨h.relays, h.calls, fun c hc => ?_⟩,
        fun c hc => (by cases hc),
        fun _ => rfl⟩
      rcases mem_append.mp hc with hc | hc
      · exact h.sent c hc
      · exact hheld c (mem_toList.mp hc)
    · cases hs

theorem Registered.of_conns (h : s.Registered c)
    (hconns : ∀ k, s.conns[c]? = some k → ∃ k', t.conns[c]? = some k' ∧ (k.registered = true → k'.registered = true)) :
    t.Registered c := by
  obtain ⟨k, hk, hreg⟩ := h
  obtain ⟨k', hk', himp⟩ := hconns k hk
  exact ⟨k', hk', himp hreg⟩

/-- The lane is registered, or is being registered, or could not be; and an answer of 200 comes from the
    registration. -/
structure Sound (s : DatagramLane) : Prop where
  dialing : s.dialing = false → s.pc = .idle
  lane : ∀ c, s.quicGD = some c → s.Registered c ∨ s.pc = .registering (some c) ∨ s.pc = .returned none
  answered : ∀ (c : Nat) (k : LaneConn), s.conns[c]? = some k → k.response = some statusOK → k.registered = true
  offered : ∀ c ∈ s.offered, s.Registered c
  uses : s.Uses

/-- Nobody asks for the lane while it is dialled; a refusal is not answered with 200; a dial that failed ends
    when its connection is gone. -/
def Cautious (s : DatagramLane) : Act → Prop
  | .go i _ _ => ∀ call ∈ s.calls[i]?, Asks call.pc = true → s.dialing = false
  | .serve _ register status => register = false → status ≠ statusOK
  | .finish => s.pc = .returned none → s.quicGD = none
  | _ => True

section
variable (h : s.Sound)
include h

theorem Sound.setConn {k k' : LaneConn} (hk : s.conns[c]? = some k)
    (hreg : k.registered = true → k'.registered = true) (hresp : k'.response = some statusOK → k'.registered = true) :
    (s.setConn c k').Sound := by
  have hkeeps : ∀ d, s.Registered d → (s.setConn c k').Registered d := fun d hd => by
    refine hd.of_conns fun k0 hk0 => ?_
    rcases eq_or_ne c d with rfl | hcd
    · obtain rfl := some.inj (hk.symm.trans hk0)
      exact ⟨k', get_set_self hk k', hreg⟩
    · exact ⟨k0, (getElem?_set_ne hcd).trans hk0, id⟩
  refine ⟨h.dialing, fun d hd => (h.lane d hd).imp_left (hkeeps d), fun d k0 hk0 hresp0 => ?_,
    fun d hd => hkeeps d (h.offered d hd), ⟨h.uses.relays, h.uses.calls, h.uses.sent⟩⟩
  rcases get_set_cases hk hk0 with ⟨rfl, rfl⟩ | ⟨-, hother⟩
  · exact hresp hresp0
  · exact h.answered d k0 hother hresp0

theorem Sound.start : (s.startDatagramLane cfg).Sound := by
  rw [startDatagramLane]
  split
  · exact h
  · rename_i hfree
    have hnone : s.quicGD = none := not_not.mp fun hne => hfree (.inr (.inl hne))
    refine ⟨fun hd => Bool.noConfusion hd, fun c hc => ?_, h.answered, h.offered, h.uses.relays, h.uses.calls,
      h.uses.sent⟩
    rw [hnone] at hc
    cases hc

theorem Sound.adopt (hpc : s.pc = .registering conn) : s.adoptDatagramConn.Sound := by
  have hkeeps : ∀ d, s.Registered d → s.adoptDatagramConn.Registered d := fun d hd =>
    hd.of_conns fun k hk => ⟨k, get_append_left hk [{}], id⟩
  refine ⟨fun hd => ?_, fun c hc => ?_, fun c k hk hresp => ?_, fun c hc => hkeeps c (h.offered c hc),
    h.uses.relays, h.uses.calls, h.uses.sent⟩
  · have hidle := h.dialing hd
    rw [hpc] at hidle
    cases hidle
  · cases hc
    exact .inr (.inl rfl)
  · rcases get_begin_cases hk with hk | ⟨-, rfl⟩
    · exact h.answered c k hk hresp
    · cases hresp

theorem Sound.forward {i : Nat} (hi : s.calls[i]? = some call) (hasks : Asks call.pc = true → s.dialing = false)
    (hs : s.stepForward cfg call connected ok = some (pc, t)) :
    { t with calls := t.calls.set i { call with pc := pc } }.Sound := by
  obtain ⟨hoffers, huses, hlane, hquiet⟩ := stepForward_spec h.uses (mem_of_getElem? hi) hs
  have hreg : ∀ c, s.Registered c → { t with calls := t.calls.set i { call with pc := pc } }.Registered c := fun c hc =>
    hc.of_conns fun k hk => ⟨k, by rw [hoffers.conns]; exact hk, id⟩
  refine ⟨fun hd => ?_, fun c hc => ?_, fun c k hk => ?_, fun c hc => ?_, huses.relays,
    fun call' hcall' => ?_, huses.sent⟩
  · rw [hoffers.pc]
    exact h.dialing (hoffers.dialing ▸ hd)
  · rw [hoffers.quicGD] at hc
    rw [hoffers.pc]
    exact (h.lane c hc).imp_left (hreg c)
  · rw [hoffers.conns] at hk
    exact h.answered c k hk
  · -- a lane that is offered now is offered while none is dialled
    obtain ⟨gd, hgd, hcurrent⟩ := hoffers.offered
    cases hask : Asks call.pc with
    | false =>
      rw [hquiet hask] at hc
      exact hreg c (h.offered c hc)
    | true =>
      rw [hgd] at hc
      rcases mem_append.mp hc with hc | hc
      · exact hreg c (h.offered c hc)
      · have hidle := h.dialing (hasks hask)
        rcases h.lane c (hcurrent c hc) with hc | hc | hc
        · exact hreg c hc
        · rw [hidle] at hc
          cases hc
        · rw [hidle] at hc
          cases hc
  · rcases mem_or_eq_of_mem_set hcall' with hcall' | rfl
    · exact huses.calls call' hcall'
    · exact hlane

theorem Sound.setPc {pc : LanePc} (hpc : s.dialing = true)
    (hlane : ∀ c, s.quicGD = some c → s.Registered c ∨ pc = .registering (some c) ∨ pc = .returned none) :
    { s with pc := pc }.Sound :=
  ⟨fun hd => absurd (hpc.symm.trans hd) Bool.noConfusion, hlane, h.answered, h.offered, h.uses.relays,
   h.uses.calls, h.uses.sent⟩

theorem Sound.dialing_of_pc (hpc : s.pc ≠ .idle) : s.dialing = true := by
  cases hd : s.dialing with
  | true => rfl
  | false => exact absurd (h.dialing hd) hpc

theorem Sound.answer {k : LaneConn} (hpc : s.pc = .registering (some c))
    (hk : s.conns[c]? = some k) (hstatus : k.response = some status) :
    { s with pc := .returned (if status = statusOK then some c else none) }.Sound := by
  refine h.setPc (h.dialing_of_pc (by rw [hpc]; exact LanePc.noConfusion)) fun d hd => ?_
  split
  · rename_i hok
    rcases h.lane d hd with hreg | hd' | hd'
    · exact .inl hreg
    · -- the connection of the answer is the lane
      rw [hpc] at hd'
      cases hd'
      exact .inl ⟨k, hk, h.answered c k hk (hok ▸ hstatus)⟩
    · rw [hpc] at hd'
      cases hd'
  · exact .inr (.inr rfl)

theorem Sound.finish (hpc : s.pc = .returned conn)
    (hgone : s.pc = .returned none → s.quicGD = none) : { s with pc := .idle, dialing := false }.Sound := by
  refine ⟨fun _ => rfl, fun c hc => ?_, h.answered, h.offered, h.uses.relays, h.uses.calls, h.uses.sent⟩
  rcases h.lane c hc with hreg | hc' | hc'
  · exact .inl hreg
  · rw [hpc] at hc'
    cases hc'
  · rw [hgone hc'] at hc
    cases hc

theorem Sound.serve {register : Bool} (ha : register = false → status ≠ statusOK)
    (hs : s.step cfg (.serve c register status) = some t) : t.Sound := by
  obtain ⟨k, hk, hs⟩ := bind_eq_some_iff.mp hs
  split at hs
  · cases hs
  · split at hs <;> cases hs
    · exact h.setConn hk (fun _ => rfl) fun _ => rfl
    · rename_i hregister
      refine h.setConn hk id fun hresp => ?_
      exact absurd (some.inj hresp) (ha (by simpa using hregister))

theorem Sound.step {act : Act} (ha : s.Cautious act) (hs : s.step cfg act = some t) : t.Sound := by
  cases act with
  | start =>
    cases hs
    exact h.start
  | dial =>
    simp only [DatagramLane.step] at hs
    split at hs <;> cases hs
    rename_i conn hpc
    exact h.adopt hpc
  | answer =>
    simp only [DatagramLane.step] at hs
    split at hs
    · rename_i c hpc
      obtain ⟨k, hk, hs⟩ := bind_eq_some_iff.mp hs
      obtain ⟨status, hstatus, rfl⟩ := map_eq_some_iff.mp hs
      exact h.answer hpc hk hstatus
    · cases hs
  | fail =>
    simp only [DatagramLane.step] at hs
    split at hs <;> cases hs
    rename_i conn hpc
    exact h.setPc (h.dialing_of_pc (by rw [hpc]; exact LanePc.noConfusion)) fun _ _ => .inr (.inr rfl)
  | finish =>
    simp only [DatagramLane.step] at hs
    split at hs <;> cases hs
    rename_i conn hpc
    exact h.finish hpc ha
  | serve c register status => exact h.serve ha hs
  | lose c =>
    obtain ⟨k, hk, rfl⟩ := map_eq_some_iff.mp hs
    exact h.setConn hk id (h.answered c k hk)
  | clear c =>
    obtain ⟨k, -, hs⟩ := bind_eq_some_iff.mp hs
    split at hs <;> cases hs
    refine ⟨h.dialing, fun d hd => ?_, h.answered, h.offered, h.uses.relays, h.uses.calls, h.uses.sent⟩
    simp only [DatagramLane.clear] at hd
    split at hd
    · cases hd
    · exact h.lane d hd
  | relay =>
    cases hs
    refine ⟨h.dialing, h.lane, h.answered, h.offered, fun relay hr => ?_, h.uses.calls, h.uses.sent⟩
    rcases mem_append.mp hr with hr | hr
    · exact h.uses.relays relay hr
    · rw [mem_singleton.mp hr]
      exact nofun
  | dropStream r key =>
    obtain ⟨relay, hr, rfl⟩ := map_eq_some_iff.mp hs
    have huses : (s.setRelay r { relay with streams := relay.streams.filter (· ≠ key) }).Uses :=
      h.uses.setRelay (h.uses.relays relay (mem_of_getElem? hr))
    exact ⟨h.dialing, h.lane, h.answered, h.offered, huses⟩
  | forward r key tunnel =>
    cases hs
    refine ⟨h.dialing, h.lane, h.answered, h.offered, h.uses.relays, fun call hcall => ?_, h.uses.sent⟩
    rcases mem_append.mp hcall with hcall | hcall
    · exact h.uses.calls call hcall
    · rw [mem_singleton.mp hcall]
      exact nofun
  | go i connected ok =>
    obtain ⟨call, hi, hs⟩ := bind_eq_some_iff.mp hs
    obtain ⟨⟨pc, t'⟩, hfwd, rfl⟩ := map_eq_some_iff.mp hs
    exact h.forward hi (ha call hi) hfwd

end

theorem lanes_are_registered {acts : List Act} (hrun : Run (step cfg) Cautious {} acts s) :
    (∀ c ∈ s.offered, s.Registered c) ∧ ∀ c ∈ s.sent, s.Registered c := by
  have hsound : s.Sound := hrun.invariant (fun h ha hs => h.step ha hs)
    ⟨fun _ => rfl, by simp, by simp, by simp, by simp, by simp, by simp⟩
  exact ⟨hsound.offered, fun c hc => hsound.offered c (hsound.uses.sent c hc)⟩

instance (s : DatagramLane) (act) : Decidable (s.Cautious act) := by
  unfold Cautious
  split <;> infer_instance

def laneConfig : TunnelConfig where
  serverAddr := "192.0.2.1:443"
  enableWhispera := true
  whisperaQUICAddr := "192.0.2.1:443"
  whisperaSecret := [1]

def forwardOne : List Act :=
  [.relay, .forward 0 ("198.51.100.7", 53) true, .go 0 true true, .go 0 true true, .go 0 true true, .go 0 true true]

def registeredRun : List Act :=
  [.start, .dial, .serve 0 false 404, .answer, .lose 0, .clear 0, .finish, .start, .dial, .serve 1 true 200,
   .answer, .finish] ++
    forwardOne

theorem second_lane_is_registered : ∃ s, Run (step laneConfig) Cautious {} registeredRun s ∧ s.offered = [1, 1] ∧
    s.sent = [1] ∧ (∀ c ∈ s.offered, s.Registered c) ∧ ∀ c ∈ s.sent, s.Registered c :=
  Run.exists_of_exec (Q := fun s => s.offered = [1, 1] ∧ s.sent = [1]) (by decide +kernel) fun _ hrun hs =>
    ⟨hs.1, hs.2, lanes_are_registered hrun⟩

/-- A packet is forwarded before the server has seen the request. -/
def earlyRun : List Act := [.start, .dial] ++ forwardOne

/-- A packet is forwarded after the request was refused. -/
def refusedRun : List Act := [.start, .dial, .serve 0 false 404, .answer, .finish] ++ forwardOne

/-- The request is refused with the page of the decoy, whose status is 200. -/
def decoyRun : List Act := [.start, .dial, .serve 0 false 200, .answer, .finish] ++ forwardOne

theorem lanes_are_not_registered : laneConfig.HasLane ∧ ∀ acts ∈ [earlyRun, refusedRun, decoyRun], ∃ s,
    AnyRun (step laneConfig) {} acts s ∧ s.offered = [0, 0] ∧ s.sent = [0] ∧ ¬ s.Registered 0 := by
  refine ⟨by decide, fun acts hacts => ?_⟩
  refine Run.exists_of_exec (Q := fun s => s.offered = [0, 0] ∧ s.sent = [0] ∧
    ∃ k ∈ s.conns[0]?, k.registered = false) ?_ ?_
  · revert acts
    decide +kernel
  · rintro s - ⟨hoffered, hsent, k, hk, hreg⟩
    refine ⟨hoffered, hsent, ?_⟩
    rintro ⟨k', hk', hreg'⟩
    cases mem_unique hk hk'
    exact absurd (hreg.symm.trans hreg') nofun

end DatagramLane
end Whispera
