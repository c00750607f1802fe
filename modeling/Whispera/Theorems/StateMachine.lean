import Whispera.Lib.Processes
import Whispera.Lib.Transition
import Whispera.StateMachine

/-! `SetError` reports nothing. `Connect` takes the state as a lock, but gives it up on the way, in
`Disconnect`, and when it fails. -/

namespace Whispera
open List Option Processes Transition

namespace TunnelStateMachine
variable (sm : TunnelStateMachine)

@[simp] theorem state_syncReady : sm.syncReady.state = sm.state := by
  unfold syncReady
  split <;> split <;> rfl

@[simp] theorem state_enter (st : TunnelState) : (sm.enter st).state = st := by
  rw [enter, state_syncReady]

@[simp] theorem state_set (st : TunnelState) : (sm.set st).1.state = st := sm.state_enter st

@[simp] theorem state_setError (err : Option String) : (sm.setError err).state = .error := by
  rw [setError, state_syncReady]

end TunnelStateMachine

namespace StateHistory
open TunnelStateMachine

def lastReported (reports : List StateReport) : TunnelState := (reports.getLast?.map (·.new)).getD .disconnected

/-- Each report begins at the state that the one before it has ended at. -/
def Chained (reports : List StateReport) : Prop :=
  ∀ earlier r later, reports = earlier ++ r :: later → r.old = lastReported earlier

/-- What was reported is a chain that ends at the present state. -/
structure InStep (s : StateHistory) : Prop where
  chained : Chained s.reports
  current : lastReported s.reports = s.sm.state

/-- An error is set only when the state is that of an error. -/
def ErrorKnown (s : StateHistory) : Call → Prop
  | .set _ | .compareAndSet _ _ => True
  | .setError _ => s.sm.state = .error

instance (s : StateHistory) (c) : Decidable (s.ErrorKnown c) := by
  unfold ErrorKnown
  split <;> infer_instance

section
variable {s t : StateHistory} {reports : List StateReport}

theorem lastReported_concat (r : StateReport) : lastReported (reports ++ [r]) = r.new := by
  rw [lastReported, getLast?_concat]
  rfl

theorem Chained.concat (h : Chained reports) {r : StateReport} (hr : r.old = lastReported reports) :
    Chained (reports ++ [r]) := by
  intro earlier q later heq
  rcases eq_nil_or_concat later with rfl | ⟨l, d, rfl⟩
  · obtain ⟨rfl, hq⟩ := append_inj' heq rfl
    cases hq
    exact hr
  · rw [concat_eq_append, ← cons_append, ← append_assoc] at heq
    exact h earlier q l (append_inj' heq rfl).1

theorem InStep.report (h : s.InStep) {sm : TunnelStateMachine} {new : TunnelState} (hsm : sm.state = new) :
    InStep { sm, reports := s.reports ++ (report s.sm.state new).toList } := by
  unfold TunnelStateMachine.report
  split
  · exact ⟨h.chained.concat h.current.symm, (lastReported_concat _).trans hsm.symm⟩
  · rename_i hsame
    rw [toList_none, append_nil]
    exact ⟨h.chained, h.current.trans ((not_not.mp hsame).trans hsm.symm)⟩

theorem inStep_step_iff {c : Call} (h : s.InStep) (hs : s.step c = some t) : t.InStep ↔ s.ErrorKnown c := by
  cases c with
  | set st =>
    cases hs
    exact iff_of_true (h.report (s.sm.state_set st)) trivial
  | compareAndSet new blocked =>
    refine iff_of_true ?_ trivial
    simp only [step, compareAndSet] at hs
    split at hs <;> cases hs
    · rw [toList_none, append_nil]
      exact h
    · exact h.report (s.sm.state_enter new)
  | setError err =>
    cases hs
    constructor
    · intro ht
      exact h.current.symm.trans (ht.current.trans (s.sm.state_setError err))
    · intro herr
      exact ⟨h.chained, h.current.trans (herr.trans (s.sm.state_setError err).symm)⟩

theorem inStep_start : InStep {} where
  chained := fun earlier r later h => by simp at h
  current := rfl

end

/-- The reports are a chain up to the present state just if errors are set in the state of an error only. -/
theorem reports_are_chained_iff {calls : List Call} {s : StateHistory} (h : AnyRun step {} calls s) :
    (∀ done t, done <+: calls → AnyRun step {} done t → t.InStep) ↔ Run step ErrorKnown {} calls s :=
  h.always_iff inStep_step_iff inStep_start

def knownErrors : List Call :=
  [.compareAndSet .connecting [.connecting, .connected], .set .connected, .set .rotating, .set .error,
   .setError (some "reset"),
    .compareAndSet .connecting [.connecting, .connected]]

theorem known_errors_are_chained : ∃ s, AnyRun step {} knownErrors s ∧ s.reports.length = 5 ∧
    ∀ done t, done <+: knownErrors → AnyRun step {} done t → t.InStep := by
  obtain ⟨s, hrun, hlen⟩ : ∃ s, Run step ErrorKnown {} knownErrors s ∧ s.reports.length = 5 :=
    Run.exists_of_exec (by decide) fun _ _ hs => hs
  have hany : AnyRun step {} knownErrors s := hrun.mono fun _ _ _ => trivial
  exact ⟨s, hany, hlen, (reports_are_chained_iff hany).mpr hrun⟩

/-- The error of a dial is not reported, and the next report begins at it. -/
theorem error_breaks_chain :
    (∃ s, AnyRun step {} [.set .connecting, .setError (some "refused")] s ∧ lastReported s.reports = .connecting ∧
      s.sm.state = .error) ∧
    ∃ s, AnyRun step {} [.set .connecting, .setError (some "refused"), .set .disconnected] s ∧
      s.reports = [⟨.disconnected, .connecting⟩, ⟨.error, .disconnected⟩] ∧ ¬ Chained s.reports := by
  refine ⟨AnyRun.exists_of_exec (by decide), Run.exists_of_exec (by decide) fun s _ hs => ⟨hs, fun hchain => ?_⟩⟩
  have := hchain [⟨.disconnected, .connecting⟩] ⟨.error, .disconnected⟩ [] hs
  revert this
  decide

end StateHistory

def ConnectCallPc.state : ConnectCallPc → Option TunnelState
  | .start | .returned _ => none
  | .won | .connecting | .dialled _ => some .connecting
  | .cleared => some .disconnected
  | .settled ok => some (if ok then .connected else .error)

theorem ConnectCallPc.state_isSome (pc : ConnectCallPc) : pc.state.isSome = pc.active := by
  cases pc <;> rfl

namespace ConnectCalls
open TunnelStateMachine

/-- One call at most is active, and holds the state. A call that was not alone has returned and has not
    dialled. -/
structure Exclusive (s : ConnectCalls) : Prop where
  one : ∀ (i j : Nat) (c d : ConnectCall), s.calls[i]? = some c → s.calls[j]? = some d → c.pc.active = true →
      d.pc.active = true → i = j
  state : ∀ c ∈ s.calls, ∀ st, c.pc.state = some st → s.sm.state = st
  meanwhile : ∀ c ∈ s.calls, c.meanwhile = true → c.pc = .returned true
  dials : ∀ i ∈ s.dials, ∃ c, s.calls[i]? = some c ∧ c.pc ≠ .start ∧ c.meanwhile = false

/-- No call checks the state while another has given it up: between `Disconnect` and its way on, or `SetError`
    and its return. -/
def Kept (s : ConnectCalls) : Act → Prop
  | .check _ => ∀ c ∈ s.calls, c.pc ≠ .cleared ∧ c.pc ≠ .settled false
  | _ => True

instance (s : ConnectCalls) (act) : Decidable (s.Kept act) := by
  unfold Kept
  split <;> infer_instance

section
variable {s t : ConnectCalls} {i : Nat} {c : ConnectCall}

section
variable (h : s.Exclusive)
include h

theorem Exclusive.alone (hi : s.calls[i]? = some c) (hc : c.pc.active = true) (hm : c.meanwhile = true) : False := by
  rw [h.meanwhile c (mem_of_getElem? hi) hm] at hc
  cases hc

theorem Exclusive.move (hi : s.calls[i]? = some c) (hc : c.pc.active = true) (pc : ConnectCallPc)
    (sm : TunnelStateMachine) (hstart : pc ≠ .start) (hsm : ∀ st, pc.state = some st → sm.state = st) :
    Exclusive { s.setPc i c pc with sm } := by
  refine ⟨fun j k d e hd he hda hea => ?_, fun d hd st hst => ?_, fun d hd hm => ?_, fun j hj => ?_⟩
  · exact unique_set (P := fun c => c.pc.active = true) h.one hi (fun _ => Or.inl hc) hd he hda hea
  · obtain ⟨j, hj⟩ := mem_iff_getElem?.mp hd
    rcases get_set_cases hi hj with ⟨-, rfl⟩ | ⟨hne, hj⟩
    · exact hsm st hst
    · have hactive : d.pc.active = true := by rw [← ConnectCallPc.state_isSome, hst]; rfl
      exact absurd (h.one j i d c hj hi hactive hc) hne
  · rcases mem_or_eq_of_mem_set hd with hd | rfl
    · exact h.meanwhile d hd hm
    · exact (h.alone hi hc hm).elim
  · obtain ⟨d, hd, hds, hdm⟩ := h.dials j hj
    rcases eq_or_ne j i with rfl | hne
    · obtain rfl := some.inj (hi.symm.trans hd)
      exact ⟨_, get_set_self hi _, hstart, hdm⟩
    · exact ⟨d, (getElem?_set_ne hne.symm).trans hd, hds, hdm⟩

theorem Exclusive.enter {m : Bool} (hi : s.calls[i]? = some ⟨.start, m⟩) (pc : ConnectCallPc)
    (meanwhile : Bool) (sm : TunnelStateMachine) (hmeanwhile : meanwhile = true → pc = .returned true)
    (hothers : pc.active = true → ∀ d ∈ s.calls, d.pc.active = false) (hsm : ∀ st, pc.state = some st → sm.state = st)
    (hsame : pc.active = false → sm = s.sm) : Exclusive { s with sm, calls := s.calls.set i ⟨pc, meanwhile⟩ } := by
  refine ⟨fun j k d e hd he hda hea => ?_, fun d hd st hst => ?_, fun d hd hm => ?_, fun j hj => ?_⟩
  · exact unique_set (P := fun c => c.pc.active = true) h.one hi
      (fun hpc => Or.inr fun x hx => Bool.eq_false_iff.mp (hothers hpc x hx)) hd he hda hea
  · rcases mem_or_eq_of_mem_set hd with hd | rfl
    · have hactive : d.pc.active = true := by rw [← ConnectCallPc.state_isSome, hst]; rfl
      cases hpc : pc.active with
      | true =>
        rw [hothers hpc d hd] at hactive
        cases hactive
      | false =>
        rw [hsame hpc]
        exact h.state d hd st hst
    · exact hsm st hst
  · rcases mem_or_eq_of_mem_set hd with hd | rfl
    · exact h.meanwhile d hd hm
    · exact hmeanwhile hm
  · obtain ⟨d, hd, hds, hdm⟩ := h.dials j hj
    rcases eq_or_ne j i with rfl | hne
    · obtain rfl := some.inj (hi.symm.trans hd)
      exact absurd rfl hds
    · exact ⟨d, (getElem?_set_ne hne.symm).trans hd, hds, hdm⟩

theorem Exclusive.blocked (hk : s.Kept (.check i)) (hactive : s.calls.any (·.pc.active) = true) :
    s.sm.state ∈ [TunnelState.connecting, .connected] := by
  obtain ⟨d, hd, hda⟩ := List.any_eq_true.mp hactive
  have hstate := h.state d hd
  obtain ⟨hcleared, hfailed⟩ := hk d hd
  cases hpc : d.pc with
  | start | returned _ =>
    rw [hpc] at hda
    cases hda
  | won | connecting | dialled _ =>
    rw [hpc] at hstate
    rw [hstate .connecting rfl]
    exact mem_cons_self
  | cleared => exact absurd hpc hcleared
  | settled ok =>
    rw [hpc] at hstate hfailed
    cases ok with
    | true =>
      rw [hstate .connected rfl]
      exact mem_cons_of_mem _ mem_cons_self
    | false => exact absurd rfl hfailed

theorem Exclusive.check (hk : s.Kept (.check i)) {m : Bool} (hi : s.calls[i]? = some ⟨.start, m⟩) :
    (s.check i ⟨.start, m⟩).Exclusive := by
  rw [ConnectCalls.check, compareAndSet]
  by_cases hblocked : s.sm.state ∈ [TunnelState.connecting, .connected]
  · simp only [if_pos hblocked, if_true]
    exact h.enter hi (.returned true) _ s.sm (fun _ => rfl) nofun nofun fun _ => rfl
  · have hnone : s.calls.any (·.pc.active) = false := by
      rw [Bool.eq_false_iff]
      exact fun hactive => hblocked (h.blocked hk hactive)
    simp only [if_neg hblocked, hnone, Bool.false_eq_true, if_false]
    refine h.enter hi .won false _ nofun (fun _ d hd => ?_) (fun st hst => ?_) nofun
    · exact Bool.eq_false_iff.mpr (List.any_eq_false.mp hnone d hd)
    · rw [state_enter]
      exact some.inj hst

theorem Exclusive.step {act : Act} (hk : s.Kept act) (hs : s.step act = some t) : t.Exclusive := by
  cases act with
  | begin =>
    cases hs
    refine ⟨fun i j c d hc hd hca hda => ?_, fun c hc st hst => ?_, fun c hc hm => ?_, fun j hj => ?_⟩
    · rcases get_begin_cases hc with hc | ⟨-, rfl⟩
      · rcases get_begin_cases hd with hd | ⟨-, rfl⟩
        · exact h.one i j c d hc hd hca hda
        · cases hda
      · cases hca
    · rcases mem_append.mp hc with hc | hc
      · exact h.state c hc st hst
      · rw [mem_singleton.mp hc] at hst
        cases hst
    · rcases mem_append.mp hc with hc | hc
      · exact h.meanwhile c hc hm
      · rw [mem_singleton.mp hc] at hm
        cases hm
    · obtain ⟨c, hc, hrest⟩ := h.dials j hj
      exact ⟨c, get_append_left hc _, hrest⟩
  | check i =>
    simp only [ConnectCalls.step] at hs
    split at hs <;> cases hs
    rename_i m hi
    exact h.check hk hi
  | disconnect i =>
    simp only [ConnectCalls.step] at hs
    split at hs <;> cases hs
    rename_i m hi
    exact h.move hi rfl .cleared _ nofun fun st hst => (state_set _ _).trans (some.inj hst)
  | connectInternal i =>
    simp only [ConnectCalls.step] at hs
    split at hs <;> cases hs
    rename_i m hi
    exact h.move hi rfl .connecting _ nofun fun st hst => (state_set _ _).trans (some.inj hst)
  | dial i d =>
    simp only [ConnectCalls.step] at hs
    split at hs <;> cases hs
    rename_i m hi
    have hmoved := h.move hi rfl (.dialled d.err) s.sm nofun fun st hst =>
      h.state _ (mem_of_getElem? hi) st hst
    refine ⟨hmoved.one, hmoved.state, hmoved.meanwhile, fun j hj => ?_⟩
    cases d with
    | none err => exact hmoved.dials j hj
    | tried err =>
      rcases mem_append.mp hj with hj | hj
      · exact hmoved.dials j hj
      · rw [mem_singleton.mp hj]
        refine ⟨_, get_set_self hi _, nofun, ?_⟩
        exact Bool.eq_false_iff.mpr fun hm => h.alone hi rfl hm
  | settle i =>
    simp only [ConnectCalls.step] at hs
    split at hs <;> cases hs
    rename_i err m hi
    refine h.move hi rfl (.settled (err = none)) _ nofun fun st hst => ?_
    cases err with
    | none => exact (state_set _ _).trans (some.inj hst)
    | some err => exact (state_setError _ _).trans (some.inj hst)
  | finish i =>
    simp only [ConnectCalls.step] at hs
    split at hs <;> cases hs
    rename_i ok m hi
    exact h.move hi rfl (.returned ok) s.sm nofun nofun

end

end

/-- If no call checks the state while another has given it up, one call at most is active, and the others
    return without a dial. -/
theorem connects_are_exclusive {sm : TunnelStateMachine} {acts : List Act} {s : ConnectCalls}
    (h : Run step Kept { sm } acts s) :
    (∀ (i j : Nat) (c d : ConnectCall), s.calls[i]? = some c → s.calls[j]? = some d → c.pc.active = true →
      d.pc.active = true → i = j) ∧
    ∀ (i : Nat) (c : ConnectCall), s.calls[i]? = some c → c.meanwhile = true → c.pc = .returned true ∧ i ∉ s.dials := by
  have hstart : Exclusive { sm } := ⟨by simp, by simp, by simp, by simp⟩
  have hs := h.invariant (fun h hk hs => h.step hk hs) hstart
  refine ⟨hs.one, fun i c hi hm => ⟨hs.meanwhile c (mem_of_getElem? hi) hm, fun hdial => ?_⟩⟩
  obtain ⟨d, hd, -, hdm⟩ := hs.dials i hdial
  obtain rfl := some.inj (hi.symm.trans hd)
  rw [hm] at hdm
  cases hdm

def oneByOne : List Act :=
  [.begin, .begin, .begin, .check 0, .disconnect 0, .connectInternal 0, .check 1,
   .dial 0 (.tried (some "refused")), .settle 0,
    .finish 0, .check 2, .disconnect 2, .connectInternal 2, .dial 2 (.tried none)]

theorem second_connect_returns : ∃ s c, Run step Kept {} oneByOne s ∧ s.calls[1]? = some c ∧ s.dials = [0, 2] ∧
    c.meanwhile = true ∧ c.pc = .returned true ∧ 1 ∉ s.dials := by
  obtain ⟨s, hrun, hcall, hdials⟩ := Run.exists_of_exec
    (R := fun s => s.calls[1]? = some ⟨.returned true, true⟩ ∧ s.dials = [0, 2])
    (show ∃ s ∈ exec (checked step Kept) {} oneByOne, _ by decide +kernel) fun _ _ hs => hs
  exact ⟨s, _, hrun, hcall, hdials, rfl, (connects_are_exclusive hrun).2 1 _ hcall rfl⟩

def bothConnect : List Act :=
  [.begin, .begin, .check 0, .disconnect 0, .check 1, .disconnect 1, .connectInternal 0, .connectInternal 1,
    .dial 0 (.tried none), .dial 1 (.tried none)]

theorem both_connects_dial : ∃ s c d, AnyRun step {} bothConnect s ∧ s.calls[0]? = some c ∧ s.calls[1]? = some d ∧
    c.pc.active = true ∧ d.pc.active = true ∧ d.meanwhile = true ∧ s.dials = [0, 1] := by
  obtain ⟨s, hrun, hcalls, hdials⟩ := AnyRun.exists_of_exec (show ∃ s ∈ exec step {} bothConnect,
    s.calls = [⟨.dialled none, false⟩, ⟨.dialled none, true⟩] ∧ s.dials = [0, 1] by decide +kernel)
  exact ⟨s, _, _, hrun, by rw [hcalls]; rfl, by rw [hcalls]; rfl, rfl, rfl, rfl, hdials⟩

end ConnectCalls
end Whispera
