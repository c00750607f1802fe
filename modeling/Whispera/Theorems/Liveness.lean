import Whispera.Lib.Processes
import Whispera.Lib.Transition
import Whispera.Liveness

/-! A `Close` between the two locks of `note` reports an end without a reset. -/

namespace Whispera
open List Processes Transition

def LivenessPc.isEnding : LivenessPc → Bool
  | .ending _ _ => true
  | _ => false

def LivenessEvent.isFin : LivenessEvent → Bool
  | .fin _ _ _ => true
  | _ => false

namespace LivenessConn

/-- The connection is up, and has all of its callbacks. -/
structure Ready (c : LivenessConn) : Prop where
  established : c.established = true
  onReset : c.onReset = true
  onOK : c.onOK = true
  onEnd : c.onEnd = true

/-- How a call goes on, with the event that it reports. -/
inductive Turn (c : LivenessConn) : LivenessPc → LivenessConn → LivenessPc → Option LivenessEvent → Prop
  | ignore {err : Bytes} : Turn c (.note err) c .returned none
  | fire {err : Bytes} : c.fired = false → c.closedByUs = false →
      Turn c (.note err) { c with fired := true } .resetting none
  | closeOk : c.fired = false → c.closedByUs = false → Turn c .close { c with closedByUs := true } .okaying none
  | close : Turn c .close { c with closedByUs := true } (.reporting false) none
  | reset : Turn c .resetting c (.reporting true) (some .reset)
  | ok : Turn c .okaying c (.reporting false) (some .ok)
  | late {r : Bool} : c.ended = true → Turn c (.reporting r) c .returned none
  | report {d : Int} {r : Bool} : c.ended = false → Turn c (.reporting r) { c with ended := true } (.ending d r) none
  | fin {d : Int} {r : Bool} : Turn c (.ending d r) c .returned (some (.fin d c.moved r))

variable {c c' : LivenessConn} {now : Int} {pc pc' : LivenessPc} {e : Option LivenessEvent}

theorem turn_inv (hc : c.Ready) (h : c.turn now pc = some (c', pc', e)) : Turn c pc c' pc' e := by
  cases pc with
  | note err =>
    simp only [turn] at h
    split at h
    · cases h
      exact .ignore
    · rename_i hfree
      split at h <;> cases h
      · exact .ignore
      · simp only [hc.established, hc.onReset, not_true_eq_false, or_false, false_or, not_or, Bool.not_eq_true] at hfree
        exact .fire hfree.1 hfree.2
  | close =>
    cases h
    split
    · rename_i hreport
      simp only [hc.established, hc.onOK, Bool.true_and, Bool.and_true, Bool.and_eq_true, Bool.not_eq_true'] at hreport
      exact .closeOk hreport.1 hreport.2
    · exact .close
  | resetting =>
    cases h
    exact .reset
  | okaying =>
    cases h
    exact .ok
  | reporting r =>
    simp only [turn] at h
    split at h <;> cases h
    · rename_i hended
      simp only [hc.established, hc.onEnd, not_true_eq_false, or_false] at hended
      exact .late hended
    · rename_i hended
      exact .report (Bool.eq_false_iff.mpr fun h => hended (.inl h))
  | ending d r =>
    cases h
    exact .fin
  | returned => cases h

theorem Ready.turn (hc : c.Ready) (h : Turn c pc c' pc' e) : c'.Ready := by
  cases h <;> exact ⟨hc.established, hc.onReset, hc.onOK, hc.onEnd⟩

theorem Ready.move (hc : c.Ready) (moved : Nat) : Ready { c with moved } :=
  ⟨hc.established, hc.onReset, hc.onOK, hc.onEnd⟩

end LivenessConn

namespace LivenessCalls
open LivenessConn

def tally (p : LivenessPc → Bool) (q : LivenessEvent → Bool) (s : LivenessCalls) : Nat :=
  s.calls.countP (fun c => p c.pc) + s.events.countP q

def resets (s : LivenessCalls) : Nat := s.tally (· = .resetting) (· = .reset)

def okays (s : LivenessCalls) : Nat := s.tally (· = .okaying) (· = .ok)

def ends (s : LivenessCalls) : Nat := s.tally LivenessPc.isEnding LivenessEvent.isFin

section
variable {s t : LivenessCalls} {i : Nat} {call : LivenessCall} {c : LivenessConn} {pc : LivenessPc}
  {e : Option LivenessEvent}

def moved (s : LivenessCalls) (i : Nat) (call : LivenessCall) (c : LivenessConn) (pc : LivenessPc)
    (e : Option LivenessEvent) :
    LivenessCalls :=
  { conn := c, calls := s.calls.set i { call with pc }, events := s.events ++ e.toList }

theorem go_inv {now : Int} (hready : s.conn.Ready) (hs : s.step (.go i now) = some t) :
    ∃ call c pc e, s.calls[i]? = some call ∧ Turn s.conn call.pc c pc e ∧ t = s.moved i call c pc e := by
  simp only [step] at hs
  split at hs
  · cases hs
  · rename_i call hi
    obtain ⟨⟨c, pc, e⟩, hturn, rfl⟩ := Option.map_eq_some_iff.mp hs
    exact ⟨call, c, pc, e, hi, turn_inv hready hturn, rfl⟩

variable (p : LivenessPc → Bool) (q : LivenessEvent → Bool)

theorem tally_moved (hi : s.calls[i]? = some call) (c : LivenessConn) (pc : LivenessPc) (e : Option LivenessEvent) :
    (s.moved i call c pc e).tally p q + (p call.pc).toNat = s.tally p q + (p pc).toNat + e.toList.countP q := by
  have hset := countP_set (fun c : LivenessCall => p c.pc) hi { call with pc }
  simp only [tally, moved, countP_append] at hset ⊢
  omega

theorem tally_begin (hp : p call.pc = false) : tally p q { s with calls := s.calls ++ [call] } = s.tally p q := by
  simp [tally, hp]

/-- The callbacks made so far are those that the flags say. -/
structure Counted (s : LivenessCalls) : Prop where
  ready : s.conn.Ready
  resets : s.resets = s.conn.fired.toNat
  okays : s.okays + s.conn.fired.toNat ≤ 1
  closed : s.okays ≤ s.conn.closedByUs.toNat
  ends : s.ends = s.conn.ended.toNat

theorem Counted.begin (h : s.Counted) (hr : call.pc ≠ .resetting) (ho : call.pc ≠ .okaying)
    (he : call.pc.isEnding = false) :
    Counted { s with calls := s.calls ++ [call] } where
  ready := h.ready
  resets := (tally_begin _ _ (decide_eq_false hr)).trans h.resets
  okays := by
    rw [LivenessCalls.okays, tally_begin _ _ (decide_eq_false ho)]
    exact h.okays
  closed := by
    rw [LivenessCalls.okays, tally_begin _ _ (decide_eq_false ho)]
    exact h.closed
  ends := (tally_begin _ _ he).trans h.ends

theorem Counted.turn (h : s.Counted) (hi : s.calls[i]? = some call) (ht : Turn s.conn call.pc c pc e) :
    (s.moved i call c pc e).Counted := by
  have hresets := tally_moved (· = .resetting) (· = .reset) hi c pc e
  have hokays := tally_moved (· = .okaying) (· = .ok) hi c pc e
  have hends := tally_moved LivenessPc.isEnding LivenessEvent.isFin hi c pc e
  obtain ⟨hready, hr, ho, hcl, hen⟩ := h
  unfold LivenessCalls.resets at hr
  unfold LivenessCalls.okays at ho hcl
  unfold LivenessCalls.ends at hen
  suffices hcounts : (s.moved i call c pc e).resets = c.fired.toNat ∧
    (s.moved i call c pc e).okays + c.fired.toNat ≤ 1 ∧
      (s.moved i call c pc e).okays ≤ c.closedByUs.toNat ∧ (s.moved i call c pc e).ends = c.ended.toNat from
    ⟨hready.turn ht, hcounts.1, hcounts.2.1, hcounts.2.2.1, hcounts.2.2.2⟩
  unfold LivenessCalls.resets LivenessCalls.okays LivenessCalls.ends
  generalize hcp : call.pc = cp at ht hresets hokays hends
  cases ht with
  | close =>
    simp_all [LivenessPc.isEnding]
    omega
  | _ => simp_all [LivenessPc.isEnding, LivenessEvent.isFin]

end

/-- The end has been reported, and `r` says whether there was a reset. -/
structure Verdict (c : LivenessConn) (r : Bool) : Prop where
  ended : c.ended = true
  reset : r = c.fired
  closed : r = false → c.closedByUs = true

def CallSound (c : LivenessConn) (call : LivenessCall) : Prop :=
  match call.pc with
  | .note _ => call.close = false
  | .close => True
  | .resetting | .reporting true => c.fired = true
  | .okaying | .reporting false => c.closedByUs = true
  | .ending _ r => Verdict c r
  | .returned => call.close = true → c.ended = true

def LivenessPc.Pending (pc : LivenessPc) : Prop := pc = .resetting ∨ pc = .reporting true

instance : DecidablePred LivenessPc.Pending := fun _ => inferInstanceAs (Decidable (_ ∨ _))

/-- Calls and events agree with the connection. -/
structure Agreed (s : LivenessCalls) : Prop where
  ready : s.conn.Ready
  calls : ∀ call ∈ s.calls, CallSound s.conn call
  events : ∀ d m r, .fin d m r ∈ s.events → Verdict s.conn r
  pending : s.conn.fired = true → s.conn.ended = true ∨ ∃ call ∈ s.calls, LivenessPc.Pending call.pc

/-- A `Close` reports the end only when that was done, or no other call has decided on a reset that it has yet
    to report. -/
def Orderly (s : LivenessCalls) : Act → Prop
  | .note _ | .close | .move _ => True
  | .go i _ => ∀ call ∈ s.calls[i]?, call.pc = .reporting false →
      s.conn.ended = true ∨ ∀ other ∈ s.calls, ¬ LivenessPc.Pending other.pc

instance (s : LivenessCalls) (act) : Decidable (s.Orderly act) := by
  unfold Orderly
  split <;> infer_instance

/-- Flags stay set, and none fires after the close. -/
structure Later (c c' : LivenessConn) : Prop where
  fired : c.fired = true → c'.fired = true
  closed : c.closedByUs = true → c'.closedByUs = true
  ended : c.ended = true → c'.ended = true
  fires : c.closedByUs = true → c'.fired = c.fired

section
variable {s t : LivenessCalls} {i : Nat} {call : LivenessCall} {c c' : LivenessConn} {pc pc' : LivenessPc}
  {e : Option LivenessEvent}

theorem Later.refl (c : LivenessConn) : Later c c := ⟨id, id, id, fun _ => rfl⟩

theorem Turn.later (h : Turn c pc c' pc' e) : Later c c' := by
  cases h with
  | ignore | reset | ok | late _ | fin => exact .refl c
  | fire hf hc => exact ⟨fun _ => rfl, id, id, fun hclosed => by rw [hc] at hclosed; cases hclosed⟩
  | closeOk _ _ | close => exact ⟨id, fun _ => rfl, id, fun _ => rfl⟩
  | report _ => exact ⟨id, id, fun _ => rfl, fun _ => rfl⟩

theorem Verdict.later {r : Bool} (h : Verdict c r) (hl : Later c c') : Verdict c' r := by
  refine ⟨hl.ended h.ended, ?_, fun hr => hl.closed (h.closed hr)⟩
  cases r with
  | true => exact (hl.fired h.reset.symm).symm
  | false => exact h.reset.trans (hl.fires (h.closed rfl)).symm

theorem CallSound.later (h : CallSound c call) (hl : Later c c') : CallSound c' call := by
  unfold CallSound at h ⊢
  split at h
  · exact h
  · trivial
  · exact hl.fired h
  · exact hl.fired h
  · exact hl.closed h
  · exact hl.closed h
  · exact h.later hl
  · exact fun hclose => hl.ended (h hclose)

theorem Agreed.begin (h : s.Agreed) (hc : CallSound s.conn call) : Agreed { s with calls := s.calls ++ [call] } where
  ready := h.ready
  calls := by
    intro other hother
    rcases mem_append.mp hother with hother | hother
    · exact h.calls other hother
    · rw [mem_singleton.mp hother]
      exact hc
  events := h.events
  pending := fun hf => (h.pending hf).imp_right fun ⟨other, hother, hp⟩ => ⟨other, mem_append_left _ hother, hp⟩

theorem Turn.fin_inv {d : Int} {m : Nat} {r : Bool} (h : Turn c pc c' pc' (some (.fin d m r))) : pc = .ending d r := by
  cases h
  rfl

theorem Agreed.pending_turn (h : s.Agreed) (hi : s.calls[i]? = some call) (ht : Turn s.conn call.pc c pc e)
    (hfired : c.fired = true) : c.ended = true ∨
    ∃ other ∈ (s.moved i call c pc e).calls, LivenessPc.Pending other.pc := by
  have hself : { call with pc } ∈ s.calls.set i { call with pc } := mem_set_self hi _
  have hkeep : ¬ LivenessPc.Pending call.pc → s.conn.fired = true → s.conn.ended = true ∨
      ∃ other ∈ s.calls.set i { call with pc }, LivenessPc.Pending other.pc := fun hno hf => by
    refine (h.pending hf).imp_right fun ⟨other, hother, hp⟩ => ⟨other, ?_, hp⟩
    rcases mem_set_of_mem hi hother { call with pc } with rfl | hmem
    · exact absurd hp hno
    · exact hmem
  generalize call.pc = cp at ht hkeep
  cases ht with
  | fire _ _ => exact .inr ⟨_, hself, .inl rfl⟩
  | reset => exact .inr ⟨_, hself, .inr rfl⟩
  | late hended => exact .inl hended
  | report _ => exact .inl rfl
  | _ => exact hkeep (by rintro (hp | hp) <;> cases hp) hfired

theorem Agreed.callSound (h : s.Agreed) (hi : s.calls[i]? = some call) {now : Int} (ha : s.Orderly (.go i now))
    (ht : Turn s.conn call.pc c pc e) : CallSound c { call with pc } := by
  have hcall := h.calls call (mem_of_getElem? hi)
  unfold CallSound at hcall
  generalize hcp : call.pc = cp at ht hcall
  cases ht with
  | ignore => exact fun hclose => by rw [hcall] at hclose; cases hclose
  | fire _ _ | closeOk _ _ | close => exact rfl
  | reset | ok => exact hcall
  | late hended => exact fun _ => hended
  | @report d r hended =>
    cases r with
    | true => exact ⟨rfl, hcall.symm, nofun⟩
    | false =>
      refine ⟨rfl, ?_, fun _ => hcall⟩
      -- no reset has been decided on, or it would be pending
      cases hfired : s.conn.fired with
      | false => rfl
      | true =>
        have hpending := h.pending hfired
        rw [hended] at hpending
        obtain ⟨other, hother, hp⟩ := hpending.resolve_left Bool.false_ne_true
        have hclear := ha call hi hcp
        rw [hended] at hclear
        exact absurd hp (hclear.resolve_left Bool.false_ne_true other hother)
  | fin => exact fun _ => hcall.ended

theorem Agreed.turn (h : s.Agreed) (hi : s.calls[i]? = some call) {now : Int} (ha : s.Orderly (.go i now))
    (ht : Turn s.conn call.pc c pc e) : (s.moved i call c pc e).Agreed := by
  have hlater := Turn.later ht
  have hsound := h.callSound hi ha ht
  refine ⟨h.ready.turn ht, fun other hother => ?_, fun d m r hfin => ?_, fun hfired => ?_⟩
  · rcases mem_or_eq_of_mem_set hother with hother | rfl
    · exact (h.calls other hother).later hlater
    · exact hsound
  · rcases mem_append.mp hfin with hold | hnew
    · exact (h.events d m r hold).later hlater
    · obtain rfl := Option.mem_toList.mp hnew
      have hcall := h.calls call (mem_of_getElem? hi)
      rw [CallSound, Turn.fin_inv ht] at hcall
      exact hcall.later hlater
  · exact h.pending_turn hi ht hfired

theorem agreed_step {act : Act} (h : s.Agreed) (ha : s.Orderly act) (hs : s.step act = some t) : t.Agreed := by
  cases act with
  | note err =>
    cases hs
    exact h.begin rfl
  | close =>
    cases hs
    exact h.begin trivial
  | move n =>
    cases hs
    have hlater : Later s.conn { s.conn with moved := s.conn.moved + n } := ⟨id, id, id, fun _ => rfl⟩
    exact ⟨h.ready.move _, fun call hcall => (h.calls call hcall).later hlater,
      fun d m r hfin => (h.events d m r hfin).later hlater, h.pending⟩
  | go i now =>
    obtain ⟨call, c, pc, e, hi, hturn, rfl⟩ := go_inv h.ready hs
    exact h.turn hi ha hturn

theorem counted_step {act : Act} (h : s.Counted) (hs : s.step act = some t) : t.Counted := by
  cases act with
  | note err | close =>
    cases hs
    exact h.begin nofun nofun rfl
  | move n =>
    cases hs
    exact ⟨h.ready.move _, h.resets, h.okays, h.closed, h.ends⟩
  | go i now =>
    obtain ⟨call, c, pc, e, hi, hturn, rfl⟩ := go_inv h.ready hs
    exact h.turn hi hturn

end

section
variable {since : Int} {acts : List Act} {s : LivenessCalls}

theorem ready_established (since : Int) : (established since).conn.Ready := ⟨rfl, rfl, rfl, rfl⟩

theorem counted_run (h : AnyRun step (established since) acts s) : s.Counted :=
  h.invariant (fun h _ hs => counted_step h hs) ⟨ready_established since, rfl, Nat.zero_le _, Nat.le_refl _, rfl⟩

theorem agreed_run (h : Run step Orderly (established since) acts s) : s.Agreed :=
  h.invariant (fun h ha hs => agreed_step h ha hs) ⟨ready_established since, nofun, nofun, nofun⟩

theorem Counted.events_le (h : s.Counted) :
    s.events.countP (· = .reset) + s.events.countP (· = .ok) ≤ 1 ∧ s.events.countP LivenessEvent.isFin ≤ 1 := by
  have hresets := h.resets
  have hokays := h.okays
  have hends := h.ends
  have hended := Bool.toNat_le s.conn.ended
  simp only [LivenessCalls.resets, LivenessCalls.okays, LivenessCalls.ends, tally] at hresets hokays hends
  omega

end

theorem tally_returned {s : LivenessCalls} (hall : ∀ call ∈ s.calls, call.pc = .returned) {p : LivenessPc → Bool}
    (hp : p .returned = false) (q : LivenessEvent → Bool) : s.tally p q = s.events.countP q := by
  have hnone : s.calls.countP (fun c => p c.pc) = 0 := by
    rw [countP_eq_zero]
    intro call hcall
    rw [hall call hcall, hp]
    exact Bool.false_ne_true
  rw [tally, hnone, Nat.zero_add]

theorem Agreed.reported {s : LivenessCalls} (h : s.Agreed) (hcounted : s.Counted)
    (hall : ∀ call ∈ s.calls, call.pc = .returned)
    (hclose : ∃ call ∈ s.calls, call.close = true) :
    ∃ d m r, .fin d m r ∈ s.events ∧ (r = true ↔ .reset ∈ s.events) := by
  obtain ⟨call, hcall, hclose⟩ := hclose
  have hended : s.conn.ended = true := by
    have hsound := h.calls call hcall
    rw [CallSound, hall call hcall] at hsound
    exact hsound hclose
  have hends : s.events.countP LivenessEvent.isFin = 1 := by
    rw [← tally_returned (p := LivenessPc.isEnding) hall rfl]
    exact hcounted.ends.trans (by rw [hended]; rfl)
  have hresets : s.events.countP (· = .reset) = s.conn.fired.toNat := by
    rw [← tally_returned (p := (· = .resetting)) hall rfl]
    exact hcounted.resets
  obtain ⟨e, he, hfin⟩ := countP_pos_iff.mp (hends ▸ Nat.one_pos)
  cases e with
  | reset | ok => cases hfin
  | fin d m r =>
    refine ⟨d, m, r, he, ?_⟩
    rw [(h.events d m r he).reset]
    constructor
    · intro hfired
      have hpos : 0 < s.events.countP (· = .reset) := by
        rw [hresets, hfired]
        exact Nat.one_pos
      obtain ⟨e, he, hreset⟩ := countP_pos_iff.mp hpos
      rw [← of_decide_eq_true hreset]
      exact he
    · intro hreset
      have hpos : 0 < s.conn.fired.toNat := hresets ▸ countP_pos_iff.mpr ⟨_, hreset, rfl⟩
      cases hfired : s.conn.fired with
      | true => rfl
      | false =>
        rw [hfired] at hpos
        exact absurd hpos (Nat.lt_irrefl 0)

/-- One of `onReset` and `onOK` is called at most, and `onEnd` once at most; and if a `Close` does not come
    between a reset and the report of it, the end is reported as a reset just if there was one. -/
theorem callbacks_agree {since : Int} {acts : List Act} {s : LivenessCalls}
    (h : Run step Orderly (established since) acts s) :
    s.events.countP (· = .reset) + s.events.countP (· = .ok) ≤ 1 ∧ s.events.countP LivenessEvent.isFin ≤ 1 ∧
    ((∀ call ∈ s.calls, call.pc = .returned) → (∃ call ∈ s.calls, call.close = true) →
      ∃ d m r, .fin d m r ∈ s.events ∧ (r = true ↔ .reset ∈ s.events)) := by
  have hcounted : s.Counted := counted_run (h.mono fun _ _ _ => trivial)
  obtain ⟨hone, hfin⟩ := hcounted.events_le
  exact ⟨hone, hfin, fun hall hclose => (agreed_run h).reported hcounted hall hclose⟩

def resetText : Bytes :=
  [99, 111, 110, 110, 101, 99, 116, 105, 111, 110, 32, 114, 101, 115, 101, 116, 32, 98, 121, 32, 112, 101, 101, 114]

def resetRun : List Act :=
  [.note resetText, .close, .move 7, .go 0 1000, .go 0 1000, .go 0 2000, .go 1 2000, .go 0 2000, .go 1 2000]

theorem reset_is_reported : ∃ s, Run step Orderly (established 0) resetRun s ∧ s.events = [.reset, .fin 2000 7 true] ∧
    ∃ d m r, .fin d m r ∈ s.events ∧ (r = true ↔ .reset ∈ s.events) := by
  refine Run.exists_of_exec (Q := fun s => s.events = [.reset, .fin 2000 7 true] ∧
    s.calls = [⟨false, .returned⟩, ⟨true, .returned⟩]) (by decide +kernel) ?_
  rintro s hrun ⟨hevents, hcalls⟩
  refine ⟨hevents, (callbacks_agree hrun).2.2 ?_ ?_⟩
  · rw [hcalls]
    decide
  · rw [hcalls]
    decide

/-- The connection is closed when the reset was decided on and before it is reported. -/
def closedBetween : List Act :=
  [.note resetText, .close, .go 0 1000, .go 1 1000, .go 1 2000, .go 1 2000, .go 0 2000, .go 0 2000]

theorem reset_is_not_reported : ∃ s, AnyRun step (established 0) closedBetween s ∧
    s.calls = [⟨false, .returned⟩, ⟨true, .returned⟩] ∧ s.events = [.fin 2000 0 false, .reset] :=
  AnyRun.exists_of_exec (by decide +kernel)

end LivenessCalls
end Whispera
