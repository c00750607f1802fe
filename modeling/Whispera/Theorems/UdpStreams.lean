import Whispera.UdpStreams
import Whispera.Lib.Processes

/-! An open stream is in the map of the relay under its target, or `dropStream` is about to close it, as long
as `dropStream` takes out no other stream than its own. -/

namespace Whispera
open List Option Transition Processes

namespace UdpStreams
variable {s s' : UdpStreams} {a : Act}

/-- A drop has taken out the stream `k` and will close it. -/
def Closing (s : UdpStreams) (k : Nat) : Prop := ∃ d ∈ s.drops, d.stream = k ∧ d.pc = .closing

def Stored (s : UdpStreams) : Prop :=
  ∀ (k : Nat) (st : UdpStream), s.opened[k]? = some st → st.closed = false →
  s.streams.lookup st.key = some k ∨ s.Closing k

/-- A call of `dropStream` deletes the entry of a target only if it is that of its own stream. -/
def DropsOwn (s : UdpStreams) : Act → Prop
  | .drop j => ∀ d ∈ s.drops[j]?, d.pc = .dropping → ∀ k ∈ s.streams.lookup d.key, k = d.stream
  | _ => True

instance (s : UdpStreams) (a : Act) : Decidable (s.DropsOwn a) := by
  cases a <;> unfold DropsOwn <;> infer_instance

section
variable (h : s.Stored)
include h

theorem Stored.of_drops {drops : List UdpDrop} (hdrops : ∀ d ∈ s.drops, d ∈ drops) : Stored { s with drops } := by
  intro k st hst hopen
  rcases h k st hst hopen with hstored | ⟨d, hd, hclosing⟩
  · exact .inl hstored
  · exact .inr ⟨d, hdrops d hd, hclosing⟩

theorem Stored.openTarget {key : TargetKey} {tunnel connected ok : Bool} :
    (s.openTarget key tunnel connected ok).1.Stored := by
  unfold UdpStreams.openTarget
  split
  · exact h
  · rename_i hnone
    split
    · exact h
    · split
      · exact h
      · split
        · exact h
        · split
          · -- An open stream for the same target is being closed, since the map has none.
            intro k st hst hopen
            rcases get_begin_cases hst with hold | ⟨rfl, rfl⟩
            · by_cases hkey : st.key = key
              · rcases h k st hold hopen with hstored | hclosing
                · rw [hkey, hnone] at hstored
                  cases hstored
                · exact .inr hclosing
              · rcases h k st hold hopen with hstored | hclosing
                · exact .inl ((AList.lookup_insert_ne hkey).trans hstored)
                · exact .inr hclosing
            · exact .inl (AList.lookup_insert _)
          · exact h

theorem Stored.switchLane {tunnel : Bool} {lane : Option Nat} : (s.switchLane tunnel lane).Stored := by
  unfold UdpStreams.switchLane
  split
  · exact h
  · exact h

theorem Stored.stepForward {call : UdpForward} {lane : Option Nat} {connected ok : Bool} {r : UdpStreams × UdpForwardPc}
    (hr : s.stepForward call lane connected ok = some r) : r.1.Stored := by
  unfold UdpStreams.stepForward at hr
  split at hr
  · cases hr
    exact h
  · cases hr
    exact h
  · cases hr
    exact h.switchLane.openTarget
  · split at hr <;> cases hr
    · exact h
    · exact h.of_drops fun d hd => mem_append_left _ hd
  · cases hr

theorem Stored.stepDrop {j : Nat} {d : UdpDrop} (hd : s.drops[j]? = some d)
    (hown : d.pc = .dropping → ∀ k ∈ s.streams.lookup d.key, k = d.stream)
    (hs : s.stepDrop j d = some s') : s'.Stored := by
  unfold UdpStreams.stepDrop at hs
  split at hs
  · -- What was stored under the target is the stream of this call, which it closes next.
    rename_i hpc
    cases hs
    intro k st hst hopen
    rcases h k st hst hopen with hstored | ⟨d', hd', hclosing⟩
    · by_cases hkey : st.key = d.key
      · have hk : k = d.stream := hown hpc k (by rw [← hkey]; exact hstored)
        exact .inr ⟨{ d with pc := .closing }, mem_set_self hd _, hk.symm, rfl⟩
      · exact .inl ((AList.lookup_erase_ne hkey).trans hstored)
    · have hne : d' ≠ d := by
        rintro rfl
        rw [hpc] at hclosing
        cases hclosing.2
      exact .inr ⟨d', (mem_set_of_mem hd hd' _).resolve_left hne, hclosing⟩
  · rename_i hpc
    cases hs
    intro k st hst hopen
    have hget := getElem?_modify (fun st : UdpStream => { st with closed := true }) d.stream s.opened k
    rw [hget] at hst
    obtain ⟨st', hst', rfl⟩ := map_eq_some_iff.mp hst
    by_cases hk : d.stream = k
    · rw [if_pos hk] at hopen
      cases hopen
    · rw [if_neg hk] at hopen ⊢
      rcases h k st' hst' hopen with hstored | ⟨d', hd', hstream, hclosing⟩
      · exact .inl hstored
      · have hne : d' ≠ d := by
          rintro rfl
          exact hk hstream
        exact .inr ⟨d', (mem_set_of_mem hd hd' _).resolve_left hne, hstream, hclosing⟩
  · cases hs

end

theorem closeAll_get {k : Nat} {st : UdpStream} (h : s.closeAll.opened[k]? = some st) (hopen : st.closed = false) :
    s.opened[k]? = some st ∧ s.streams.lookup st.key ≠ some k := by
  rw [UdpStreams.closeAll, getElem?_mapIdx] at h
  obtain ⟨st', hst', rfl⟩ := map_eq_some_iff.mp h
  split at hopen
  · cases hopen
  · rename_i hnone
    rw [if_neg hnone]
    refine ⟨hst', fun hlookup => hnone ?_⟩
    exact List.any_eq_true.mpr ⟨⟨st'.key, k⟩, AList.mem_lookup_iff.mp hlookup, by simp⟩

theorem Stored.step (h : s.Stored) (ha : s.DropsOwn a) (hs : s.step a = some s') : s'.Stored := by
  cases a with
  | forward key tunnel =>
    simp only [UdpStreams.step] at hs
    split at hs <;> cases hs
    exact h
  | go i lane connected ok =>
    obtain ⟨call, -, hs⟩ := bind_eq_some_iff.mp hs
    obtain ⟨r, hr, rfl⟩ := map_eq_some_iff.mp hs
    exact h.stepForward hr
  | pumpEnds k =>
    obtain ⟨st, hst, hs⟩ := bind_eq_some_iff.mp hs
    split at hs <;> cases hs
    refine Stored.of_drops (s := { s with opened := _ }) ?_ fun d hd => mem_append_left _ hd
    intro j st' hst' hopen
    rcases get_set_cases hst hst' with ⟨rfl, rfl⟩ | ⟨-, hst'⟩
    · exact h j st hst hopen
    · exact h j st' hst' hopen
  | drop j =>
    obtain ⟨d, hd, hs⟩ := bind_eq_some_iff.mp hs
    exact h.stepDrop hd (ha d hd) hs
  | closeAll =>
    simp only [UdpStreams.step] at hs
    split at hs <;> cases hs
    intro k st hst hopen
    exact h k st (closeAll_get hst hopen).1 hopen

/-- As long as `dropStream` takes out no other stream than its own, every open stream is stored under its
    target or is about to be closed by the call that took it out, and `closeAll` leaves no other stream open.
    -/
theorem open_streams_are_stored {acts : List Act} (h : Run step DropsOwn {} acts s) :
    (∀ (k : Nat) (st : UdpStream), s.opened[k]? = some st → st.closed = false →
      s.streams.lookup st.key = some k ∨ s.Closing k) ∧
    ∀ s', s.step .closeAll = some s' →
      ∀ (k : Nat) (st : UdpStream), s'.opened[k]? = some st → st.closed = true ∨ s'.Closing k := by
  have hstored : s.Stored := h.invariant (fun hi ha hs => hi.step ha hs) nofun
  refine ⟨hstored, fun s' hs k st hst => ?_⟩
  simp only [UdpStreams.step] at hs
  split at hs <;> cases hs
  cases hclosed : st.closed with
  | true => exact .inl rfl
  | false =>
    obtain ⟨hst, hnone⟩ := closeAll_get hst hclosed
    exact .inr ((hstored k st hst hclosed).resolve_left hnone)

def udpTarget : TargetKey := ("example.com", 53)

def failedSend : List Act :=
  [.forward udpTarget true, .go 0 none true true, .go 0 none true true, .go 0 none true true, .go 0 none true false,
    .drop 0, .drop 0]

def reopened : List Act :=
  [.forward udpTarget true, .go 1 none true true, .go 1 none true true, .go 1 none true true, .go 1 none true true]

/-- The pump of the first stream ends, before the target gets a new stream. -/
theorem second_stream_is_stored :
    ∃ s, Run step DropsOwn {} (failedSend ++ [.pumpEnds 0, .drop 1, .drop 1] ++ reopened) s ∧
    s.opened.map (·.closed) = [true, false] ∧ (s.streams.lookup udpTarget = some 1) ∧
    ∀ s', s.step .closeAll = some s' →
      ∀ (k : Nat) (st : UdpStream), s'.opened[k]? = some st → st.closed = true ∨ s'.Closing k :=
  Run.exists_of_exec (Q := fun s => s.opened.map (·.closed) = [true, false] ∧
    s.streams.lookup udpTarget = some 1) (by decide)
    fun _ hrun hs => ⟨hs.1, hs.2, (open_streams_are_stored hrun).2⟩

/-- The pump of the first stream ends when the target has a new one: `dropStream` takes that out, and no one
    closes it. -/
theorem second_stream_is_lost :
    ∃ s, AnyRun step {} (failedSend ++ reopened ++ [.pumpEnds 0, .drop 1, .drop 1, .closeAll]) s ∧
    s.opened.map (·.closed) = [true, false] ∧ s.streams.lookup udpTarget = none ∧ s.drops.map (·.pc) = [.done, .done] ∧
    s.ended = true :=
  AnyRun.exists_of_exec (by decide)

end UdpStreams
end Whispera
