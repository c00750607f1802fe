import Whispera.EventBus

/-! `Close` leaves the subscriptions in the lists, so a channel can be closed once more, and new ones are
never closed. -/

namespace Whispera.EventBus
open List Transition

variable {eb : EventBus} {sub : EventSub}

/-- Once the bus is closed, no channel is subscribed or unsubscribed. -/
def InTime (eb : EventBus) : Call → Prop
  | .subscribe _ | .subscribeAll | .unsubscribe _ _ => eb.closed = false
  | _ => True

instance (eb c) : Decidable (InTime eb c) := by
  unfold InTime
  split <;> infer_instance

/-- Every channel has a subscription or was closed, once. -/
structure Sound (eb : EventBus) : Prop where
  opened : eb.closed = false → (eb.chans ++ eb.closes).Perm (range eb.made)
  shut : eb.closed = true → eb.closes.Perm (range eb.made)
  sent : eb.sentClosed = false

theorem Sound.of_open (hopen : eb.closed = false) (hperm : (eb.chans ++ eb.closes).Perm (range eb.made))
    (hsent : eb.sentClosed = false) :
    eb.Sound :=
  ⟨fun _ => hperm, fun hshut => (nomatch hopen.symm.trans hshut), hsent⟩

theorem perm_add {l : List Nat} {n : Nat} (h : l.Perm (range n)) : (n :: l).Perm (range (n + 1)) := by
  rw [range_succ]
  exact (h.cons n).trans (perm_append_singleton n _).symm

theorem perm_close {l l' closes : List Nat} {ch n : Nat} (hl : l.Perm (ch :: l')) (h : (l ++ closes).Perm (range n)) :
    (l' ++ (closes ++ [ch])).Perm (range n) := by
  rw [← append_assoc]
  exact (perm_append_singleton ch _).trans ((hl.append_right closes).symm.trans h)

theorem Sound.step {c : Call} (h : eb.Sound) (hc : eb.InTime c) : (eb.step c).Sound := by
  cases c with
  | subscribe eventType =>
    refine .of_open hc (.trans ?_ (perm_add (h.opened hc))) h.sent
    simp only [EventBus.step, chans, map_append, filterMap_append, map_singleton, append_assoc]
    exact perm_middle
  | subscribeAll =>
    refine .of_open hc (.trans ?_ (perm_add (h.opened hc))) h.sent
    simp only [EventBus.step, chans, filterMap_append, append_assoc]
    exact (perm_middle.append_left _).trans perm_middle
  | subscribeFunc eventType =>
    have hchans : (eb.step (.subscribeFunc eventType)).chans = eb.chans := by
      simp [EventBus.step, chans, filterMap_cons, EventSub.ch?]
    exact ⟨fun hopen => hchans ▸ h.opened hopen, h.shut, h.sent⟩
  | unsubscribeFunc eventType id =>
    have hchans : (eb.step (.unsubscribeFunc eventType id)).chans.Perm eb.chans := by
      by_cases hmem : (eventType, .handler id) ∈ eb.subscribers
      · have hperm := ((perm_cons_erase hmem).map Prod.snd).append_right eb.allSubs
        exact ((hperm.filterMap EventSub.ch?).symm)
      · rw [EventBus.step, erase_of_not_mem hmem]
    exact ⟨fun hopen => (hchans.append_right _).trans (h.opened hopen), h.shut, h.sent⟩
  | unsubscribe eventType ch =>
    rw [EventBus.step, EventBus.unsubscribe]
    split
    · rename_i hmem
      have hperm := ((perm_cons_erase hmem).map Prod.snd).append_right eb.allSubs
      exact .of_open hc (perm_close (hperm.filterMap EventSub.ch?) (h.opened hc)) h.sent
    · split
      · rename_i hmem
        have hperm := ((perm_cons_erase hmem).append_left (eb.subscribers.map Prod.snd)).trans perm_middle
        exact .of_open hc (perm_close (hperm.filterMap EventSub.ch?) (h.opened hc)) h.sent
      · exact h
  | publish eventType =>
    rw [EventBus.step, EventBus.publish]
    split
    · exact h
    · rename_i hopen
      have hperm := h.opened (by simpa using hopen)
      have hdisjoint := (nodup_append.mp (hperm.nodup_iff.mpr nodup_range)).2.2
      refine ⟨h.opened, h.shut, ?_⟩
      simp only [h.sent, Bool.false_or, any_eq_false, decide_eq_true_eq]
      intro ch hch hclosed
      refine hdisjoint ch ?_ ch hclosed rfl
      exact (((filter_sublist.map Prod.snd).append_right eb.allSubs).filterMap EventSub.ch?).subset hch
  | close =>
    rw [EventBus.step]
    split
    · exact h
    · rename_i hopen
      exact ⟨nofun, fun _ => perm_append_comm.trans (h.opened (by simpa using hopen)), h.sent⟩

/-- If no channel is subscribed or unsubscribed after `Close`, then channels are closed once, are not used
    after that, and are all closed by `Close`. -/
theorem channels_are_closed_once {calls : List Call} (h : Run (fun eb c => some (eb.step c)) InTime {} calls eb) :
    eb.closes.Nodup ∧ eb.sentClosed = false ∧ (eb.closed = true → ∀ ch < eb.made, ch ∈ eb.closes) := by
  have hsound : eb.Sound :=
    h.invariant (fun ht hc hs => by cases hs; exact ht.step hc) ⟨fun _ => .refl [], nofun, rfl⟩
  refine ⟨?_, hsound.sent, fun hshut ch hch => (hsound.shut hshut).mem_iff.mpr (mem_range.mpr hch)⟩
  cases hclosed : eb.closed with
  | false => exact (nodup_append.mp ((hsound.opened hclosed).nodup_iff.mpr nodup_range)).2.1
  | true => exact (hsound.shut hclosed).nodup_iff.mpr nodup_range

theorem channels_are_closed_once_two :
    ∃ eb, Run (fun eb c => some (eb.step c)) InTime {} [.subscribe "a", .subscribeAll, .publish "a",
      .unsubscribe "a" 0, .close] eb ∧
      eb.closes = [0, 1] ∧ eb.closes.Nodup :=
  Run.exists_of_exec (Q := fun eb => eb.closes = [0, 1]) (by decide +kernel) fun _ hrun hq =>
  ⟨hq, (channels_are_closed_once hrun).1⟩

/-- The channel is still in its list when it is unsubscribed after `Close`. -/
theorem closed_twice :
    ((({} : EventBus).step (.subscribe "a")).step .close |>.step (.unsubscribe "a" 0)).closes = [0, 0] := by
  decide

end Whispera.EventBus
