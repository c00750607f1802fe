import Mathlib.Data.List.DropRight
import Whispera.TunnelPool

/-! The channel in flight belongs to the one call that is in the loop or has just left it (`Owned`). The loops
that counted end at least three seconds apart (`Timed`), so there are never so many failures that the backoff
overflows. Which loops count is read off the steps (`ReviveLog`). -/

namespace Whispera
open List Option Transition

/-- A loop that counted: when it ended, and whether with a live tunnel. -/
structure CountedLoop where
  ended : Nat
  ok : Bool
  deriving DecidableEq, Repr

/-- How many of the last loops have failed. -/
def streak (l : List CountedLoop) : Nat := (l.rtakeWhile fun e => !e.ok).length

theorem streak_concat (l : List CountedLoop) (e : CountedLoop) :
    streak (l ++ [e]) = if e.ok then 0 else streak l + 1 := by
  unfold streak
  rw [rtakeWhile_concat]
  cases e.ok with
  | false => simp
  | true => rfl

theorem streak_le (l : List CountedLoop) : streak l ≤ l.length := (rtakeWhile_suffix _ _).length_le

theorem le_streak {l : List CountedLoop} {n : Nat} (hn : n ≤ l.length) (h : ∀ e ∈ l.rtake n, e.ok = false) :
    n ≤ streak l := by
  induction l using reverseRecOn generalizing n with
  | nil => exact hn
  | append_singleton l e ih =>
    cases n with
    | zero => exact Nat.zero_le _
    | succ n =>
      rw [rtake_concat_succ] at h
      have he : e.ok = false := h e (mem_append_right _ (mem_singleton_self e))
      rw [length_append] at hn
      rw [streak_concat, he]
      exact Nat.succ_le_succ (ih (Nat.le_of_succ_le_succ hn) fun x hx => h x (mem_append_left _ hx))

/-- `restart` was called for the transport and returned true. -/
def EntryOutcome.restarts (e : EntryOutcome) : Bool := e.enabled && !e.connected && e.restarted

/-- The transport has a live tunnel, at once or after its restart. -/
def EntryOutcome.revives (e : EntryOutcome) : Bool := e.enabled && (e.connected || (e.restarted && e.live))

/-- What the steps of a run show: the time; of each call, whether a restart returned true in it and whether it
    has found a live tunnel; and the loops that have ended with such a restart. -/
structure ReviveLog where
  clock : Nat
  restarted : Nat → Bool := fun _ => false
  revived : Nat → Bool := fun _ => false
  counted : List CountedLoop := []

namespace ReviveLog

def record (l : ReviveLog) : TunnelPool.Act → ReviveLog
  | .entry i e =>
    { l with
      restarted := Function.update l.restarted i (l.restarted i || e.restarts)
      revived := Function.update l.revived i (l.revived i || e.revives) }
  | .endRevive i =>
    if l.restarted i then { l with counted := l.counted ++ [{ ended := l.clock, ok := l.revived i }] } else l
  | .tick d => { l with clock := l.clock + d }
  | .begin _ _ | .next _ | .cancel _ => l

/-- The log of a run that starts at the given time. -/
def of (start : Nat) (acts : List TunnelPool.Act) : ReviveLog := acts.foldl record { clock := start }

end ReviveLog

/-- The steps that the call has at most to take until its channel is closed. -/
def RevivePc.left : RevivePc → Nat
  | start | waiting _ | returned => 0
  | running n _ => n + 3
  | ending _ _ => 2
  | closing => 1

/-- The flags of a call in the loop are those of the log, in which a call that has not begun has none. -/
def RevivePc.Noted (restarted revived : Bool) : RevivePc → Prop
  | start => restarted = false ∧ revived = false
  | running _ attempted => attempted = restarted ∧ revived = false
  | ending ok counted => counted = restarted ∧ ok = revived
  | waiting _ | closing | returned => True

namespace TunnelPool

/-- The channel in flight is that of the call that has not left the lock of `endRevive`; who waits for a
    channel waits for a call that is to close it, unless it is closed. -/
structure Owned (p : TunnelPool) : Prop where
  flight : ∀ i, p.inflight = some i ↔ 1 < (p.calls i).left
  waits : ∀ i owner, p.calls i = .waiting owner → p.closed owner = true ∨ 0 < (p.calls owner).left

/-- The timers are those of the loops that counted, at least three seconds apart, as is the beginning of a
    loop from the last. -/
structure Timed (loops : List CountedLoop) (p : TunnelPool) : Prop where
  clock : p.clock < 9223372036854775808
  past : ∀ e ∈ loops.getLast?, e.ended ≤ p.clock
  last : p.lastRevive = loops.getLast?.map (·.ended)
  fails : p.fails.toInt = streak loops
  lastFail : 0 < streak loops → p.lastFail = p.lastRevive
  spaced : ∀ e ∈ loops.getLast?, loops.length * 3000000000 ≤ e.ended + 3000000000
  began : p.inflight ≠ none → ∀ e ∈ loops.getLast?, e.ended + 3000000000 ≤ p.clock

variable {p p' : TunnelPool} {loops : List CountedLoop}

section
variable (h : p.Timed loops)
include h

theorem Timed.streak_le : streak loops * 3000000000 < 9223372036854775808 + 3000000000 := by
  have hle := Whispera.streak_le loops
  cases hlast : loops.getLast? with
  | none =>
    rw [getLast?_eq_none_iff.mp hlast]
    decide
  | some e =>
    have hspaced := h.spaced e hlast
    have hpast := h.past e hlast
    have hclock := h.clock
    have hmul : streak loops * 3000000000 ≤ loops.length * 3000000000 := Nat.mul_le_mul_right _ hle
    omega

theorem Timed.backoff : (p.fails * reviveBackoffStep).toInt = streak loops * 2000000000 := by
  have hle := h.streak_le
  have hstep : reviveBackoffStep.toInt = 2000000000 := by decide
  rw [Int64.toInt_mul, h.fails, hstep, Int.bmod_eq_of_le (by omega) (by omega)]

theorem Timed.reviveAllowed (hallowed : p.reviveAllowed = true) {e : CountedLoop} (he : e ∈ loops.getLast?) :
    e.ended + 3000000000 ≤ p.clock ∧ e.ended + min (streak loops * 2000000000) 10000000000 ≤ p.clock := by
  have hlast : p.lastRevive = some e.ended := by
    rw [h.last, mem_def.mp he]
    rfl
  have hmin : reviveMinInterval.toInt = 3000000000 := by decide
  have hmax : reviveBackoffMax.toInt = 10000000000 := by decide
  have hpast := h.past e he
  unfold TunnelPool.reviveAllowed at hallowed
  split at hallowed
  · cases hallowed
  · rename_i hinterval
    rw [hlast, hmin] at hinterval
    simp only [TunnelPool.since] at hinterval
    have hfirst : e.ended + 3000000000 ≤ p.clock := by omega
    refine ⟨hfirst, ?_⟩
    split at hallowed
    · -- no failure since the last success
      rename_i hzero
      have hnone := h.fails
      rw [hzero] at hnone
      have hstreak : streak loops = 0 := Int.ofNat_inj.mp hnone.symm
      rw [hstreak]
      omega
    · rename_i hfails
      have hpos : 0 < streak loops := by
        by_contra hzero
        have hnone := h.fails
        rw [Nat.eq_zero_of_not_pos hzero] at hnone
        exact hfails (Int64.toInt_inj.mp hnone)
      have hsince := of_decide_eq_true hallowed
      rw [h.lastFail hpos, hlast] at hsince
      simp only [TunnelPool.since] at hsince
      split at hsince
      · rw [hmax] at hsince
        omega
      · rw [h.backoff] at hsince
        omega

theorem Timed.frame (hclock : p'.clock = p.clock) (hlast : p'.lastRevive = p.lastRevive) (hfails : p'.fails = p.fails)
    (hlastFail : p'.lastFail = p.lastFail) (hinflight : p'.inflight = none ∨ p'.inflight = p.inflight) :
    p'.Timed loops where
  clock := hclock ▸ h.clock
  past := hclock ▸ h.past
  last := hlast ▸ h.last
  fails := hfails ▸ h.fails
  lastFail := hlastFail ▸ hlast ▸ h.lastFail
  spaced := h.spaced
  began hne := by
    rcases hinflight with hnone | hsame
    · exact absurd hnone hne
    · exact hclock ▸ h.began (hsame ▸ hne)

theorem Timed.tick {d : Nat} (hclock : p.clock + d < 9223372036854775808) :
    Timed loops { p with clock := p.clock + d } where
  clock := hclock
  past e he := Nat.le_add_right_of_le (h.past e he)
  last := h.last
  fails := h.fails
  lastFail := h.lastFail
  spaced := h.spaced
  began hne e he := Nat.le_add_right_of_le (h.began hne e he)

/-- A loop that counts has begun three seconds after the last one. -/
theorem Timed.endRevive (ok : Bool) (hinflight : p.inflight ≠ none) :
    (p.endRevive ok true).Timed (loops ++ [{ ended := p.clock, ok }]) := by
  have hstreak := streak_concat loops { ended := p.clock, ok }
  have hlength : (loops ++ [CountedLoop.mk p.clock ok]).length * 3000000000 ≤ p.clock + 3000000000 := by
    rw [length_append, length_singleton, Nat.add_one_mul]
    refine Nat.add_le_add_right ?_ _
    cases hbefore : loops.getLast? with
    | none =>
      rw [getLast?_eq_none_iff.mp hbefore, length_nil, Nat.zero_mul]
      exact Nat.zero_le _
    | some e => exact Nat.le_trans (h.spaced e hbefore) (h.began hinflight e hbefore)
  have hend : ∀ e ∈ (loops ++ [CountedLoop.mk p.clock ok]).getLast?, e.ended = p.clock := by
    intro e he
    rw [getLast?_concat] at he
    cases he
    rfl
  have hclock : (p.endRevive ok true).clock = p.clock := by cases ok <;> rfl
  have hlast : (p.endRevive ok true).lastRevive = some p.clock := by cases ok <;> rfl
  refine ⟨hclock ▸ h.clock, fun e he => ?_, ?_, ?_, ?_, fun e he => ?_, ?_⟩
  · rw [hend e he, hclock]
  · rw [hlast, getLast?_concat]
    rfl
  · rw [hstreak]
    cases ok with
    | true => rfl
    | false =>
      have hle := h.streak_le
      have hone : (1 : Int64).toInt = 1 := by decide
      have hfails : (p.endRevive false true).fails = p.fails + 1 := rfl
      rw [hfails, if_neg Bool.false_ne_true, Int64.toInt_add, h.fails, hone, Int.bmod_eq_of_le (by omega) (by omega)]
      rfl
  · rw [hstreak]
    cases ok with
    | true => exact fun hpos => absurd hpos (lt_irrefl 0)
    | false => exact fun _ => rfl
  · rw [hend e he]
    exact hlength
  · cases ok <;> exact fun hne => absurd rfl hne

end

variable {l : ReviveLog} {pc pc' : RevivePc} {i : Nat}

/-- One call goes on to `pc`. -/
theorem Owned.set (h : p.Owned) (hcalls : p'.calls = Function.update p.calls i pc)
    (hclosed : ∀ j, p.closed j = true → p'.closed j = true) (hself : p'.inflight = some i ↔ 1 < pc.left)
    (hothers : ∀ j ≠ i, p'.inflight = some j ↔ p.inflight = some j)
    (hleft : 0 < (p.calls i).left → p'.closed i = true ∨ 0 < pc.left)
    (hwaits : ∀ owner, pc = .waiting owner → p.inflight = some owner) : p'.Owned := by
  have hkept : ∀ owner, p.closed owner = true ∨ 0 < (p.calls owner).left →
      p'.closed owner = true ∨ 0 < (p'.calls owner).left := by
    rintro owner (hold | hold)
    · exact .inl (hclosed owner hold)
    · rw [hcalls]
      rcases eq_or_ne owner i with rfl | hne
      · rw [Function.update_self]
        exact hleft hold
      · rw [Function.update_of_ne hne]
        exact .inr hold
  refine ⟨fun j => ?_, fun j owner hj => hkept owner ?_⟩
  · rw [hcalls]
    rcases eq_or_ne j i with rfl | hne
    · rwa [Function.update_self]
    · rw [Function.update_of_ne hne, hothers j hne]
      exact h.flight j
  · rw [hcalls] at hj
    rcases eq_or_ne j i with rfl | hne
    · rw [Function.update_self] at hj
      exact .inr (Nat.lt_of_succ_lt ((h.flight owner).mp (hwaits owner hj)))
    · rw [Function.update_of_ne hne] at hj
      exact h.waits j owner hj

/-- A call goes on in the loop, or has no channel before and after the step. -/
theorem Owned.setPc (h : p.Owned) (hpc : p.calls i = pc)
    (hleft : pc.left = 0 ∧ pc'.left = 0 ∨ 1 < pc.left ∧ 1 < pc'.left)
    (hwaits : ∀ owner, pc' = .waiting owner → p.inflight = some owner) : (p.setPc i pc').Owned := by
  refine h.set rfl (fun _ => id) ((h.flight i).trans ?_) (fun _ _ => Iff.rfl) (fun hpos => .inr ?_) hwaits
  · rw [hpc]
    omega
  · rw [hpc] at hpos
    omega

theorem Owned.run (h : p.Owned) (n : Nat) (hinflight : p.inflight = none) :
    ({ p with inflight := some i }.setPc i (.running n false)).Owned := by
  refine h.set rfl (fun _ => id) ⟨fun _ => Nat.lt_add_left n (by decide), fun _ => rfl⟩ (fun j hne => ?_)
    (fun _ => .inr (Nat.succ_pos _)) nofun
  rw [hinflight]
  exact ⟨fun heq => absurd (some.inj heq).symm hne, nofun⟩

theorem Owned.endRevive {ok counted : Bool} (h : p.Owned) (hpc : p.calls i = .ending ok counted) :
    ((p.endRevive ok counted).setPc i .closing).Owned := by
  have hmine : p.inflight = some i := (h.flight i).mpr (hpc ▸ Nat.one_lt_two)
  have hothers : ∀ j ≠ i, none = some j ↔ p.inflight = some j := by
    intro j hne
    rw [hmine]
    exact ⟨nofun, fun heq => absurd (some.inj heq).symm hne⟩
  cases counted <;> cases ok <;>
    exact h.set rfl (fun _ => id) ⟨nofun, nofun⟩ hothers (fun _ => .inr Nat.one_pos) nofun

theorem Owned.close (h : p.Owned) (hpc : p.calls i = .closing) :
    Owned { p.setPc i .returned with closed := Function.update p.closed i true } := by
  refine h.set rfl (fun j hj => ?_) ((h.flight i).trans ?_) (fun _ _ => Iff.rfl)
    (fun _ => .inl (Function.update_self _ _ _)) nofun
  · rcases eq_or_ne j i with rfl | hne
    · exact Function.update_self _ _ _
    · exact (Function.update_of_ne hne _ _).trans hj
  · rw [hpc]
    exact ⟨nofun, nofun⟩

/-- What holds all along a run, next to its log. -/
structure Kept (l : ReviveLog) (p : TunnelPool) : Prop where
  clock : p.clock = l.clock
  noted : ∀ i, (p.calls i).Noted (l.restarted i) (l.revived i)
  owned : p.Owned
  timed : p.Timed l.counted

theorem noted_set (h : ∀ j ≠ i, (p.calls j).Noted (l.restarted j) (l.revived j))
    (hpc : pc.Noted (l.restarted i) (l.revived i)) (j : Nat) :
    (Function.update p.calls i pc j).Noted (l.restarted j) (l.revived j) := by
  rcases eq_or_ne j i with rfl | hne
  · rwa [Function.update_self]
  · rw [Function.update_of_ne hne]
    exact h j hne

theorem Kept.setPc (h : Kept l p) (howned : (p.setPc i pc).Owned) (hnoted : pc.Noted (l.restarted i) (l.revived i)) :
    Kept l (p.setPc i pc) where
  clock := h.clock
  noted := noted_set (fun j _ => h.noted j) hnoted
  owned := howned
  timed := h.timed.frame rfl rfl rfl rfl (.inr rfl)

theorem Kept.begin (h : Kept l p) (n : Nat) (hpc : p.calls i = .start) :
    Kept l ((p.beginRevive i n).1.setPc i (p.beginRevive i n).2) := by
  unfold beginRevive
  split
  · rename_i owner hinflight
    refine h.setPc (h.owned.setPc hpc (.inl ⟨rfl, rfl⟩) fun other hother => ?_) trivial
    cases hother
    exact hinflight
  · rename_i hinflight
    split
    · rename_i hallowed
      have hfree := h.noted i
      rw [hpc] at hfree
      exact ⟨h.clock, noted_set (fun j _ => h.noted j) ⟨hfree.1.symm, hfree.2⟩, h.owned.run n hinflight,
        ⟨h.timed.clock, h.timed.past, h.timed.last, h.timed.fails, h.timed.lastFail, h.timed.spaced,
          fun _ e he => (h.timed.reviveAllowed hallowed he).1⟩⟩
    · exact h.setPc (h.owned.setPc hpc (.inl ⟨rfl, rfl⟩) nofun) trivial

theorem reviveEntry_left (left : Nat) (attempted : Bool) (e : EntryOutcome) : 1 < (reviveEntry left attempted e).left ∧
    (reviveEntry left attempted e).left < left + 4 := by
  unfold reviveEntry
  split_ifs <;> simp only [RevivePc.left] <;> omega

theorem noted_entry (e : EntryOutcome) {left : Nat} {attempted restarted revived : Bool}
    (h : (RevivePc.running (left + 1) attempted).Noted restarted revived) :
    (reviveEntry left attempted e).Noted (restarted || e.restarts) (revived || e.revives) := by
  obtain ⟨rfl, rfl⟩ := h
  obtain ⟨enabled, connected, restarted, live⟩ := e
  cases enabled <;> cases connected <;> cases restarted <;> cases live <;> cases attempted <;> exact ⟨rfl, rfl⟩

theorem Kept.entry (h : Kept l p) (e : EntryOutcome) {left : Nat} {attempted : Bool}
    (hpc : p.calls i = .running (left + 1) attempted) :
    Kept (l.record (.entry i e)) (p.setPc i (reviveEntry left attempted e)) where
  clock := h.clock
  noted := by
    refine noted_set (fun j hne => ?_) ?_
    · simp only [ReviveLog.record, Function.update_of_ne hne]
      exact h.noted j
    · simp only [ReviveLog.record, Function.update_self]
      exact noted_entry e (hpc ▸ h.noted i)
  owned := by
    have hleft := (reviveEntry_left left attempted e).1
    refine h.owned.setPc hpc (.inr ⟨Nat.lt_add_left _ (by decide), hleft⟩) fun owner howner => ?_
    rw [howner] at hleft
    cases hleft
  timed := h.timed.frame rfl rfl rfl rfl (.inr rfl)

theorem Kept.endRevive (h : Kept l p) {ok counted : Bool} (hpc : p.calls i = .ending ok counted) :
    Kept (l.record (.endRevive i)) ((p.endRevive ok counted).setPc i .closing) := by
  have hmine : p.inflight ≠ none := by
    rw [(h.owned.flight i).mpr (hpc ▸ Nat.one_lt_two)]
    exact nofun
  have hflags := h.noted i
  rw [hpc] at hflags
  obtain ⟨rfl, rfl⟩ := hflags
  have howned := h.owned.endRevive hpc
  have hnoted : ∀ j, (Function.update p.calls i .closing j).Noted (l.restarted j) (l.revived j) :=
    noted_set (fun j _ => h.noted j) trivial
  simp only [ReviveLog.record]
  cases hcounted : l.restarted i with
  | false =>
    rw [hcounted] at howned
    exact ⟨h.clock, hnoted, howned, h.timed.frame rfl rfl rfl rfl (.inl rfl)⟩
  | true =>
    rw [hcounted] at howned
    have htimed := h.timed.endRevive (l.revived i) hmine
    rw [h.clock] at htimed
    have hset : ((p.endRevive (l.revived i) true).setPc i .closing).Timed _ := htimed.frame rfl rfl rfl rfl (.inr rfl)
    cases hok : l.revived i with
    | false | true =>
      rw [hok] at howned hset
      exact ⟨h.clock, hnoted, howned, hset⟩

theorem Kept.next (h : Kept l p) (hs : p.step (.next i) = some p') : Kept l p' := by
  simp only [step] at hs
  split at hs <;> try cases hs
  · rename_i attempted hpc
    have hflags := h.noted i
    rw [hpc] at hflags
    exact h.setPc (h.owned.setPc hpc (.inr ⟨Nat.lt_add_left 0 (by decide), Nat.one_lt_two⟩) nofun)
      ⟨hflags.1, hflags.2.symm⟩
  · rename_i hpc
    exact ⟨h.clock, noted_set (fun j _ => h.noted j) trivial, h.owned.close hpc,
      h.timed.frame rfl rfl rfl rfl (.inr rfl)⟩
  · split at hs <;> cases hs
    exact h.setPc (h.owned.setPc ‹_› (.inl ⟨rfl, rfl⟩) nofun) trivial

theorem Kept.step {a : Act} (h : Kept l p) (hs : p.step a = some p') : Kept (l.record a) p' := by
  cases a with
  | begin i n =>
    simp only [TunnelPool.step] at hs
    split at hs <;> cases hs
    exact h.begin n ‹_›
  | entry i e =>
    simp only [TunnelPool.step] at hs
    split at hs <;> cases hs
    exact h.entry e ‹_›
  | endRevive i =>
    simp only [TunnelPool.step] at hs
    split at hs <;> cases hs
    exact h.endRevive ‹_›
  | next i => exact h.next hs
  | cancel i =>
    simp only [TunnelPool.step] at hs
    split at hs <;> cases hs
    exact h.setPc (h.owned.setPc ‹_› (.inl ⟨rfl, rfl⟩) nofun) trivial
  | tick d =>
    simp only [TunnelPool.step] at hs
    split at hs <;> cases hs
    rename_i hclock
    exact ⟨congrArg (· + d) h.clock, h.noted, ⟨h.owned.flight, h.owned.waits⟩, h.timed.tick hclock⟩

theorem kept_run {start : Fin 9223372036854775808} {acts : List Act} (h : AnyRun step { clock := start } acts p) :
    Kept (.of start acts) p := by
  induction h with
  | nil =>
    exact ⟨rfl, fun _ => ⟨rfl, rfl⟩, ⟨fun _ => ⟨nofun, nofun⟩, nofun⟩,
      ⟨start.isLt, nofun, rfl, rfl, nofun, nofun, nofun⟩⟩
  | snoc _ _ hs ih =>
    rw [ReviveLog.of, foldl_append]
    exact ih.step hs

theorem setPc_self (p : TunnelPool) (i : Nat) (pc : RevivePc) : (p.setPc i pc).calls i = pc :=
  Function.update_self _ _ _

/-- The call that is to close its channel can take a step that brings it nearer to that. -/
theorem owner_moves (howns : 0 < (p.calls i).left) :
    ∃ a p', p.step a = some p' ∧ (p'.calls i).left < (p.calls i).left := by
  cases hpc : p.calls i with
  | start | waiting _ | returned =>
    rw [hpc] at howns
    cases howns
  | running left attempted =>
    cases left with
    | zero =>
      refine ⟨.next i, p.setPc i (.ending false attempted), by simp only [step, hpc], ?_⟩
      rw [setPc_self]
      exact Nat.lt_succ_self 2
    | succ left =>
      let e : EntryOutcome := ⟨false, false, false, false⟩
      refine ⟨.entry i e, p.setPc i (reviveEntry left attempted e), by simp only [step, hpc], ?_⟩
      rw [setPc_self]
      exact (reviveEntry_left left attempted e).2
  | ending ok counted =>
    refine ⟨.endRevive i, (p.endRevive ok counted).setPc i .closing, by simp only [step, hpc], ?_⟩
    rw [setPc_self]
    exact Nat.one_lt_two
  | closing =>
    refine ⟨.next i, { p.setPc i .returned with closed := Function.update p.closed i true },
      by simp only [step, hpc], ?_⟩
    exact Nat.lt_of_le_of_lt (congrArg RevivePc.left (setPc_self p i .returned)).le Nat.one_pos

/-- A call that begins the loop was allowed to. -/
theorem begin_running {n m : Nat} {b : Bool} (hs : p.step (.begin i n) = some p')
    (hrunning : p'.calls i = .running m b) :
    p.reviveAllowed = true := by
  simp only [step] at hs
  split at hs <;> cases hs
  rw [setPc_self, beginRevive] at hrunning
  split at hrunning
  · cases hrunning
  · split at hrunning
    · assumption
    · cases hrunning

/-- At most one call of `revive` runs the loop; one that waits is released as soon as the call it waits for
    has closed its channel, which can always go on to do so; and a loop begins only three seconds after the
    last loop that counted, and `min (2 * n) 10` seconds after it when the last `n` of them have ended without
    a live tunnel. -/
theorem revive_backs_off {start : Fin 9223372036854775808} {acts : List Act}
    (h : AnyRun step { clock := start } acts p) :
    (∀ i j n n' b b', p.calls i = .running n b → p.calls j = .running n' b' → i = j) ∧
    (∀ i owner, p.calls i = .waiting owner → p.step (.next i) = some (p.setPc i .returned) ∨
      0 < (p.calls owner).left ∧ ∃ a p', p.step a = some p' ∧ (p'.calls owner).left < (p.calls owner).left) ∧
    ∀ i n m b p', p.step (.begin i n) = some p' → p'.calls i = .running m b →
      ∀ e ∈ (ReviveLog.of start acts).counted.getLast?, e.ended + 3000000000 ≤ p.clock ∧
        ∀ k ≤ (ReviveLog.of start acts).counted.length,
          (∀ l ∈ (ReviveLog.of start acts).counted.rtake k, l.ok = false) →
          e.ended + min (2 * k) 10 * 1000000000 ≤ p.clock := by
  have hkept := kept_run h
  refine ⟨?_, ?_, ?_⟩
  · intro i j n n' b b' hi hj
    have hfirst := (hkept.owned.flight i).mpr (hi ▸ Nat.lt_add_left n (by decide))
    have hsecond := (hkept.owned.flight j).mpr (hj ▸ Nat.lt_add_left n' (by decide))
    exact some.inj (hfirst.symm.trans hsecond)
  · intro i owner hi
    rcases hkept.owned.waits i owner hi with hclosed | hleft
    · refine .inl ?_
      simp only [step, hi, if_pos hclosed]
    · exact .inr ⟨hleft, owner_moves hleft⟩
  · intro i n m b p' hs hrunning e he
    obtain ⟨hfirst, hback⟩ := hkept.timed.reviveAllowed (begin_running hs hrunning) he
    refine ⟨hfirst, fun k hk hfailed => ?_⟩
    have hle := le_streak hk hfailed
    omega

def failedRevive : List Act :=
  [.begin 0 1, .begin 1 1, .entry 0 ⟨true, false, true, false⟩, .next 0, .endRevive 0, .next 0, .tick 3000000000]

theorem revive_after_failure : ∃ p, AnyRun step { clock := (0 : Fin 9223372036854775808) } failedRevive p ∧
    p.calls 1 = .waiting 0 ∧ (ReviveLog.of 0 failedRevive).counted = [{ ended := 0, ok := false }] ∧
    (∃ p', p.step (.begin 2 1) = some p' ∧ p'.calls 2 = .running 1 false) ∧ 3000000000 ≤ p.clock := by
  refine Run.exists_of_exec (Q := fun p => p.calls 1 = .waiting 0 ∧
    ∃ p' ∈ p.step (.begin 2 1), p'.calls 2 = .running 1 false)
    (by decide +kernel) ?_
  rintro p hrun ⟨hwaits, p', hs, hrunning⟩
  refine ⟨hwaits, by decide +kernel, ⟨p', hs, hrunning⟩, ?_⟩
  exact ((revive_backs_off hrun).2.2 2 1 1 false p' hs hrunning { ended := 0, ok := false } (by decide +kernel)).1

end TunnelPool

end Whispera
