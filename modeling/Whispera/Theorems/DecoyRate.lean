import Mathlib.Order.Basic
import Whispera.DecoyRate
import Whispera.Lib.Transition

/-! The window of an address that is forgotten is over, so its next call begins a new one in any case. And an
interval as long as a window meets two windows at most. -/

namespace Whispera
open List Function Transition

namespace DecoyIPRate

/-- The window of an address, by the time of its first call and the number of its calls, after one more call.
    -/
def advance (w : Option (Int × Nat)) (now : Int) : Int × Nat :=
  match w with
  | none => (now, 1)
  | some (first, n) => if now - first > decoyRateWindow then (now, 1) else (first, n + 1)

/-- The windows after some calls, if nothing is forgotten. -/
def windowsOf : List DecoyCall → String → Option (Int × Nat) :=
  foldl (fun w c => update w c.ip (some (advance (w c.ip) c.time))) fun _ => none

theorem windowsOf_concat (calls : List DecoyCall) (c : DecoyCall) :
    windowsOf (calls ++ [c]) = update (windowsOf calls) c.ip (some (advance (windowsOf calls c.ip) c.time)) :=
      foldl_concat ..

/-- A window is known, or forgotten and over. -/
def Fades (now : Int) (v w : Option (Int × Nat)) : Prop := v = w ∨ v = none ∧ ∀ x ∈ w, now - x.1 > decoyRateWindow

theorem Fades.advance_eq {now : Int} {v w : Option (Int × Nat)} (h : Fades now v w) :
    advance v now = advance w now := by
  rcases h with rfl | ⟨rfl, hw⟩
  · rfl
  · cases w with
    | none => rfl
    | some x => exact (if_pos (hw x rfl)).symm

theorem Fades.trans {now time : Int} {u v w : Option (Int × Nat)} (h : Fades time u v) (h' : Fades now v w)
    (hle : now ≤ time) :
    Fades time u w := by
  rcases h' with rfl | ⟨rfl, hw⟩
  · exact h
  · refine .inr ⟨h.elim id And.left, fun x hx => ?_⟩
    have := hw x hx
    omega

variable (d : DecoyIPRate) (now : Int) (ip : String)

def window : Option (Int × Nat) := (d.seen ip).map (·, d.count ip)

theorem window_clean : Fades now ((d.clean now).window ip) (d.window ip) := by
  unfold clean
  split
  · cases hseen : d.seen ip with
    | none =>
      simp only [window, hseen]
      exact .inl rfl
    | some t =>
      simp only [window, hseen]
      by_cases hold : now - t > decoyRateWindow
      · rw [Option.filter_some_neg (by simp only [hold, not_true, decide_false])]
        exact .inr ⟨rfl, by rintro x ⟨⟩; exact hold⟩
      · rw [Option.filter_some_pos (by simp only [hold, not_false_eq_true, decide_true]),
          if_neg (by rintro ⟨u, ⟨⟩, hu⟩; exact hold hu)]
        exact .inl rfl
  · exact .inl rfl

theorem allow_eq : (d.allow now ip).2 = decide ((advance ((d.clean now).window ip) now).2 ≤ decoyRateMax) ∧
    (d.allow now ip).1.window = update (d.clean now).window ip (some (advance ((d.clean now).window ip) now)) := by
  unfold allow
  generalize d.clean now = d
  by_cases hfresh : ∀ last ∈ d.seen ip, now - last > decoyRateWindow
  · have hadvance : advance (d.window ip) now = (now, 1) := by
      cases hseen : d.seen ip with
      | none => simp [window, hseen, advance]
      | some last => simp [window, hseen, advance, hfresh last hseen]
    rw [if_pos hfresh, hadvance]
    refine ⟨rfl, funext fun k => ?_⟩
    by_cases hk : k = ip
    · subst hk
      simp [window]
    · simp [window, hk]
  · obtain ⟨last, hseen, hopen⟩ : ∃ last, d.seen ip = some last ∧ ¬now - last > decoyRateWindow := by simpa using hfresh
    have hadvance : advance (d.window ip) now = (last, d.count ip + 1) := by simp [window, hseen, advance, hopen]
    rw [if_neg hfresh, hadvance]
    refine ⟨rfl, funext fun k => ?_⟩
    by_cases hk : k = ip
    · subst hk
      simp [window, hseen]
    · simp [window, hk]

/-- Of the calls that are allowed from `t` on, for as long as a window, `k` were made up to now. -/
structure Within (t now : Int) (k : Nat) (w : Option (Int × Nat)) : Prop where
  before : now < t → k = 0
  all : k ≤ 2 * decoyRateMax
  first : w = none → k = 0
  window : ∀ x ∈ w, x.1 ≤ now ∧ (x.1 < t → k ≤ min x.2 decoyRateMax) ∧
    (x.1 ≤ t + decoyRateWindow → k ≤ decoyRateMax + min x.2 decoyRateMax)

section
variable {t now time : Int} {k k' : Nat} {w : Option (Int × Nat)}

theorem Within.later (h : Within t now k w) (hle : now ≤ time) : Within t time k w where
  before hlt := h.before (Int.lt_of_le_of_lt hle hlt)
  all := h.all
  first := h.first
  window x hx := ⟨Int.le_trans (h.window x hx).1 hle, (h.window x hx).2⟩

theorem Within.call (h : Within t now k w) (hle : now ≤ time) (hk : k' = k ∨
      k' = k + 1 ∧ (advance w time).2 ≤ decoyRateMax ∧ t ≤ time ∧ time ≤ t + decoyRateWindow) :
    Within t time k' (some (advance w time)) := by
  obtain ⟨hbefore, hall, hnone, hwindow⟩ := h
  have hmax : decoyRateMax = 20 := rfl
  suffices hsome : (time < t → k' = 0) ∧ k' ≤ 2 * decoyRateMax ∧ (advance w time).1 ≤ time ∧
      ((advance w time).1 < t → k' ≤ min (advance w time).2 decoyRateMax) ∧
      ((advance w time).1 ≤ t + decoyRateWindow → k' ≤ decoyRateMax + min (advance w time).2 decoyRateMax) from
    ⟨hsome.1, hsome.2.1, nofun, by rintro x ⟨⟩; exact hsome.2.2⟩
  cases w with
  | none =>
    have hzero := hnone rfl
    simp only [advance] at hk ⊢
    omega
  | some x =>
    obtain ⟨first, n⟩ := x
    obtain ⟨hfirst, hthis, hnext⟩ := hwindow (first, n) rfl
    -- A window that begins in the interval follows one that began before it.
    simp only [advance] at hk hthis hnext ⊢
    split at hk
    · rw [if_pos ‹_›]
      simp only at hk ⊢
      omega
    · rw [if_neg ‹_›]
      simp only at hk ⊢
      omega

end

end DecoyIPRate

namespace DecoyHistory
open DecoyIPRate
variable {hostOf : String → String} {s s' : DecoyHistory} {c : String × Int} {start now : Int}
  {cs : List (String × Int)}

theorem step_cases (h : s.step hostOf c = some s') : s.now ≤ c.2 ∧ s' =
    { rate := (s.rate.allow c.2 (hostOf c.1)).1
      calls := s.calls ++ [⟨hostOf c.1, c.2, (s.rate.allow c.2 (hostOf c.1)).2⟩], now := c.2 } := by
  unfold step at h
  split at h <;> cases h
  exact ⟨Int.not_lt.mp ‹_›, rfl⟩

/-- The windows kept are those of the calls, but for what has run out. -/
def Exact (s : DecoyHistory) : Prop := ∀ ip, Fades s.now (s.rate.window ip) (windowsOf s.calls ip)

theorem Exact.clean (h : s.Exact) (hle : s.now ≤ now) (ip : String) :
    Fades now ((s.rate.clean now).window ip) (windowsOf s.calls ip) :=
  (s.rate.window_clean now ip).trans (h ip) hle

theorem Exact.allow (h : s.Exact) (hle : s.now ≤ now) (ip : String) :
    (s.rate.allow now ip).2 = decide ((advance (windowsOf s.calls ip) now).2 ≤ decoyRateMax) := by
  rw [(s.rate.allow_eq now ip).1, (h.clean hle ip).advance_eq]

theorem Exact.step (h : s.Exact) (hs : s.step hostOf c = some s') : s'.Exact := by
  obtain ⟨hle, rfl⟩ := step_cases hs
  intro ip
  rw [(s.rate.allow_eq c.2 (hostOf c.1)).2, windowsOf_concat, (h.clean hle _).advance_eq]
  by_cases hip : ip = hostOf c.1
  · subst hip
    simp [Fades]
  · simp only [update_of_ne hip]
    exact h.clean hle ip

/-- An address is allowed a call by its own calls alone, up to twenty in a window, as if no address were ever
    forgotten. -/
theorem allow_is_exact (h : AnyRun (step hostOf) { rate := { lastClean := start }, now := start } cs s)
    (hnow : s.now ≤ now)
    (ip : String) : (s.rate.allow now ip).2 = true ↔ (advance (windowsOf s.calls ip) now).2 ≤ decoyRateMax := by
  have hexact : s.Exact := h.invariant (fun hex _ hs => hex.step hs) fun _ => .inl rfl
  rw [hexact.allow hnow, decide_eq_true_iff]

theorem allow_is_exact_forgotten : ∃ s, AnyRun (step id) { rate := { lastClean := 0 }, now := 0 }
    [("a", 1), ("b", 60000000001)] s ∧ (s.now = 60000000001 ∧ s.rate.seen "a" = none) ∧
      ((s.rate.allow 60000000001 "a").2 = true ↔ (advance (windowsOf s.calls "a") 60000000001).2 ≤ decoyRateMax) :=
  Run.exists_of_exec (Q := fun s => s.now = 60000000001 ∧ s.rate.seen "a" = none) (by decide +kernel) fun _ hrun hs =>
    ⟨hs, allow_is_exact hrun (Int.le_of_eq hs.1) "a"⟩

def allowedIn (ip : String) (t : Int) (c : DecoyCall) : Bool :=
  c.ip = ip && c.allowed && t ≤ c.time && c.time ≤ t + decoyRateWindow

/-- Within the length of a window, an address is allowed no more than twice the calls of a window. -/
theorem allowed_within_window (h : AnyRun (step hostOf) { rate := { lastClean := start }, now := start } cs s)
    (ip : String) (t : Int) :
    s.calls.countP (allowedIn ip t) ≤ 2 * decoyRateMax := by
  suffices hinv : s.Exact ∧ Within t s.now (s.calls.countP (allowedIn ip t)) (windowsOf s.calls ip) from hinv.2.all
  refine h.invariant (I := fun s => s.Exact ∧ Within t s.now (s.calls.countP (allowedIn ip t)) (windowsOf s.calls ip))
    (fun {s c s'} hi _ hs => ⟨hi.1.step hs, ?_⟩) ⟨fun _ => .inl rfl, fun _ => rfl, Nat.zero_le _, fun _ => rfl, nofun⟩
  obtain ⟨hle, rfl⟩ := step_cases hs
  have hallowed := hi.1.allow hle (hostOf c.1)
  rw [windowsOf_concat, countP_append, countP_singleton]
  by_cases hip : ip = hostOf c.1
  · subst hip
    rw [update_self]
    refine hi.2.call hle ?_
    split
    · rename_i hin
      simp only [allowedIn, hallowed, Bool.and_eq_true, decide_eq_true_eq] at hin
      exact .inr ⟨rfl, hin.1.1.2, hin.1.2, hin.2⟩
    · exact .inl rfl
  · rw [update_of_ne hip, if_neg (by simp [allowedIn, Ne.symm hip])]
    exact hi.2.later hle

theorem allowed_within_two_calls :
    ∃ s, AnyRun (step id) { rate := { lastClean := 0 }, now := 0 } [("a", 1), ("a", 2)] s ∧
    s.calls.countP (allowedIn "a" 0) = 2 ∧ s.calls.countP (allowedIn "a" 0) ≤ 2 * decoyRateMax :=
  Run.exists_of_exec (Q := fun s => s.calls.countP (allowedIn "a" 0) = 2) (by decide +kernel) fun _ hrun hs =>
    ⟨hs, allowed_within_window hrun "a" 0⟩

end DecoyHistory
end Whispera
