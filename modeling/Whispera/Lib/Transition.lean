import Mathlib.Data.List.Basic

/-! A label says all that the surroundings choose. `Run` collects the runs whose steps meet a condition. -/

namespace Transition
open List

variable {σ α : Type} (step : σ → α → Option σ)

/-- The runs from a state, by their labels, all of whose steps meet `P`. -/
inductive Run (P : σ → α → Prop) (s : σ) : List α → σ → Prop
  | nil : Run P s [] s
  | snoc {as : List α} {a : α} {t u : σ} : Run P s as t → P t a → step t a = some u → Run P s (as ++ [a]) u

abbrev AnyRun (s : σ) (as : List α) (t : σ) : Prop := Run step (fun _ _ => True) s as t

/-- The state at the end of the steps with the given labels, if they can be taken. -/
def exec (s : σ) : List α → Option σ
  | [] => some s
  | a :: as => (step s a).bind fun t => exec t as

variable {step} {P : σ → α → Prop} {s t u : σ} {as bs : List α}
variable {I : σ → Prop} {Q : σ → α → Prop}

theorem Run.invariant (hstep : ∀ {t a u}, I t → P t a → step t a = some u → I u) (h : Run step P s as t)
    (h0 : I s) : I t := by
  induction h with
  | nil => exact h0
  | snoc _ hp hs ih => exact hstep ih hp hs

/-- What did not hold at the start of a run and holds at its end began to hold in one of its steps. -/
theorem Run.exists_onset (h : Run step P s as t) (h0 : ¬I s) (ht : I t) :
    ∃ pre a post u v, as = pre ++ a :: post ∧ Run step P s pre u ∧ step u a = some v ∧ ¬I u ∧ I v := by
  induction h with
  | nil => exact absurd ht h0
  | snoc hrun _ hs ih =>
    rename_i as a t u _
    by_cases hI : I t
    · obtain ⟨pre, b, post, v, w, rfl, hrest⟩ := ih hI
      exact ⟨pre, b, post ++ [a], v, w, by rw [append_assoc, cons_append], hrest⟩
    · exact ⟨as, a, [], t, u, rfl, hrun, hs, hI, ht⟩

theorem Run.trans (h : Run step P s as t) (h' : Run step P t bs u) : Run step P s (as ++ bs) u := by
  induction h' with
  | nil => rwa [append_nil]
  | snoc _ hp hs ih =>
    rw [← append_assoc]
    exact ih.snoc hp hs

theorem exec_cons {a : α} (h : step s a = some t) (as : List α) : exec step s (a :: as) = exec step t as := by
  rw [exec, h, Option.bind_some]

theorem Run.of_exec {next : σ → α → Option σ} : ∀ {as : List α} {s t : σ},
    (∀ t, ∀ a ∈ as, ∀ u, next t a = some u → P t a ∧ step t a = some u) → exec next s as = some t →
    Run step P s as t := by
  intro as
  induction as with
  | nil =>
    intro s t _ h
    cases h
    exact .nil
  | cons a as ih =>
    intro s t hnext h
    rw [exec, Option.bind_eq_some_iff] at h
    obtain ⟨s', hs, h⟩ := h
    obtain ⟨hP, hstep⟩ := hnext s a mem_cons_self s' hs
    exact Run.trans (Run.nil.snoc hP hstep) (ih (fun t b hb => hnext t b (mem_cons_of_mem a hb)) h)

theorem AnyRun.exists_of_exec {Q : σ → Prop} (h : ∃ t ∈ exec step s as, Q t) : ∃ t, AnyRun step s as t ∧ Q t := by
  obtain ⟨t, ht, hQ⟩ := h
  exact ⟨t, .of_exec (fun _ _ _ _ hs => ⟨trivial, hs⟩) ht, hQ⟩

def checked (step : σ → α → Option σ) (P : σ → α → Prop) [∀ t a, Decidable (P t a)] (s : σ) (a : α) : Option σ :=
  if P s a then step s a else none

/-- What the state at the end is found to be by evaluation, and what follows from it for the end of a run. -/
theorem Run.exists_of_exec [∀ t a, Decidable (P t a)] {Q R : σ → Prop} (h : ∃ t ∈ exec (checked step P) s as, Q t)
    (hR : ∀ t, Run step P s as t → Q t → R t) : ∃ t, Run step P s as t ∧ R t := by
  obtain ⟨t, ht, hQ⟩ := h
  have hrun : Run step P s as t := by
    refine .of_exec (fun t a _ u hs => ?_) ht
    rw [checked] at hs
    split at hs
    · exact ⟨‹_›, hs⟩
    · cases hs
  exact ⟨t, hrun, hR t hrun hQ⟩

theorem Run.mono (hPQ : ∀ t a, P t a → Q t a) (h : Run step P s as t) : Run step Q s as t := by
  induction h with
  | nil => exact .nil
  | snoc _ hp hs ih => exact ih.snoc (hPQ _ _ hp) hs

theorem Run.nil_inv (h : Run step P s [] u) : s = u := by
  generalize hbs : ([] : List α) = bs at h
  cases h with
  | nil => rfl
  | snoc _ _ _ => exact absurd hbs.symm (append_ne_nil_of_right_ne_nil _ (cons_ne_nil _ _))

theorem Run.snoc_inv {a : α} (h : Run step P s (as ++ [a]) u) : ∃ t, Run step P s as t ∧ P t a ∧ step t a = some u := by
  generalize hbs : as ++ [a] = bs at h
  cases h with
  | nil => exact absurd hbs (append_ne_nil_of_right_ne_nil _ (cons_ne_nil _ _))
  | snoc hrun hp hs =>
    obtain ⟨rfl, hab⟩ := append_inj' hbs rfl
    cases hab
    exact ⟨_, hrun, hp, hs⟩

theorem Run.det (h : Run step P s as t) (h' : Run step Q s as u) : t = u := by
  induction h generalizing u with
  | nil => exact h'.nil_inv
  | snoc _ _ hs ih =>
    obtain ⟨t', hrun', -, hs'⟩ := h'.snoc_inv
    obtain rfl := ih hrun'
    exact Option.some.inj (hs.symm.trans hs')

theorem snoc_eq_append_cons {l pre post : List α} {x y : α} (h : l ++ [x] = pre ++ y :: post) :
    (l = pre ∧ x = y) ∨ ∃ post', l = pre ++ y :: post' := by
  rcases eq_nil_or_concat post with rfl | ⟨post', z, rfl⟩
  · obtain ⟨hl, hx⟩ := append_inj' h rfl
    exact .inl ⟨hl, singleton_inj.mp hx⟩
  · rw [concat_eq_append, ← cons_append, ← append_assoc] at h
    exact .inr ⟨post', (append_inj' h rfl).1⟩

/-- What one of the steps of a run brings about, and every step keeps, holds at its end. -/
theorem Run.invariant_after {a : α} {cs : List α} (h : Run step P s as t) (hsplit : as = bs ++ a :: cs)
    (hpre : Run step Q s bs u)
    (hbegin : ∀ {v}, step u a = some v → I v) (hstep : ∀ {t a u}, I t → P t a → step t a = some u → I u) : I t := by
  induction h generalizing cs with
  | nil => exact absurd hsplit.symm (append_ne_nil_of_right_ne_nil _ (cons_ne_nil _ _))
  | snoc hrun hp hs ih =>
    rcases snoc_eq_append_cons hsplit with ⟨rfl, rfl⟩ | ⟨cs', hsplit⟩
    · obtain rfl := hrun.det hpre
      exact hbegin hs
    · exact hstep (ih hsplit) hp hs

/-- If the steps that keep `I` are those that meet `Q`, then `I` holds all along a run exactly when all its
    steps meet `Q`. -/
theorem Run.always_iff (hstep : ∀ {t a u}, I t → step t a = some u → (I u ↔ Q t a)) (h : AnyRun step s as t)
    (h0 : I s) :
    (∀ bs u, bs <+: as → AnyRun step s bs u → I u) ↔ Run step Q s as t := by
  constructor
  · intro hall
    induction h with
    | nil => exact .nil
    | snoc hrun _ hs ih =>
      have hI := hall _ _ (prefix_append _ _) hrun
      have hI' := hall _ _ (prefix_refl _) (hrun.snoc trivial hs)
      exact (ih fun bs u hbs hu => hall bs u (hbs.trans (prefix_append _ _)) hu).snoc ((hstep hI hs).mp hI') hs
  · intro hQ bs u hbs hu
    induction hQ generalizing bs u with
    | nil =>
      obtain rfl := prefix_nil.mp hbs
      obtain rfl := hu.nil_inv
      exact h0
    | snoc hrun hq hs ih =>
      rcases prefix_concat_iff.mp hbs with rfl | hbs
      · obtain ⟨t', hrun', -, hs'⟩ := hu.snoc_inv
        obtain rfl := hrun.det hrun'
        exact (hstep (ih (hrun.mono fun _ _ _ => trivial) _ _ (prefix_refl _) hrun') hs').mpr hq
      · exact ih (hrun.mono fun _ _ _ => trivial) bs u hbs hu

/-- If the counted steps lower a number that every step keeps, it bounds the counted steps of a run. -/
theorem Run.count_le {W : σ → Nat → Prop} (counted : α → Bool)
    (hstep : ∀ {t a u n}, W t n → P t a → step t a = some u → ∃ m, W u m ∧ m + (if counted a then 1 else 0) ≤ n)
    (h : Run step P s as t) {n : Nat} (h0 : W s n) : ∃ m, W t m ∧ m + as.countP counted ≤ n := by
  induction h with
  | nil => exact ⟨n, h0, Nat.le_refl _⟩
  | snoc _ hp hs ih =>
    rename_i as a t u _
    obtain ⟨m, hm, hle⟩ := ih
    obtain ⟨m', hm', hle'⟩ := hstep hm hp hs
    refine ⟨m', hm', ?_⟩
    rw [countP_append, countP_singleton]
    omega

theorem Run.constant_iff {m : σ → Nat} (hI : ∀ {t a u}, I t → step t a = some u → I u)
    (hstep : ∀ {t a u}, I t → step t a = some u → m u ≤ m t ∧ (m u = m t ↔ Q t a))
    (h : AnyRun step s as t) (h0 : I s) : m t ≤ m s ∧ (m t = m s ↔ Run step Q s as t) := by
  have hforth : m t ≤ m s ∧ (m t = m s → Run step Q s as t) := by
    induction h with
    | nil => exact ⟨Nat.le_refl _, fun _ => .nil⟩
    | snoc hrun _ hs ih =>
      obtain ⟨hle, hrun'⟩ := ih
      obtain ⟨hle', hiff⟩ := hstep (hrun.invariant (fun h _ hs => hI h hs) h0) hs
      exact ⟨Nat.le_trans hle' hle, fun heq => (hrun' (by omega)).snoc (hiff.mp (by omega)) hs⟩
  have hback : Run step Q s as t → m t = m s := fun hrun =>
    (hrun.invariant (I := fun u => I u ∧ m u = m s)
      (fun hu hq hs => ⟨hI hu.1 hs, ((hstep hu.1 hs).2.mpr hq).trans hu.2⟩) ⟨h0, rfl⟩).2
  exact ⟨hforth.1, hforth.2, hback⟩

end Transition
