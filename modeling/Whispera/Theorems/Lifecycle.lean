import Whispera.Theorems.Registry

/-! `Start` sets the mark that the manager is running only at its end, and `Stop` does nothing without the
mark. -/

namespace Whispera
open Table Transition

namespace Modules

def Quiet (m : Modules) : Prop := ∀ name, m.state name ≠ some .running

end Modules

namespace Registry
variable {init start : ModuleName → Bool} {m : Modules}

theorem startLoop_keeps_running (names : List ModuleName) {k : ModuleName} (hk : m.state k = some .running) :
    (startLoop init start names m).1.state k = some .running := by
  induction names generalizing m with
  | nil => exact hk
  | cons name names ih =>
    have hset : ∀ st, m.state name ≠ some .running → (m.setState name st).state k = some .running := by
      intro st hne
      have hkn : k ≠ name := fun heq => hne (heq ▸ hk)
      rw [Modules.state_setState_ne hkn, hk]
    rcases startLoop_cons_cases init start name names m with ⟨-, h⟩ | ⟨hne, -, h⟩ | ⟨hne, -, e, h | h⟩
    · rw [h]
      exact ih hk
    · rw [h]
      exact ih (hset .running hne)
    · rw [h]
      exact hk
    · rw [h]
      exact hset .error hne

theorem startLoop_quiet_iff {name : ModuleName} (names : List ModuleName) (hname : name ∈ m.keys) (hquiet : m.Quiet) :
    (startLoop init start (name :: names) m).1.Quiet ↔ m.Fails init start name := by
  rcases startLoop_cons_cases init start name names m with ⟨hst, -⟩ | ⟨-, hfails, h⟩ | ⟨-, hfails, e, h | h⟩
  · rcases hst with hst | hst
    · exact absurd hst (hquiet name)
    · obtain ⟨e, he⟩ := Option.isSome_iff_exists.mp (Modules.mem_keys_iff.mp hname)
      rw [Modules.state, he] at hst
      cases hst
  · refine iff_of_false (fun hq => ?_) hfails
    rw [h] at hq
    exact hq name (startLoop_keeps_running names (Modules.state_setState_self hname))
  · rw [h]
    exact iff_of_true hquiet hfails
  · rw [h]
    refine iff_of_true (fun k hk => ?_) hfails
    rcases eq_or_ne k name with rfl | hne
    · rw [Modules.state_setState_self hname] at hk
      cases hk
    · rw [Modules.state_setState_ne hne] at hk
      exact hquiet k hk

end Registry

theorem Modules.computeStartOrder_head {m : Modules} {visit queued order : List ModuleName} (hvisit : visit.Perm m.keys)
    (hqueued : queued.Perm m.keys)
    (h : computeStartOrder m visit queued = .ok order) : order.head? = m.roots.head? := by
  obtain ⟨-, -, hloop, -⟩ := computeStartOrder_ok hvisit hqueued h
  obtain ⟨rest, rfl, hhead⟩ := TopoSort.loop_append hloop
  exact hhead

namespace LifecycleManager
variable {l : LifecycleManager} {c : StartCall}

/-- The start fails before it has started a module: in a callback, for the dependencies, or with the first
    module. -/
def FailsAtOnce (m : Modules) (c : StartCall) : Prop :=
  c.onStart.contains false = true ∨ m.Missing ∨ m.Cyclic ∨ ∃ name, m.roots.head? = some name ∧
  m.Fails c.init c.start name

theorem ordered_step {call : Call} {l' : LifecycleManager} (h : l.registry.Ordered) (hs : l.step call = some l') :
    l'.registry.Ordered := by
  cases call with
  | register name dependencies =>
    cases hs
    exact h.register name dependencies
  | start c =>
    simp only [step] at hs
    split at hs <;> cases hs
    rename_i hv
    have hstart := h.startAll c.init c.start hv.1 hv.2
    unfold start
    split
    · exact h
    split
    · exact h
    split
    · rename_i hr
      rwa [hr] at hstart
    · rename_i hr
      rwa [hr] at hstart
  | stop stop =>
    cases hs
    unfold LifecycleManager.stop
    split
    · exact h.stopAll
    · exact h

theorem start_eq (hrun : l.running = false) (hcb : ¬ c.onStart.contains false = true) :
    l.start c = ({ registry := (l.registry.startAll c.visit c.queued c.init c.start).1,
                   running := (l.registry.startAll c.visit c.queued c.init c.start).2.isNone },
                 (l.registry.startAll c.visit c.queued c.init c.start).2.map .modules) := by
  rw [start, hrun, if_neg Bool.false_ne_true, if_neg hcb]
  rcases l.registry.startAll c.visit c.queued c.init c.start with ⟨r, none | e⟩ <;> rfl

theorem start_of_callback (hrun : l.running = false) (hcb : c.onStart.contains false = true) :
    l.start c = (l, some .callback) := by
  rw [start, hrun, if_neg Bool.false_ne_true, if_pos hcb]

theorem start_failed_running (herr : (l.start c).2 ≠ none) : (l.start c).1.running = l.running := by
  cases hrun : l.running with
  | true => rw [start, hrun, if_pos rfl]; exact hrun
  | false =>
    by_cases hcb : c.onStart.contains false = true
    · rw [start_of_callback hrun hcb]
      exact hrun
    · rw [start_eq hrun hcb] at herr ⊢
      simpa [Option.isSome_iff_ne_none] using herr

theorem start_failed_quiet_iff (hvisit : l.registry.Visits c.visit) (hqueued : l.registry.Visits c.queued)
    (hrun : l.running = false) (herr : (l.start c).2 ≠ none) :
    (l.start c).1.registry.modules.Quiet ↔ l.registry.modules.Quiet ∧ FailsAtOnce l.registry.modules c := by
  by_cases hcb : c.onStart.contains false = true
  · rw [start_of_callback hrun hcb]
    exact (and_iff_left (.inl hcb)).symm
  rw [start_eq hrun hcb] at herr ⊢
  cases horder : computeStartOrder l.registry.modules c.visit c.queued with
  | error e =>
    have hfail := (Modules.computeStartOrder_error_iff hvisit hqueued).mp ⟨e, horder⟩
    simp only [Registry.startAll, horder]
    exact (and_iff_left (.inr (hfail.elim .inl fun hc => .inr (.inl hc)))).symm
  | ok order =>
    obtain ⟨hm, hc, -, hperm, -⟩ := Modules.computeStartOrder_ok hvisit hqueued horder
    have hhead := Modules.computeStartOrder_head hvisit hqueued horder
    simp only [Registry.startAll, horder] at herr ⊢
    cases order with
    | nil => exact absurd rfl herr
    | cons name names =>
      have hname : name ∈ l.registry.modules.keys := hperm.mem_iff.mp List.mem_cons_self
      have hfails : FailsAtOnce l.registry.modules c ↔ l.registry.modules.Fails c.init c.start name := by
        constructor
        · rintro (h | h | h | ⟨k, hk, hf⟩)
          · exact absurd h hcb
          · exact absurd h hm
          · exact absurd h hc
          · obtain rfl : name = k := Option.some.inj (hhead.trans hk)
            exact hf
        · exact fun hf => .inr (.inr (.inr ⟨name, hhead.symm, hf⟩))
      rw [hfails]
      constructor
      · intro hq
        have hquiet : l.registry.modules.Quiet := fun k hk => hq k (Registry.startLoop_keeps_running _ hk)
        exact ⟨hquiet, (Registry.startLoop_quiet_iff names hname hquiet).mp hq⟩
      · exact fun h => (Registry.startLoop_quiet_iff names hname h.1).mpr h.2

/-- `Stop` after a failed `Start` leaves nothing running just if the manager was running already, or nothing
    was running and the start failed before or with the first module. -/
theorem stop_after_failed_start_iff {calls : List Call} (h : AnyRun step {} calls l)
    (hvisit : l.registry.Visits c.visit)
    (hqueued : l.registry.Visits c.queued) (herr : (l.start c).2 ≠ none) (stop : ModuleName → Bool) :
    (∀ name, ((l.start c).1.stop stop).registry.modules.state name ≠ some .running) ↔
      l.running = true ∨ (∀ name, l.registry.modules.state name ≠ some .running) ∧
      FailsAtOnce l.registry.modules c := by
  have hord : l.registry.Ordered :=
    h.invariant (I := fun l => l.registry.Ordered) (fun h _ hs => ordered_step h hs) .new
  have hmark := start_failed_running herr
  cases hrun : l.running with
  | true =>
    have hstart : l.start c = (l, some .alreadyRunning) := by rw [start, if_pos hrun]
    refine iff_of_true (fun name => ?_) (.inl rfl)
    rw [hstart, LifecycleManager.stop, if_pos hrun]
    exact hord.stopAll_not_running name
  | false =>
    rw [hrun] at hmark
    rw [LifecycleManager.stop, if_neg (by rw [hmark]; exact Bool.false_ne_true)]
    simp only [Bool.false_eq_true, false_or]
    exact start_failed_quiet_iff hvisit hqueued hrun herr

def failedCall : StartCall where
  visit := ["api".toList, "store".toList]
  queued := ["store".toList, "api".toList]
  init := fun _ => true
  start := fun name => name = "store".toList

def registerTwo : List Call := [.register "api".toList ["store".toList], .register "store".toList []]

/-- The first one is left running. -/
theorem stop_leaves_the_first_running :
    ∃ l : LifecycleManager, AnyRun step {} registerTwo l ∧ l.registry.Visits failedCall.visit ∧
      l.registry.Visits failedCall.queued ∧ (l.start failedCall).2 = some (.modules (.startFailed "api".toList)) ∧
      ((l.start failedCall).1.stop fun _ => true).registry.modules.state "store".toList = some .running :=
  AnyRun.exists_of_exec (by decide)

def failedFirst : StartCall := { failedCall with start := fun _ => false }

theorem stop_after_first_failed : ∃ l : LifecycleManager, AnyRun step {} registerTwo l ∧
      ∀ name, ((l.start failedFirst).1.stop fun _ => true).registry.modules.state name ≠ some .running := by
  refine Run.exists_of_exec
    (Q := fun l => (l.registry.Visits failedFirst.visit ∧ l.registry.Visits failedFirst.queued) ∧
    (l.start failedFirst).2 = some (.modules (.startFailed "store".toList)) ∧
    l.registry.modules.roots.head? = some "store".toList ∧ l.registry.order = []) (by decide) ?_
  rintro l hrun ⟨hv, herr, hroot, horder⟩
  have hord : l.registry.Ordered :=
    hrun.invariant (I := fun l => l.registry.Ordered) (fun h _ hs => ordered_step h hs) .new
  have hquiet : ∀ name, l.registry.modules.state name ≠ some .running := fun name h => by
    have := hord.running name h
    rw [horder] at this
    cases this
  refine (stop_after_failed_start_iff hrun hv.1 hv.2 ?_ _).mpr
    (.inr ⟨hquiet, .inr (.inr (.inr ⟨_, hroot, .inr rfl⟩))⟩)
  rw [herr]
  exact nofun

end LifecycleManager
end Whispera
