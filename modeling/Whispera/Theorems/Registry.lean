import Whispera.Lib.Transition
import Whispera.Registry

/-! `computeStartOrder` is Kahn's algorithm. The lists of dependents and the first queue are sorted, so the
order does not depend on the visits. -/

namespace Whispera
open List Option Table Transition

namespace Modules

def DependsOn (m : Modules) (name dep : ModuleName) : Prop := dep ∈ m.dependencies name

def Missing (m : Modules) : Prop := ∃ name dep, m.DependsOn name dep ∧ m.lookup dep = none

def Cyclic (m : Modules) : Prop := ∃ name, Relation.TransGen m.DependsOn name name

section
variable {m : Modules} {name dep : ModuleName}

theorem mem_keys_iff : name ∈ m.keys ↔ (m.lookup name).isSome := by
  rw [AList.lookup_isSome, AList.mem_keys]

theorem dependencies_of_notMem (h : name ∉ m.keys) : m.dependencies name = [] := by
  rw [mem_keys_iff, Bool.not_eq_true, isSome_eq_false_iff, isNone_iff_eq_none] at h
  rw [dependencies, h, map_none, getD_none]

theorem DependsOn.mem_keys (h : m.DependsOn name dep) : name ∈ m.keys := by
  by_contra hn
  rw [DependsOn, dependencies_of_notMem hn] at h
  cases h

theorem mem_keys_of_not_missing (h : ¬ m.Missing) (hd : m.DependsOn name dep) : dep ∈ m.keys := by
  by_contra hn
  rw [mem_keys_iff, Bool.not_eq_true, isSome_eq_false_iff, isNone_iff_eq_none] at hn
  exact h ⟨name, dep, hd, hn⟩

end
end Modules

namespace StartGraph
variable {m : Modules} {g : StartGraph}

theorem addDependency_ok {dep : ModuleName} (h : dep ∈ m.keys) (name : ModuleName) :
    addDependency m name g dep = .ok { inDegree := Function.update g.inDegree name (g.inDegree name + 1),
                                       deps := Function.update g.deps dep (g.deps dep ++ [name]) } := by
  rw [addDependency, if_pos (Modules.mem_keys_iff.mp h)]

theorem addDependency_error {dep : ModuleName} (h : dep ∉ m.keys) (name : ModuleName) :
    addDependency m name g dep = .error (.unregistered name dep) := by
  rw [addDependency, if_neg (mt Modules.mem_keys_iff.mpr h)]

variable {ds : List ModuleName}

theorem foldlM_addDependency_ok (name : ModuleName) (h : ∀ d ∈ ds, d ∈ m.keys) (g : StartGraph) :
    ∃ g', ds.foldlM (addDependency m name) g = .ok g' ∧
      (∀ x, g'.inDegree x = g.inDegree x + if x = name then (ds.length : Int) else 0) ∧
      ∀ x y, (g'.deps y).count x = (g.deps y).count x + if x = name then ds.count y else 0 := by
  induction ds generalizing g with
  | nil => exact ⟨g, rfl, fun x => by simp, fun x y => by simp⟩
  | cons d ds ih =>
    obtain ⟨g', hg', hdeg, hdeps⟩ := ih (fun d' hd' => h d' (mem_cons_of_mem d hd'))
      { inDegree := Function.update g.inDegree name (g.inDegree
        name + 1), deps := Function.update g.deps d (g.deps d ++ [name]) }
    refine ⟨g', ?_, fun x => ?_, fun x y => ?_⟩
    · rw [foldlM_cons, addDependency_ok (h d mem_cons_self)]
      exact hg'
    · rw [hdeg]
      rcases eq_or_ne x name with rfl | hne
      · simp only [Function.update_self, if_true, length_cons]
        omega
      · simp [hne]
    · rw [hdeps]
      rcases eq_or_ne y d with rfl | hyd
      · rcases eq_or_ne x name with rfl | hne
        · simp only [Function.update_self, count_append, if_true, count_cons_self, count_nil]
          omega
        · simp [hne, hne.symm]
      · simp [hyd, hyd.symm]

theorem foldlM_addDependency_error (name : ModuleName) (h : ∃ d ∈ ds, d ∉ m.keys) (g : StartGraph) :
    ∃ e, ds.foldlM (addDependency m name) g = .error e := by
  induction ds generalizing g with
  | nil =>
    obtain ⟨d, hd, -⟩ := h
    cases hd
  | cons d ds ih =>
    rw [foldlM_cons]
    by_cases hd : d ∈ m.keys
    · rw [addDependency_ok hd]
      refine ih ?_ _
      obtain ⟨d', hd', hn⟩ := h
      exact ⟨d', (mem_cons.mp hd').resolve_left fun heq => hn (heq ▸ hd), hn⟩
    · rw [addDependency_error hd]
      exact ⟨_, rfl⟩

theorem foldlM_addModule_ok {visit : List ModuleName} (h : ∀ name ∈ visit, ∀ d ∈ m.dependencies name, d ∈ m.keys)
    (hnd : visit.Nodup) (g : StartGraph) :
    ∃ g', visit.foldlM (addModule m) g = .ok g' ∧
      (∀ x, g'.inDegree x = g.inDegree x + if x ∈ visit then ((m.dependencies x).length : Int) else 0) ∧
      ∀ x y, (g'.deps y).count x = (g.deps y).count x + if x ∈ visit then (m.dependencies x).count y else 0 := by
  induction visit generalizing g with
  | nil => exact ⟨g, rfl, fun x => by simp, fun x y => by simp⟩
  | cons name visit ih =>
    obtain ⟨hname, hnd⟩ := nodup_cons.mp hnd
    obtain ⟨g₁, hg₁, hdeg₁, hdeps₁⟩ := foldlM_addDependency_ok name (h name mem_cons_self) g
    obtain ⟨g', hg', hdeg, hdeps⟩ := ih (fun n hn => h n (mem_cons_of_mem name hn)) hnd g₁
    refine ⟨g', ?_, fun x => ?_, fun x y => ?_⟩
    · rw [foldlM_cons, addModule, hg₁]
      exact hg'
    · rw [hdeg, hdeg₁]
      rcases eq_or_ne x name with rfl | hne
      · simp [hname]
      · simp [hne]
    · rw [hdeps, hdeps₁]
      rcases eq_or_ne x name with rfl | hne
      · simp [hname]
      · simp [hne]

theorem foldlM_addModule_error {visit : List ModuleName} (h : ∃ name ∈ visit, ∃ d ∈ m.dependencies name, d ∉ m.keys)
    (g : StartGraph) : ∃ e, visit.foldlM (addModule m) g = .error e := by
  induction visit generalizing g with
  | nil =>
    obtain ⟨name, hname, -⟩ := h
    cases hname
  | cons name visit ih =>
    rw [foldlM_cons, addModule]
    by_cases hd : ∃ d ∈ m.dependencies name, d ∉ m.keys
    · obtain ⟨e, he⟩ := foldlM_addDependency_error name hd g
      rw [he]
      exact ⟨e, rfl⟩
    · push Not at hd
      obtain ⟨g₁, hg₁, -⟩ := foldlM_addDependency_ok name hd g
      rw [hg₁]
      refine ih ?_ g₁
      obtain ⟨n, hn, d, hdn, hdk⟩ := h
      exact ⟨n, (mem_cons.mp hn).resolve_left fun heq => hdk (hd d (heq ▸ hdn)), d, hdn, hdk⟩

theorem sorted_congr {l l' : List ModuleName} (h : l.Perm l') : sorted l = sorted l' :=
  (((perm_insertionSort _ l).trans h).trans (perm_insertionSort _ l').symm).eq_of_pairwise'
    (pairwise_insertionSort _ l) (pairwise_insertionSort _ l')

theorem count_sorted (l : List ModuleName) (x : ModuleName) : (sorted l).count x = l.count x :=
  (perm_insertionSort _ l).count_eq x

end StartGraph

namespace Modules
variable {m : Modules} {visit queued : List ModuleName}

def dependents (m : Modules) (dep : ModuleName) : List ModuleName :=
  StartGraph.sorted (m.keys.flatMap fun name => replicate ((m.dependencies name).count dep) name)

def roots (m : Modules) : List ModuleName := StartGraph.sorted (m.keys.filter fun name => m.dependencies name = [])

theorem count_flatMap_replicate {l : List ModuleName} (hl : l.Nodup) (f : ModuleName → Nat) (x : ModuleName) :
    (l.flatMap fun name => replicate (f name) name).count x = if x ∈ l then f x else 0 := by
  induction l with
  | nil => rfl
  | cons a l ih =>
    obtain ⟨ha, hl⟩ := nodup_cons.mp hl
    rw [flatMap_cons, count_append, ih hl, count_replicate]
    rcases eq_or_ne x a with rfl | hne
    · simp [ha]
    · simp [hne, hne.symm]

theorem count_dependents (m : Modules) (x dep : ModuleName) :
    (m.dependents dep).count x = (m.dependencies x).count dep := by
  rw [dependents, StartGraph.count_sorted, count_flatMap_replicate m.keys_nodup]
  split
  · rfl
  · rename_i h
    rw [dependencies_of_notMem h, count_nil]

theorem mem_dependents {x dep : ModuleName} : x ∈ m.dependents dep ↔ m.DependsOn x dep := by
  rw [← count_pos_iff, count_dependents, count_pos_iff, DependsOn]

variable {order : List ModuleName}

theorem computeStartOrder_eq (hvisit : visit.Perm m.keys) (hqueued : queued.Perm m.keys) (hm : ¬ m.Missing)
    (hloop : TopoSort.loop m.dependents (card m) m.roots (fun x => ((m.dependencies x).length : Int)) [] = some order) :
    computeStartOrder m visit queued = if order.length = card m then .ok order else .error .circular := by
  obtain ⟨g, hg, hdeg, hdeps⟩ := StartGraph.foldlM_addModule_ok (m := m)
    (fun name _ d hd => mem_keys_of_not_missing hm hd) (hvisit.nodup_iff.mpr m.keys_nodup) .empty
  have hin : g.inDegree = fun x => ((m.dependencies x).length : Int) := by
    funext x
    rw [hdeg, StartGraph.empty, Int.zero_add]
    split
    · rfl
    · rename_i h
      rw [dependencies_of_notMem (mt hvisit.mem_iff.mpr h)]
      rfl
  have hwait : (fun name => StartGraph.sorted (g.deps name)) = m.dependents := by
    funext y
    refine StartGraph.sorted_congr (perm_iff_count.mpr fun x => ?_)
    rw [hdeps, count_flatMap_replicate m.keys_nodup]
    simp [StartGraph.empty, hvisit.mem_iff]
  have hqueue : StartGraph.sorted (queued.filter fun name => g.inDegree name = 0) = m.roots := by
    rw [hin]
    refine StartGraph.sorted_congr ((hqueued.filter _).trans (Perm.of_eq (filter_congr fun x _ => ?_)))
    simp
  rw [computeStartOrder, hg]
  simp only [hwait, hqueue]
  rw [hin, hloop]

theorem cyclic_iff : m.Cyclic ↔ ∃ x ∈ m.keys, Relation.TransGen (fun y x => x ∈ m.dependents y) x x := by
  have hswap : ∀ {x}, Relation.TransGen (fun y x => x ∈ m.dependents y) x x ↔ Relation.TransGen m.DependsOn x x := by
    intro x
    rw [← Relation.transGen_swap]
    simp only [mem_dependents, Function.swap_def]
  constructor
  · rintro ⟨x, hx⟩
    exact ⟨x, (Relation.TransGen.head'_iff.mp hx).choose_spec.1.mem_keys, hswap.mpr hx⟩
  · rintro ⟨x, -, hx⟩
    exact ⟨x, hswap.mp hx⟩

theorem loop_spec (hm : ¬ m.Missing) :
    ∃ order, TopoSort.loop m.dependents (card m) m.roots (fun x => ((m.dependencies x).length : Int)) [] = some order ∧
      (order.length = card m ↔ ¬ m.Cyclic) ∧
      (order.length = card m → order.Perm m.keys ∧ TopoSort.Topological m.dependents m.keys order) := by
  have hcard : m.keys.length = card m := by rw [card, AList.keys, List.keys, length_map]
  have hw : ∀ y ∈ m.keys, ∀ x ∈ m.dependents y, x ∈ m.keys := fun y _ x hx => (mem_dependents.mp hx).mem_keys
  have hdegree : ∀ x, ((m.dependencies x).length : Int) = (m.keys.flatMap m.dependents).count x := fun x => by
    rw [TopoSort.count_flatMap_eq_length m.keys_nodup (fun y hy => mem_keys_of_not_missing hm hy)
      fun y _ => count_dependents m x y]
  have hqueue : m.roots.Perm (m.keys.filter fun x => ((m.dependencies x).length : Int) = 0) := by
    refine (perm_insertionSort _ _).trans (Perm.of_eq (filter_congr fun x _ => ?_))
    simp
  obtain ⟨order, hloop, hiff, horder⟩ := TopoSort.loop_spec m.keys_nodup hw hdegree hqueue
  rw [hcard] at hloop hiff horder
  refine ⟨order, hloop, ?_, horder⟩
  rw [hiff, cyclic_iff]
  push Not
  rfl

theorem computeStartOrder_error_iff (hvisit : visit.Perm m.keys) (hqueued : queued.Perm m.keys) :
    (∃ e, computeStartOrder m visit queued = .error e) ↔ m.Missing ∨ m.Cyclic := by
  by_cases hm : m.Missing
  · obtain ⟨name, dep, hd, hnone⟩ := hm
    have hdep : dep ∉ m.keys := by rw [mem_keys_iff, hnone]; exact Bool.false_ne_true
    obtain ⟨e, he⟩ := StartGraph.foldlM_addModule_error (m := m)
      ⟨name, hvisit.mem_iff.mpr hd.mem_keys, dep, hd, hdep⟩ .empty
    refine iff_of_true ⟨e, ?_⟩ (.inl ⟨name, dep, hd, hnone⟩)
    rw [computeStartOrder, he]
  · obtain ⟨order, hloop, hiff, -⟩ := loop_spec hm
    rw [computeStartOrder_eq hvisit hqueued hm hloop]
    by_cases hlen : order.length = card m
    · simp [hlen, hm, hiff.mp hlen]
    · simp [hlen, not_not.mp (mt hiff.mpr hlen)]

theorem computeStartOrder_ok (hvisit : visit.Perm m.keys) (hqueued : queued.Perm m.keys)
    (h : computeStartOrder m visit queued = .ok order) :
    ¬ m.Missing ∧ ¬ m.Cyclic ∧
      TopoSort.loop m.dependents (card m) m.roots (fun x => ((m.dependencies x).length : Int)) [] = some order ∧
      order.Perm m.keys ∧ ∀ name dep, m.DependsOn name dep → [dep, name].Sublist order := by
  have hno : ¬ (m.Missing ∨ m.Cyclic) := fun herr => by
    obtain ⟨e, he⟩ := (computeStartOrder_error_iff hvisit hqueued).mpr herr
    rw [h] at he
    cases he
  obtain ⟨hm, hc⟩ := not_or.mp hno
  obtain ⟨order', hloop, hiff, horder⟩ := loop_spec hm
  rw [computeStartOrder_eq hvisit hqueued hm hloop, if_pos (hiff.mpr hc)] at h
  obtain rfl : order' = order := Except.ok.inj h
  obtain ⟨hperm, htop⟩ := horder (hiff.mpr hc)
  refine ⟨hm, hc, hloop, hperm, fun name dep hd => ?_⟩
  exact htop.sublist (hperm.mem_iff.mpr hd.mem_keys) (mem_keys_of_not_missing hm hd) (mem_dependents.mpr hd)

theorem computeStartOrder_congr {order visit' queued' : List ModuleName} (hvisit : visit.Perm m.keys)
    (hqueued : queued.Perm m.keys) (hvisit' : visit'.Perm m.keys) (hqueued' : queued'.Perm m.keys)
    (h : computeStartOrder m visit queued = .ok order) : computeStartOrder m visit' queued' = .ok order := by
  obtain ⟨hm, -, hloop, -⟩ := computeStartOrder_ok hvisit hqueued h
  rw [computeStartOrder_eq hvisit' hqueued' hm hloop, ← computeStartOrder_eq hvisit hqueued hm hloop, h]

def SameGraph (m m' : Modules) : Prop :=
  ∀ name, (m'.lookup name).map (·.dependencies) = (m.lookup name).map (·.dependencies)

section
variable {m' : Modules} {name : ModuleName}

theorem SameGraph.refl (m : Modules) : SameGraph m m := fun _ => rfl

theorem SameGraph.trans {m'' : Modules} (h : SameGraph m m') (h' : SameGraph m' m'') : SameGraph m m'' :=
  fun name => (h' name).trans (h name)

theorem SameGraph.dependencies (h : SameGraph m m') (name : ModuleName) :
    m'.dependencies name = m.dependencies name := by
  rw [Modules.dependencies, Modules.dependencies, h name]

theorem SameGraph.mem_keys (h : SameGraph m m') : name ∈ m'.keys ↔ name ∈ m.keys := by
  have := congrArg Option.isSome (h name)
  rw [isSome_map, isSome_map] at this
  rw [mem_keys_iff, mem_keys_iff, this]

theorem sameGraph_setState (m : Modules) (name : ModuleName) (st : ModuleState) : SameGraph m (m.setState name st) := by
  intro k
  rw [setState]
  split
  · rename_i e he
    rcases eq_or_ne k name with rfl | hne
    · rw [AList.lookup_insert, he]
      rfl
    · rw [AList.lookup_insert_ne hne]
  · rfl

variable {st : ModuleState}

theorem state_setState_self (h : name ∈ m.keys) : (m.setState name st).state name = some st := by
  obtain ⟨e, he⟩ := isSome_iff_exists.mp (mem_keys_iff.mp h)
  rw [setState, he, state, AList.lookup_insert]
  rfl

theorem state_setState_ne {k : ModuleName} (hne : k ≠ name) (st : ModuleState) :
    (m.setState name st).state k = m.state k := by
  rw [setState]
  split
  · rw [state, state, AList.lookup_insert_ne hne]
  · rfl

theorem mem_keys_of_state (h : m.state name = some st) : name ∈ m.keys := by
  obtain ⟨e, he, -⟩ := map_eq_some_iff.mp h
  rw [mem_keys_iff, he]
  rfl

end

def Fails (m : Modules) (init start : ModuleName → Bool) (name : ModuleName) : Prop :=
  (m.state name = some .uninitialized ∧ init name = false) ∨ start name = false

end Modules

namespace Registry
variable {stop : ModuleName → Bool} {r : Registry}
variable (init start : ModuleName → Bool) (names : List ModuleName)

theorem startLoop_cons_cases (name : ModuleName) (names : List ModuleName) (m : Modules) :
    ((m.state name = some .running ∨ m.state name = none) ∧
      startLoop init start (name :: names) m = startLoop init start names m) ∨
    (m.state name ≠ some .running ∧ ¬ m.Fails init start name ∧
      startLoop init start (name :: names) m = startLoop init start names (m.setState name .running)) ∨
    (m.state name ≠ some .running ∧ m.Fails init start name ∧ ∃ e,
      startLoop init start (name :: names) m = (m, some e) ∨
        startLoop init start (name :: names) m = (m.setState name .error, some e)) := by
  rw [startLoop]
  split
  · rename_i hst
    exact .inl ⟨.inl hst, rfl⟩
  · rename_i hst
    have hne : m.state name ≠ some .running := by simp [hst]
    cases hi : init name with
    | false => exact .inr (.inr ⟨hne, .inl ⟨hst, hi⟩, _, .inl rfl⟩)
    | true =>
      cases hs : start name with
      | false => exact .inr (.inr ⟨hne, .inr hs, _, .inr rfl⟩)
      | true => exact .inr (.inl ⟨hne, by simp [Modules.Fails, hi, hs], rfl⟩)
  · rename_i st hrun huninit hst
    have hne : m.state name ≠ some .running := fun h => hrun (some.inj (hst.symm.trans h))
    have hinit : m.state name ≠ some .uninitialized := fun h => huninit (some.inj (hst.symm.trans h))
    cases hs : start name with
    | false => exact .inr (.inr ⟨hne, .inr hs, _, .inr rfl⟩)
    | true => exact .inr (.inl ⟨hne, by simp [Modules.Fails, hinit, hs], rfl⟩)
  · rename_i hst
    exact .inl ⟨.inr hst, rfl⟩

theorem startLoop_sameGraph (m : Modules) : m.SameGraph (startLoop init start names m).1 := by
  induction names generalizing m with
  | nil => exact .refl m
  | cons name names ih =>
    rcases startLoop_cons_cases init start name names m with ⟨-, h⟩ | ⟨-, -, h⟩ | ⟨-, -, e, h | h⟩
    · rw [h]
      exact ih m
    · rw [h]
      exact (m.sameGraph_setState name .running).trans (ih _)
    · rw [h]
      exact .refl m
    · rw [h]
      exact m.sameGraph_setState name .error

theorem stopLoop_sameGraph (stop : ModuleName → Bool) (names : List ModuleName) (m : Modules) :
    m.SameGraph (stopLoop stop names m).1 := by
  induction names generalizing m with
  | nil => exact .refl m
  | cons name names ih =>
    rw [stopLoop]
    split
    · exact (m.sameGraph_setState name _).trans (ih _)
    · exact ih m

theorem stopLoop_spec (stop : ModuleName → Bool) {names : List ModuleName} (hnd : names.Nodup) (m : Modules) :
    (stopLoop stop names m).2 = names.filter (fun name => m.state name = some .running) ∧
      ∀ name, (stopLoop stop names m).1.state name = some .running → m.state name = some .running ∧ name ∉ names := by
  induction names generalizing m with
  | nil => exact ⟨rfl, fun name h => ⟨h, not_mem_nil⟩⟩
  | cons a names ih =>
    obtain ⟨ha, hnd⟩ := nodup_cons.mp hnd
    rw [stopLoop]
    split
    · rename_i hrun
      obtain ⟨hcalls, hleft⟩ := ih hnd (m.setState a (if stop a then .stopped else .error))
      constructor
      · rw [filter_cons_of_pos (by simpa using hrun)]
        refine congrArg (a :: ·) (hcalls.trans (filter_congr fun name hname => ?_))
        have hne : name ≠ a := fun heq => ha (heq ▸ hname)
        rw [Modules.state_setState_ne hne]
      · intro name h
        obtain ⟨hstate, hname⟩ := hleft name h
        rcases eq_or_ne name a with rfl | hne
        · rw [Modules.state_setState_self (Modules.mem_keys_of_state hrun)] at hstate
          split at hstate <;> cases hstate
        · rw [Modules.state_setState_ne hne] at hstate
          exact ⟨hstate, not_mem_cons_of_ne_of_not_mem hne hname⟩
    · rename_i hrun
      obtain ⟨hcalls, hleft⟩ := ih hnd m
      refine ⟨by rw [hcalls, filter_cons_of_neg (by simpa using hrun)], fun name h => ?_⟩
      obtain ⟨hstate, hname⟩ := hleft name h
      exact ⟨hstate, not_mem_cons_of_ne_of_not_mem (fun heq => hrun (heq ▸ hstate)) hname⟩

/-- The order has all running modules, after what they depend on. -/
structure Ordered (r : Registry) : Prop where
  nodup : r.order.Nodup
  registered : ∀ name ∈ r.order, name ∈ r.modules.keys
  running : ∀ name, r.modules.state name = some .running → name ∈ r.order
  before : ∀ name ∈ r.order, ∀ dep, r.modules.DependsOn name dep → [dep, name].Sublist r.order

theorem Ordered.new : Ordered {} where
  nodup := nodup_nil
  registered := nofun
  running := nofun
  before := nofun

section
variable (h : r.Ordered)
include h

theorem Ordered.register (name : ModuleName) (dependencies : List ModuleName) :
    (r.register name dependencies).1.Ordered := by
  unfold Registry.register
  split
  · exact h
  split
  · exact h
  rename_i hnew
  have hne : ∀ k ∈ r.order, k ≠ name := fun k hk heq => hnew (heq ▸ Modules.mem_keys_iff.mp (h.registered k hk))
  refine ⟨h.nodup, fun k hk => ?_, fun k hk => ?_, fun k hk dep hd => ?_⟩
  · rw [Modules.mem_keys_iff, AList.lookup_insert_ne (hne k hk)]
    exact Modules.mem_keys_iff.mp (h.registered k hk)
  · rw [Modules.state] at hk
    rcases eq_or_ne k name with rfl | hkn
    · rw [AList.lookup_insert] at hk
      cases hk
    · rw [AList.lookup_insert_ne hkn] at hk
      exact h.running k hk
  · rw [Modules.DependsOn, Modules.dependencies, AList.lookup_insert_ne (hne k hk)] at hd
    exact h.before k hk dep hd

theorem Ordered.startAll (init start : ModuleName → Bool) {visit queued : List ModuleName}
    (hvisit : r.Visits visit) (hqueued : r.Visits queued) :
    (r.startAll visit queued init start).1.Ordered := by
  unfold Registry.startAll
  split
  · exact h
  rename_i order horder
  obtain ⟨-, -, -, hperm, hbefore⟩ := Modules.computeStartOrder_ok hvisit hqueued horder
  have hsame := startLoop_sameGraph init start order r.modules
  refine ⟨hperm.nodup_iff.mpr r.modules.keys_nodup, fun k hk => ?_, fun k hk => ?_, fun k hk dep hd => ?_⟩
  · exact hsame.mem_keys.mpr (hperm.mem_iff.mp hk)
  · exact hperm.mem_iff.mpr (hsame.mem_keys.mp (Modules.mem_keys_of_state hk))
  · rw [Modules.DependsOn, hsame.dependencies] at hd
    exact hbefore k dep hd

theorem Ordered.stopAll : (r.stopAll stop).1.Ordered := by
  have hsame := stopLoop_sameGraph stop r.order.reverse r.modules
  have hspec := stopLoop_spec stop (nodup_reverse.mpr h.nodup) r.modules
  refine ⟨h.nodup, fun k hk => hsame.mem_keys.mpr (h.registered k hk),
    fun k hk => h.running k (hspec.2 k hk).1, fun k hk dep hd => ?_⟩
  have hd' : dep ∈ r.modules.dependencies k := hsame.dependencies k ▸ hd
  exact h.before k hk dep hd'

theorem Ordered.stopAll_not_running (name : ModuleName) : (r.stopAll stop).1.modules.state name ≠ some .running := by
  intro hrun
  obtain ⟨hbefore, hname⟩ := (stopLoop_spec stop (nodup_reverse.mpr h.nodup) r.modules).2 name hrun
  exact hname (mem_reverse.mpr (h.running name hbefore))

theorem ordered_step {c : Call} {r' : Registry} (hs : r.step c = some r') : r'.Ordered := by
  cases c with
  | register name dependencies =>
    cases hs
    exact h.register name dependencies
  | startAll visit queued init start =>
    simp only [step] at hs
    split at hs <;> cases hs
    rename_i hv
    exact h.startAll init start hv.1 hv.2
  | stopAll stop =>
    cases hs
    exact h.stopAll

theorem Ordered.stopped : (∀ name, name ∈ (r.stopAll stop).2 ↔ r.modules.state name = some .running) ∧
      ∀ name dep, name ∈ (r.stopAll stop).2 → dep ∈ (r.stopAll stop).2 → r.modules.DependsOn name dep →
        [name, dep].Sublist (r.stopAll stop).2 := by
  have hspec : (r.stopAll stop).2 = r.order.reverse.filter (fun name => r.modules.state name = some .running) :=
    (stopLoop_spec stop (nodup_reverse.mpr h.nodup) r.modules).1
  rw [hspec]
  constructor
  · intro name
    rw [mem_filter, mem_reverse, decide_eq_true_iff]
    exact and_iff_right_of_imp (h.running name)
  · intro name dep hname hdep hd
    obtain ⟨hno, hnr⟩ := mem_filter.mp hname
    obtain ⟨-, hdr⟩ := mem_filter.mp hdep
    have hrev : [name, dep].Sublist r.order.reverse := (h.before name (mem_reverse.mp hno) dep hd).reverse
    have hfilter := hrev.filter (fun name => r.modules.state name = some .running)
    simpa only [filter_cons, hnr, hdr, if_true, filter_nil] using hfilter

end

/-- The order exists just if every dependency is registered and there is no cycle; then it has each module
    once and after its dependencies, the same for all visits. `StopAll` stops each running module before those
    that it depends on. -/
theorem start_and_stop_order :
    (∀ (m : Modules) (visit queued : List ModuleName), visit.Perm m.keys → queued.Perm m.keys →
      ((∃ e, computeStartOrder m visit queued = .error e) ↔ m.Missing ∨ m.Cyclic) ∧
      ∀ order, computeStartOrder m visit queued = .ok order →
        order.Perm m.keys ∧ (∀ name dep, m.DependsOn name dep → [dep, name].Sublist order) ∧
        ∀ visit' queued' : List ModuleName, visit'.Perm m.keys → queued'.Perm m.keys →
          computeStartOrder m visit' queued' = .ok order) ∧
    ∀ (calls : List Call) (r : Registry), AnyRun step {} calls r → ∀ stop : ModuleName → Bool,
      (r.stopAll stop).2.Nodup ∧ (∀ name, name ∈ (r.stopAll stop).2 ↔ r.modules.state name = some .running) ∧
      ∀ name dep, name ∈ (r.stopAll stop).2 → dep ∈ (r.stopAll stop).2 → r.modules.DependsOn name dep →
        [name, dep].Sublist (r.stopAll stop).2 := by
  refine ⟨fun m visit queued hvisit hqueued =>
    ⟨Modules.computeStartOrder_error_iff hvisit hqueued, fun order horder => ?_⟩,
    fun calls r hrun stop => ?_⟩
  · obtain ⟨-, -, -, hperm, hbefore⟩ := Modules.computeStartOrder_ok hvisit hqueued horder
    exact ⟨hperm, hbefore, fun visit' queued' hv hq => Modules.computeStartOrder_congr hvisit hqueued hv hq horder⟩
  · have hord : r.Ordered := hrun.invariant (fun h _ hs => ordered_step h hs) .new
    have hspec := (stopLoop_spec stop (nodup_reverse.mpr hord.nodup) r.modules).1
    refine ⟨?_, hord.stopped⟩
    show (stopLoop stop r.order.reverse r.modules).2.Nodup
    rw [hspec]
    exact (nodup_reverse.mpr hord.nodup).filter _

def twoModules : Modules :=
  ((∅ : Modules).insert "store".toList { dependencies := [] }).insert "api".toList { dependencies := ["store".toList] }

def twoCalls : List Call :=
  [.register "api".toList ["store".toList], .register "store".toList [],
    .startAll ["api".toList, "store".toList] ["store".toList, "api".toList] (fun _ => true) (fun _ => true)]

theorem two_modules_in_order : (["store".toList, "api".toList].Sublist ["store".toList, "api".toList] ∧
      computeStartOrder twoModules ["store".toList, "api".toList] ["api".toList, "store".toList] =
        .ok ["store".toList, "api".toList]) ∧
    ∃ r : Registry, AnyRun step {} twoCalls r ∧ (r.stopAll fun _ => true).2 = ["api".toList, "store".toList] ∧
      (r.stopAll fun _ => true).2.Nodup := by
  constructor
  · obtain ⟨-, horder⟩ :=
      start_and_stop_order.1 twoModules ["api".toList, "store".toList] ["store".toList, "api".toList]
      (by decide) (by decide)
    obtain ⟨-, hbefore, hsame⟩ := horder ["store".toList, "api".toList] (by decide)
    exact ⟨hbefore "api".toList "store".toList (mem_singleton.mpr rfl), hsame _ _ (by decide) (by decide)⟩
  · exact Run.exists_of_exec (by decide) fun r hrun hstop =>
      ⟨hstop, (start_and_stop_order.2 twoCalls r hrun fun _ => true).1⟩

end Registry
end Whispera
