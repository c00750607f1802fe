import Mathlib.Order.WellFoundedSet

/-! A graph is given by its nodes and, for each node, the nodes that wait for it, where an edge may stand more
than once. Kahn's algorithm reaches all nodes just if there is no cycle. -/

namespace TopoSort
open List

variable {α : Type}

/-- One edge into a node is done. The node joins the queue if there is no other. -/
def release [DecidableEq α] (s : (α → Int) × List α) (x : α) : (α → Int) × List α :=
  let degree := Function.update s.1 x (s.1 x - 1)
  (degree, if degree x = 0 then s.2 ++ [x] else s.2)

/-- The loop over the queue, with the open edges into each node and the order so far. -/
def loop [DecidableEq α] (waiting : α → List α) : Nat → List α → (α → Int) → List α → Option (List α)
  | _, [], _, order => some order
  | 0, _ :: _, _, _ => none
  | fuel + 1, x :: queue, degree, order =>
    let s := (waiting x).foldl release (degree, queue)
    loop waiting fuel s.2 s.1 (order ++ [x])

theorem loop_append [DecidableEq α] {waiting : α → List α} {fuel : Nat} {queue order result : List α} {degree : α → Int}
    (h : loop waiting fuel queue degree order = some result) : ∃ rest, result = order ++ rest ∧
    rest.head? = queue.head? := by
  induction fuel generalizing queue degree order with
  | zero =>
    cases queue with
    | nil => exact ⟨[], by rw [append_nil, ← Option.some.inj h], rfl⟩
    | cons x queue => cases h
  | succ fuel ih =>
    cases queue with
    | nil => exact ⟨[], by rw [append_nil, ← Option.some.inj h], rfl⟩
    | cons x queue =>
      obtain ⟨rest, rfl, -⟩ := ih h
      exact ⟨x :: rest, by rw [append_assoc, singleton_append], rfl⟩

/-- Each node comes after all those that it waits for. -/
def Topological (waiting : α → List α) (nodes order : List α) : Prop :=
  ∀ l x r, order = l ++ x :: r → ∀ y ∈ nodes, x ∈ waiting y → y ∈ l

/-- What the loop keeps, where `pending` are the nodes not in the order yet. -/
structure Sound [BEq α] (waiting : α → List α) (nodes pending queue : List α) (degree : α → Int)
    (order : List α) : Prop where
  perm : (order ++ pending).Perm nodes
  edges : ∀ x, degree x = (pending.flatMap waiting).count x
  mem_queue : ∀ x, x ∈ queue ↔ x ∈ pending ∧ degree x = 0
  nodup : queue.Nodup
  topological : Topological waiting nodes order

section Release

theorem release_degree [DecidableEq α] (s : (α → Int) × List α) (x z : α) :
    (release s x).1 z = s.1 z - if z = x then 1 else 0 := by
  rcases eq_or_ne z x with rfl | hne
  · simp [release]
  · simp [release, hne]

variable [DecidableEq α] [BEq α] [LawfulBEq α]

theorem foldl_release_degree (xs : List α) (s : (α → Int) × List α) (z : α) :
    (xs.foldl release s).1 z = s.1 z - xs.count z := by
  induction xs generalizing s with
  | nil => simp
  | cons x xs ih =>
    rw [foldl_cons, ih, release_degree, count_cons]
    rcases eq_or_ne z x with rfl | hne
    · rw [if_pos rfl, if_pos (beq_self_eq_true z)]
      omega
    · simp [hne, hne.symm]

theorem mem_foldl_release (xs : List α) (s : (α → Int) × List α) (z : α) (hle : (xs.count z : Int) ≤ s.1 z) :
    z ∈ (xs.foldl release s).2 ↔ z ∈ s.2 ∨ (z ∈ xs ∧ s.1 z = xs.count z) := by
  induction xs generalizing s with
  | nil => simp
  | cons x xs ih =>
    rw [foldl_cons]
    rcases eq_or_ne z x with rfl | hne
    · have hcount : (z :: xs).count z = xs.count z + 1 := count_cons_self
      rw [hcount] at hle ⊢
      rw [ih _ (by rw [release_degree, if_pos rfl]; omega), release_degree, if_pos rfl]
      by_cases h0 : s.1 z - 1 = 0
      · have hq : z ∈ (release s z).2 := by simp [release, h0]
        have hc : s.1 z = ((xs.count z + 1 : Nat) : Int) := by omega
        simp only [hq, mem_cons, true_or, hc, and_self, or_true]
      · have hq : z ∈ (release s z).2 ↔ z ∈ s.2 := by simp [release, h0]
        rw [hq]
        refine or_congr_right ⟨fun h => ⟨mem_cons_self, by omega⟩, fun h => ⟨?_, by omega⟩⟩
        exact count_pos_iff.mp (by omega)
    · have hcount : (x :: xs).count z = xs.count z := count_cons_of_ne hne.symm
      rw [hcount] at hle ⊢
      rw [ih _ (by rw [release_degree, if_neg hne]; omega), release_degree, if_neg hne]
      have hq : z ∈ (release s x).2 ↔ z ∈ s.2 := by
        simp only [release]
        split
        · simp [hne]
        · rfl
      rw [hq, mem_cons, Int.sub_zero]
      simp [hne]

theorem nodup_foldl_release (xs : List α) (s : (α → Int) × List α) (hle : ∀ z, (xs.count z : Int) ≤ s.1 z)
    (h0 : ∀ z ∈ s.2, s.1 z = 0) (hs : s.2.Nodup) : (xs.foldl release s).2.Nodup := by
  induction xs generalizing s with
  | nil => exact hs
  | cons x xs ih =>
    rw [foldl_cons]
    have hx : ((xs.count x : Nat) : Int) + 1 ≤ s.1 x := by
      have := hle x
      rw [count_cons_self] at this
      omega
    have hmem : x ∉ s.2 := fun h => by
      have := h0 x h
      omega
    refine ih _ (fun z => ?_) (fun z hz => ?_) ?_
    · rw [release_degree]
      rcases eq_or_ne z x with rfl | hne
      · rw [if_pos rfl]
        omega
      · have := hle z
        rw [count_cons_of_ne hne.symm] at this
        rw [if_neg hne]
        omega
    · rw [release_degree]
      rcases eq_or_ne z x with rfl | hne
      · rw [if_pos rfl]
        by_contra hz0
        refine hmem ?_
        simp only [release, Function.update_self] at hz
        rwa [if_neg hz0] at hz
      · rw [if_neg hne, Int.sub_zero]
        refine h0 z ?_
        simp only [release] at hz
        split at hz
        · simpa [hne] using hz
        · exact hz
    · simp only [release]
      split
      · rw [nodup_append]
        exact ⟨hs, nodup_singleton x, fun a ha b hb hab => hmem (by simp_all)⟩
      · exact hs

end Release

section Loop
variable {waiting : α → List α} {nodes pending queue order : List α} {degree : α → Int}

theorem Sound.done [BEq α] [LawfulBEq α] (h : Sound waiting nodes pending queue degree order) {x y : α}
    (hx : degree x = 0) (hy : y ∈ nodes)
    (he : x ∈ waiting y) : y ∈ order := by
  rcases mem_append.mp (h.perm.mem_iff.mpr hy) with ho | hp
  · exact ho
  · have hpos : 0 < (pending.flatMap waiting).count x := count_pos_iff.mpr (mem_flatMap.mpr ⟨y, hp, he⟩)
    have := h.edges x
    omega

theorem topological_snoc (h : Topological waiting nodes order) {x : α} (hx : ∀ y ∈ nodes, x ∈ waiting y → y ∈ order) :
    Topological waiting nodes (order ++ [x]) := by
  intro l z r hsplit y hy he
  rcases append_eq_append_iff.mp hsplit with ⟨c, hl, hr⟩ | ⟨c, ho, hr⟩
  · -- the last node
    obtain ⟨hc, hxz⟩ : c = [] ∧ x = z := by
      cases c with
      | nil => exact ⟨rfl, (List.cons.inj hr).1⟩
      | cons a c =>
        have := congrArg List.length hr
        simp at this
    subst hxz
    rw [hl, hc, append_nil]
    exact hx y hy he
  · cases c with
    | nil =>
      have hxz : z = x := (List.cons.inj hr).1
      rw [append_nil] at ho
      subst hxz
      exact ho ▸ hx y hy he
    | cons a c =>
      obtain ⟨rfl, rfl⟩ := List.cons.inj hr
      exact h l z c ho y hy he

theorem Sound.next [DecidableEq α] [BEq α] [LawfulBEq α] (hnodes : nodes.Nodup)
    (hw : ∀ y ∈ nodes, ∀ x ∈ waiting y, x ∈ nodes) {x : α} {rest : List α}
    (h : Sound waiting nodes pending (x :: rest) degree order) :
    Sound waiting nodes (pending.erase x) ((waiting x).foldl release (degree, rest)).2
      ((waiting x).foldl release (degree, rest)).1 (order ++ [x]) ∧ x ∈ pending := by
  obtain ⟨hxp, hx0⟩ := (h.mem_queue x).mp mem_cons_self
  have hperm : pending.Perm (x :: pending.erase x) := perm_cons_erase hxp
  have hsum : ∀ z, ((pending.flatMap waiting).count z : Int) =
      (waiting x).count z + ((pending.erase x).flatMap waiting).count z := by
    intro z
    rw [(hperm.flatMap_right waiting).count_eq, flatMap_cons, count_append, Int.natCast_add]
  have hle : ∀ z, (((waiting x).count z : Nat) : Int) ≤ degree z := fun z => by
    have := h.edges z
    have := hsum z
    omega
  have hnd : (order ++ pending).Nodup := h.perm.nodup_iff.mpr hnodes
  have hxn : x ∈ nodes := h.perm.mem_iff.mp (mem_append_right order hxp)
  have hpnd : pending.Nodup := hnd.of_append_right
  refine ⟨⟨?_, fun z => ?_, fun z => ?_, ?_, ?_⟩, hxp⟩
  · rw [append_assoc]
    exact (hperm.symm.append_left order).trans h.perm
  · rw [foldl_release_degree]
    have := h.edges z
    have := hsum z
    simp only
    omega
  · rw [mem_foldl_release _ _ _ (hle z), foldl_release_degree]
    have hzq := h.mem_queue z
    have hzd := h.edges z
    have hzs := hsum z
    have hxr : x ∉ rest := (nodup_cons.mp h.nodup).1
    simp only
    rw [hpnd.mem_erase_iff]
    constructor
    · rintro (hz | ⟨hz, hc⟩)
      · obtain ⟨hzp, hz0⟩ := hzq.mp (mem_cons_of_mem x hz)
        have := hle z
        exact ⟨⟨fun hzx => hxr (hzx ▸ hz), hzp⟩, by omega⟩
      · have hpos : 0 < (waiting x).count z := count_pos_iff.mpr hz
        have hzx : z ≠ x := fun hzx => by
          subst hzx
          omega
        refine ⟨⟨hzx, ?_⟩, by omega⟩
        -- a node in the order comes after `x`, which is not in it
        refine (mem_append.mp (h.perm.mem_iff.mpr (hw x hxn z hz))).resolve_left fun hzo => ?_
        obtain ⟨l, r, rfl⟩ := append_of_mem hzo
        have hxl : x ∈ l := h.topological l z r rfl x hxn hz
        exact disjoint_of_nodup_append hnd (mem_append_left _ hxl) hxp
    · rintro ⟨⟨hzx, hzp⟩, hz0⟩
      by_cases hz : degree z = 0
      · exact Or.inl ((mem_cons.mp (hzq.mpr ⟨hzp, hz⟩)).resolve_left hzx)
      · have hpos : 0 < (waiting x).count z := by omega
        exact Or.inr ⟨count_pos_iff.mp hpos, by omega⟩
  · refine nodup_foldl_release _ _ hle (fun z hz => ((h.mem_queue z).mp (mem_cons_of_mem x hz)).2) ?_
    exact (nodup_cons.mp h.nodup).2
  · exact topological_snoc h.topological fun y hy he => h.done hx0 hy he

variable [DecidableEq α] [BEq α] [LawfulBEq α]

theorem Sound.loop (hnodes : nodes.Nodup) (hw : ∀ y ∈ nodes, ∀ x ∈ waiting y, x ∈ nodes) (fuel : Nat)
    (hfuel : pending.length ≤ fuel) (h : Sound waiting nodes pending queue degree order) :
    ∃ result left, TopoSort.loop waiting fuel queue degree order = some result ∧ (result ++ left).Perm nodes ∧
      Topological waiting nodes result ∧ ∀ x ∈ left, ∃ y ∈ left, x ∈ waiting y := by
  induction fuel generalizing pending queue degree order with
  | zero =>
    obtain rfl : pending = [] := eq_nil_of_length_eq_zero (Nat.le_zero.mp hfuel)
    obtain rfl : queue = [] := eq_nil_iff_forall_not_mem.mpr fun x hx => by simpa using ((h.mem_queue x).mp hx).1
    exact ⟨order, [], rfl, h.perm, h.topological, nofun⟩
  | succ fuel ih =>
    cases queue with
    | nil =>
      refine ⟨order, pending, rfl, h.perm, h.topological, fun x hx => ?_⟩
      have hne : degree x ≠ 0 := fun h0 => by simpa using (h.mem_queue x).mpr ⟨hx, h0⟩
      have hpos : 0 < (pending.flatMap waiting).count x := by
        have := h.edges x
        omega
      obtain ⟨y, hy, he⟩ := mem_flatMap.mp (count_pos_iff.mp hpos)
      exact ⟨y, hy, he⟩
    | cons x rest =>
      obtain ⟨hnext, hx⟩ := h.next hnodes hw
      have hlen : (pending.erase x).length ≤ fuel := by
        rw [length_erase_of_mem hx]
        omega
      exact ih hlen hnext

end Loop

section Cycle
variable {waiting : α → List α} {nodes order : List α}

theorem exists_cycle {left : List α} (hne : left ≠ []) (hwait : ∀ x ∈ left, ∃ y ∈ left, x ∈ waiting y) :
    ∃ x ∈ left, Relation.TransGen (fun y x => x ∈ waiting y) x x := by
  by_contra hno
  -- without a cycle the relation has a least node in the list, which waits for none of them
  let R : α → α → Prop := Relation.TransGen fun y x => y ∈ left ∧ x ∈ waiting y
  have hmem : ∀ {a b}, R a b → a ∈ left := fun h => (Relation.TransGen.head'_iff.mp h).choose_spec.1.1
  have hcycle : ∀ a, ¬ R a a := fun a h => hno ⟨a, hmem h, Relation.TransGen.mono (fun _ _ h => h.2) _ _ h⟩
  have : IsStrictOrder α R := { irrefl := hcycle, trans := fun _ _ _ => Relation.TransGen.trans }
  obtain ⟨a, ha⟩ := exists_mem_of_ne_nil left hne
  have hwf : {x | x ∈ left}.WellFoundedOn R := (finite_toSet left).wellFoundedOn
  obtain ⟨m, -, hmin⟩ := hwf.has_min Set.univ ⟨⟨a, ha⟩, trivial⟩
  obtain ⟨y, hy, he⟩ := hwait m m.2
  exact hmin ⟨y, hy⟩ trivial (Relation.TransGen.single ⟨hy, he⟩)

theorem Topological.sublist (h : Topological waiting nodes order) {x y : α} (hx : x ∈ order) (hy : y ∈ nodes)
    (he : x ∈ waiting y) : [y, x].Sublist order := by
  obtain ⟨l, r, rfl⟩ := append_of_mem hx
  exact (singleton_sublist.mpr (h l x r rfl y hy he)).append (singleton_sublist.mpr mem_cons_self)

section
variable [BEq α] [LawfulBEq α]

theorem Topological.before (h : Topological waiting nodes order) (hnd : order.Nodup) {x y : α} (hx : x ∈ order)
    (hy : y ∈ nodes) (he : x ∈ waiting y) : order.idxOf y < order.idxOf x := by
  obtain ⟨l, r, rfl⟩ := append_of_mem hx
  have hyl : y ∈ l := h l x r rfl y hy he
  have hxl : x ∉ l := fun hxl => disjoint_of_nodup_append hnd hxl mem_cons_self
  rw [idxOf_append_of_mem hyl, idxOf_append_of_notMem hxl, idxOf_cons_self]
  exact lt_of_lt_of_le (idxOf_lt_length_of_mem hyl) (Nat.le_add_right _ _)

theorem Topological.acyclic (h : Topological waiting nodes order) (hperm : order.Perm nodes) (hnd : nodes.Nodup)
    (hw : ∀ y ∈ nodes, ∀ x ∈ waiting y, x ∈ nodes) {x : α} (hx : x ∈ nodes) :
    ¬ Relation.TransGen (fun y x => x ∈ waiting y) x x := by
  have hlt : ∀ {a b}, a ∈ nodes → Relation.TransGen (fun y x => x ∈ waiting y) a b →
      b ∈ nodes ∧ order.idxOf a < order.idxOf b := by
    intro a b ha hab
    induction hab with
    | single he => exact ⟨hw _ ha _ he, h.before (hperm.nodup_iff.mpr hnd) (hperm.mem_iff.mpr (hw _ ha _ he)) ha he⟩
    | tail _ he ih =>
      have hc := hw _ ih.1 _ he
      exact ⟨hc, ih.2.trans (h.before (hperm.nodup_iff.mpr hnd) (hperm.mem_iff.mpr hc) ih.1 he)⟩
  exact fun hcycle => lt_irrefl _ (hlt hx hcycle).2

end

variable [DecidableEq α] [BEq α] [LawfulBEq α]

theorem count_flatMap_eq_length {x : α} {needs : List α} (hnodes : nodes.Nodup) (hsub : ∀ y ∈ needs, y ∈ nodes)
    (h : ∀ y ∈ nodes, (waiting y).count x = needs.count y) : (nodes.flatMap waiting).count x = needs.length := by
  induction nodes generalizing needs with
  | nil =>
    obtain rfl : needs = [] := eq_nil_iff_forall_not_mem.mpr fun y hy => by simpa using hsub y hy
    rfl
  | cons a nodes ih =>
    obtain ⟨ha, hnodes⟩ := nodup_cons.mp hnodes
    have hrest : (nodes.flatMap waiting).count x = (needs.filter (· ≠ a)).length := by
      refine ih hnodes (fun y hy => ?_) fun y hy => ?_
      · obtain ⟨hy, hne⟩ := mem_filter.mp hy
        exact (mem_cons.mp (hsub y hy)).resolve_left (of_decide_eq_true hne)
      · have hne : y ≠ a := fun heq => ha (heq ▸ hy)
        rw [h y (mem_cons_of_mem a hy), count_filter (by simpa using hne)]
    have hsplit : needs.length = needs.count a + (needs.filter (· ≠ a)).length := by
      rw [List.count, length_eq_countP_add_countP (· == a), ← countP_eq_length_filter]
      simp
    rw [flatMap_cons, count_append, h a mem_cons_self, hrest, hsplit]

/-- Kahn's algorithm: it ends, and it has put all nodes into a topological order just if there is no cycle. -/
theorem loop_spec {queue : List α} {degree : α → Int} (hnodes : nodes.Nodup)
    (hw : ∀ y ∈ nodes, ∀ x ∈ waiting y, x ∈ nodes) (hdegree : ∀ x, degree x = (nodes.flatMap waiting).count x)
    (hqueue : queue.Perm (nodes.filter fun x => degree x = 0)) :
    ∃ result, loop waiting nodes.length queue degree [] = some result ∧
      (result.length = nodes.length ↔ ∀ x ∈ nodes, ¬ Relation.TransGen (fun y x => x ∈ waiting y) x x) ∧
      (result.length = nodes.length → result.Perm nodes ∧ Topological waiting nodes result) := by
  have hstart : Sound waiting nodes nodes queue degree [] :=
    { perm := .refl _
      edges := hdegree
      mem_queue := fun x => by rw [hqueue.mem_iff, mem_filter, decide_eq_true_iff]
      nodup := hqueue.nodup_iff.mpr (hnodes.filter _)
      topological := fun l x r h => by simp at h }
  obtain ⟨result, left, hloop, hperm, htop, hleft⟩ := hstart.loop hnodes hw nodes.length (le_rfl)
  have hlen : result.length + left.length = nodes.length := by rw [← length_append, hperm.length_eq]
  have hall : result.length = nodes.length → result.Perm nodes := fun h => by
    obtain rfl : left = [] := eq_nil_of_length_eq_zero (by omega)
    rwa [append_nil] at hperm
  refine ⟨result, hloop, ⟨fun h x hx => htop.acyclic (hall h) hnodes hw hx, fun h => ?_⟩, fun h => ⟨hall h, htop⟩⟩
  by_contra hne
  have hleftne : left ≠ [] := fun h0 => hne (by simpa [h0] using hlen)
  obtain ⟨x, hx, hcycle⟩ := exists_cycle hleftne hleft
  exact h x (hperm.mem_iff.mp (mem_append_right result hx)) hcycle

end Cycle
end TopoSort
