import Whispera.Strategy

/-! Choices of arms after any calls. -/

namespace Whispera
open List

theorem jointArmParts_bijOn (presets : Int) :
    Set.BijOn (jointArmParts · presets) {arm | 0 ≤ arm ∧ arm < jointArmCount presets}
      {parts | parts.1 < (max presets 1).toNat ∧ parts.2 ∈ fragmentBudgets} := by
  have hparts : ∀ arm : Int, 0 ≤ arm → arm < jointArmCount presets →
      jointArmParts arm presets = (arm.toNat / 4, fragmentBudgets.getD (arm.toNat % 4) 0) := fun arm hlo hhi =>
    if_neg (not_or.mpr ⟨Int.not_lt.mpr hlo, Int.not_le.mpr hhi⟩)
  have hcount : jointArmCount presets = (max presets 1).toNat * 4 := rfl
  have hbudget : ∀ j < 4, fragmentBudgets.getD j 0 ∈ fragmentBudgets := by decide
  have hinj : ∀ j < 4, ∀ k < 4, fragmentBudgets.getD j 0 = fragmentBudgets.getD k 0 → j = k := by decide
  have hsurj : ∀ b ∈ fragmentBudgets, ∃ j < 4, fragmentBudgets.getD j 0 = b := by decide
  refine ⟨?_, ?_, ?_⟩
  · rintro arm ⟨hlo, hhi⟩
    show jointArmParts arm presets ∈ _
    rw [hparts arm hlo hhi]
    exact ⟨show arm.toNat / 4 < _ by omega, hbudget _ (Nat.mod_lt _ (by decide))⟩
  · rintro a ⟨halo, hahi⟩ b ⟨hblo, hbhi⟩ hab
    simp only [hparts a halo hahi, hparts b hblo hbhi, Prod.mk.injEq] at hab
    have := hinj _ (Nat.mod_lt _ (by decide)) _ (Nat.mod_lt _ (by decide)) hab.2
    omega
  · rintro ⟨p, b⟩ ⟨hp : p < (max presets 1).toNat, hb⟩
    obtain ⟨j, hj, rfl⟩ := hsurj b hb
    have hhi : (p * 4 + j : Int) < jointArmCount presets := by omega
    refine ⟨p * 4 + j, ⟨by omega, hhi⟩, ?_⟩
    have hnat : (p * 4 + j : Int).toNat = p * 4 + j := by omega
    show jointArmParts (p * 4 + j) presets = _
    rw [hparts _ (by omega) hhi, hnat]
    congr 1
    · omega
    · congr 1
      omega

namespace ArmTable
variable {α : Type}

section Loops
variable [LinearOrder α] {fits : Nat → Bool} {arms : List Nat}

theorem unobserved_eq (fits : Nat → Bool) (cnt : Nat → Nat) (arms : List Nat) (total : Nat) :
    ∃ t, unobserved fits cnt arms total = (arms.find? fun i => fits i && cnt i == 0).elim (.ok t) .error := by
  induction arms generalizing total with
  | nil => exact ⟨total, rfl⟩
  | cons a arms ih =>
    rw [unobserved, find?_cons]
    by_cases hfits : fits a = true
    · by_cases hcnt : cnt a = 0
      · exact ⟨0, by simp [hfits, hcnt]⟩
      · simpa [hfits, beq_false_of_ne hcnt, hcnt] using ih (total + cnt a)
    · simpa [hfits] using ih total

theorem foldl_better {score : Nat → α} {b : Option α × Nat} {n : Nat} (harms : ∀ i ∈ arms, i < n)
    (hbest : b.1 ≠ none → b.2 < n ∧ fits b.2 = true) (hfits : b.1 ≠ none ∨ ∃ i ∈ arms, fits i = true) :
    (arms.foldl (better fits score) b).2 < n ∧ fits (arms.foldl (better fits score) b).2 = true := by
  induction arms generalizing b with
  | nil =>
    obtain hsome | ⟨i, hi, -⟩ := hfits
    · exact hbest hsome
    · cases hi
  | cons a arms ih =>
    rw [foldl_cons]
    have ha := harms a mem_cons_self
    refine ih (fun i hi => harms i (mem_cons_of_mem _ hi)) ?_ ?_ <;> rw [better] <;> split
    · exact fun _ => ⟨ha, by simp_all⟩
    · exact hbest
    · exact .inl (Option.some_ne_none _)
    · rename_i hnot
      obtain hsome | ⟨i, hi, hfit⟩ := hfits
      · exact .inl hsome
      · rcases mem_cons.mp hi with rfl | hi
        · refine .inl fun hnone => hnot ?_
          rw [hfit, hnone]
          rfl
        · exact .inr ⟨i, hi, hfit⟩

end Loops

variable [Field α] {t : ArmTable α} {count : Nat → Nat}

theorem length_grown {β : Type} [Zero β] {l : List β} {arms : Nat} (hl : l.length ≤ arms) :
    (grown arms l).length = arms := by
  rw [grown, take_of_length_le hl, length_append, length_replicate, Nat.add_sub_of_le hl]

theorem getD_grown {l : List Nat} {arms : Nat} (hl : l.length ≤ arms) (i : Nat) :
    (grown arms l).getD i 0 = l.getD i 0 := by
  rw [grown, take_of_length_le hl, getD_eq_getElem?_getD, getD_eq_getElem?_getD, getElem?_append]
  split
  · rfl
  · rw [getElem?_replicate, getElem?_eq_none (l := l) (Nat.le_of_not_lt ‹_›)]
    split <;> rfl

/-- The table counts the plays of each arm. -/
structure Counts (t : ArmTable α) (count : Nat → Nat) : Prop where
  length : t.sum.length = t.cnt.length
  count : ∀ arm, t.cnt.getD arm 0 = count arm

theorem Counts.ensure (hc : t.Counts count) (arms : Nat) :
    (t.ensure arms).Counts count ∧ arms ≤ (t.ensure arms).cnt.length := by
  rw [ArmTable.ensure]
  split
  · rename_i hlt
    have hcnt : t.cnt.length ≤ arms := hc.length ▸ hlt.le
    exact ⟨⟨(length_grown hlt.le).trans (length_grown hcnt).symm, fun i => (getD_grown hcnt i).trans (hc.count i)⟩,
      (length_grown hcnt).ge⟩
  · rename_i hlt
    exact ⟨hc, hc.length ▸ Nat.le_of_not_lt hlt⟩

theorem Counts.observe {arm : Nat} (hc : t.Counts count) (harm : arm < t.cnt.length) (r : HandshakeResult) :
    (t.observe arm r).Counts (Function.update count arm (count arm + 1)) := by
  refine ⟨by rw [ArmTable.observe, length_modify, length_modify, hc.length], fun i => ?_⟩
  rw [ArmTable.observe, getD_eq_getElem?_getD, getElem?_modify]
  by_cases hi : arm = i
  · subst hi
    rw [Function.update_self, ← hc.count, getD_eq_getElem?_getD, getElem?_eq_getElem harm]
    simp
  · rw [Function.update_of_ne (Ne.symm hi), ← hc.count, getD_eq_getElem?_getD]
    simp [hi]

theorem pick_spec [LinearOrder α] (bonus : Nat → Nat → α) {n : Nat} {fits : Nat → Bool} (hc : t.Counts count)
    (hfits : ∃ i < n, fits i = true) : t.pick bonus n fits < n ∧ fits (t.pick bonus n fits) = true ∧
      ∀ i < n, fits i = true → count i = 0 → count (t.pick bonus n fits) = 0 := by
  obtain ⟨total, hu⟩ := unobserved_eq fits (t.cnt.getD · 0) (range n) 0
  rw [pick, hu]
  cases hfind : (range n).find? fun i => fits i && t.cnt.getD i 0 == 0 with
  | some i =>
    have hi := find?_some hfind
    rw [Bool.and_eq_true, beq_iff_eq] at hi
    exact ⟨mem_range.mp (mem_of_find?_eq_some hfind), hi.1, fun _ _ _ _ => hc.count i ▸ hi.2⟩
  | none =>
    obtain ⟨i, hi, hfit⟩ := hfits
    obtain ⟨hlt, hbest⟩ :=
      foldl_better (α := α) (b := (none, 0)) (fun _ => mem_range.mp) (fun hnone => absurd rfl hnone)
      (.inr ⟨i, mem_range.mpr hi, hfit⟩)
    refine ⟨hlt, hbest, fun j hj hfit hzero => absurd ?_ (find?_eq_none.mp hfind j (mem_range.mpr hj))⟩
    rw [hfit, (hc.count j).trans hzero]
    rfl

end ArmTable

namespace HandshakeStrategy
variable {α : Type} [LinearOrder α] [Field α] (bonus : Nat → Nat → α)

def observes (ctx : String) (arm : Nat) : Call → Bool
  | .observe c a _ => c = ctx ∧ a = arm
  | .selectJoint _ _ _ => false

theorem counts_after (calls : List Call) (ctx : String) :
    (after bonus calls ctx).Counts fun arm => calls.countP (observes ctx arm) := by
  induction calls using reverseRecOn generalizing ctx with
  | nil => exact ⟨rfl, fun _ => rfl⟩
  | append_singleton calls c ih =>
    have hcount : ∀ ctx arm, (calls ++ [c]).countP (observes ctx arm) =
        calls.countP (observes ctx arm) + if observes ctx arm c then 1 else 0 := fun _ _ => by
      rw [countP_append, countP_singleton]
    simp only [hcount]
    rw [after, foldl_append, foldl_cons, foldl_nil, ← after]
    cases c with
    | observe ctx' arm r =>
      rw [call, observe]
      split
      · convert ih ctx using 2
        simp [observes]
        omega
      · by_cases hctx : ctx = ctx'
        · subst hctx
          obtain ⟨hens, hlen⟩ := (ih ctx).ensure (arm.toNat + 1)
          rw [Function.update_self]
          convert hens.observe hlen r using 2 with i
          by_cases hi : i = arm.toNat
          · subst hi
            rw [Function.update_self, if_pos (by simp [observes]; omega)]
          · rw [Function.update_of_ne hi, if_neg (by simp [observes]; omega), add_zero]
        · rw [Function.update_of_ne hctx]
          convert ih ctx using 2
          simp [observes, Ne.symm hctx]
    | selectJoint ctx' presets fragmented =>
      show (Function.update (after bonus calls) ctx' _ ctx).Counts _
      by_cases hctx : ctx = ctx'
      · subst hctx
        rw [Function.update_self]
        exact ((ih ctx).ensure _).1
      · rw [Function.update_of_ne hctx]
        exact ih ctx

/-- After any calls, `SelectJoint` returns a fitting arm in range, one without an observation while there is
    such an arm, and it reads the tables in range. The arms in range stand for the pairs of a preset and a
    budget. -/
theorem selectJoint_explores (calls : List Call) (ctx : String) (presets : Int) (fragmented : Bool) :
    ((after bonus calls).selectJoint bonus ctx presets fragmented).1 < jointArmCount presets ∧
    jointArmFits fragmented ((after bonus calls).selectJoint bonus ctx presets fragmented).1 = true ∧
    (∀ arm < jointArmCount presets, jointArmFits fragmented arm = true → calls.countP (observes ctx arm) = 0 →
      calls.countP (observes ctx ((after bonus calls).selectJoint bonus ctx presets fragmented).1) = 0) ∧
    (∀ t, t = (after bonus calls ctx).ensure (jointArmCount presets) →
      jointArmCount presets ≤ t.sum.length ∧ jointArmCount presets ≤ t.cnt.length) ∧
    Set.BijOn (jointArmParts · presets) {arm | 0 ≤ arm ∧ arm < jointArmCount presets}
      {parts | parts.1 < (max presets 1).toNat ∧ parts.2 ∈ fragmentBudgets} := by
  obtain ⟨hens, hlen⟩ := (counts_after bonus calls ctx).ensure (jointArmCount presets)
  have hfirst : ∃ arm : Nat, arm < jointArmCount presets ∧ jointArmFits fragmented arm = true :=
    ⟨0, by simp [jointArmCount, fragmentBudgets], by cases fragmented <;> decide⟩
  obtain ⟨hlt, hfit, hnew⟩ := ArmTable.pick_spec bonus hens hfirst
  refine ⟨hlt, hfit, hnew, ?_, jointArmParts_bijOn presets⟩
  rintro t rfl
  exact ⟨hens.length ▸ hlen, hlen⟩

end HandshakeStrategy

namespace Policy
variable {α : Type} [LT α] [DecidableLT α] {scores : List Int → List α} {p : Policy} {ctx : String}

def dials (ctx : String) : Call → Bool
  | .noteDial c _ _ => c = ctx
  | .policyArm _ _ => false

/-- The conditions of the calls of `policyArm` on a context since its last dial, after one more call. -/
def asked (ctx : String) (conditions : List (Int → Bool)) : Call → List (Int → Bool)
  | .noteDial c _ _ => if c = ctx then [] else conditions
  | .policyArm c fits => if c = ctx then fits :: conditions else conditions

/-- The guess for a context was made at some dial, and if that was the last one, it is the pick for a
    condition asked since. -/
structure Noted (scores : List Int → List α) (p : Policy) (ctx : String) (dials : Nat)
    (asked : List (Int → Bool)) : Prop where
  rev : p.rev ctx = UInt64.ofNat dials
  guess : ∀ g ∈ p.cache ctx, ∃ n ≤ dials, g.rev = UInt64.ofNat n ∧
    (n = dials → ∃ fits ∈ asked, g.arm = p.best scores ctx fits)

theorem Noted.step {n : Nat} {conditions : List (Int → Bool)} (h : p.Noted scores ctx n conditions) (c : Call) :
    (p.call scores c).Noted scores ctx (n + if dials ctx c then 1 else 0) (asked ctx conditions c) := by
  cases c with
  | noteDial c arm alive =>
    by_cases hc : c = ctx
    · subst hc
      simp only [dials, asked, decide_true, if_true]
      refine ⟨?_, fun g hg => ?_⟩
      · refine (Function.update_self ..).trans ?_
        rw [h.rev, UInt64.ofNat_add]
        rfl
      · obtain ⟨k, hk, hrev, -⟩ := h.guess g hg
        exact ⟨k, Nat.le_succ_of_le hk, hrev, fun heq => absurd hk (by omega)⟩
    · have hne : ctx ≠ c := Ne.symm hc
      simp only [dials, asked, hc, decide_false, if_false]
      refine ⟨?_, fun g hg => ?_⟩
      · exact (Function.update_of_ne hne ..).trans h.rev
      · simp only [call, noteDial, best, Function.update_of_ne hne]
        exact h.guess g hg
  | policyArm c fits =>
    have hmore : p.Noted scores ctx (n + if dials ctx (.policyArm c fits) then 1
        else 0) (asked ctx conditions (.policyArm c fits)) := by
      refine ⟨h.rev, fun g hg => ?_⟩
      obtain ⟨k, hk, hrev, hnow⟩ := h.guess g hg
      refine ⟨k, hk, hrev, fun heq => ?_⟩
      obtain ⟨f, hf, harm⟩ := hnow heq
      refine ⟨f, ?_, harm⟩
      rw [asked]
      split
      · exact mem_cons_of_mem _ hf
      · exact hf
    rw [call, policyArm]
    split
    · exact hmore
    · split
      · by_cases hc : c = ctx
        · subst hc
          refine ⟨h.rev, fun g hg => ?_⟩
          cases (Function.update_self ..).symm.trans hg
          exact ⟨n, le_refl n, h.rev, fun _ => ⟨fits, by rw [asked, if_pos rfl]; exact mem_cons_self, rfl⟩⟩
        · exact ⟨hmore.rev, fun g hg => hmore.guess g ((Function.update_of_ne (Ne.symm hc) ..).symm.trans hg)⟩
      · exact hmore

theorem noted (scores : List Int → List α) (calls : List Call) (ctx : String) :
    (after scores calls).Noted scores ctx (calls.countP (dials ctx)) (calls.foldl (asked ctx) []) := by
  induction calls using reverseRecOn with
  | nil => exact ⟨rfl, nofun⟩
  | append_singleton calls c ih =>
    rw [after, foldl_append, foldl_append, countP_append, countP_singleton]
    exact ih.step c

/-- If no earlier call since the last dial on the context asked with a condition whose pick fits now and is
    not the pick for the present condition, and the revision has not wrapped around, `policyArm` returns the
    pick for the present history. -/
theorem policyArm_is_best (scores : List Int → List α) (calls : List Call) (ctx : String) (fits : Int → Bool)
    (hdials : calls.countP (dials ctx) < UInt64.size)
    (hasked : ∀ earlier ∈ calls.foldl (asked ctx) [], fits ((after scores calls).best scores ctx earlier) = true →
      (after scores calls).best scores ctx earlier = (after scores calls).best scores ctx fits) :
    ((after scores calls).policyArm scores ctx fits).1 = (after scores calls).best scores ctx fits := by
  obtain ⟨hrev, hguess⟩ := noted scores calls ctx
  rw [policyArm]
  split
  · rename_i g hg
    obtain ⟨hg, hhit⟩ := Option.filter_eq_some_iff.mp hg
    rw [Bool.and_eq_true, beq_iff_eq] at hhit
    obtain ⟨n, hn, hgrev, hnow⟩ := hguess g hg
    have heq : n = calls.countP (dials ctx) := by
      have hnat := congrArg UInt64.toNat (hgrev.symm.trans (hhit.1.trans hrev))
      rwa [UInt64.toNat_ofNat_of_lt' (lt_of_le_of_lt hn hdials), UInt64.toNat_ofNat_of_lt' hdials] at hnat
    obtain ⟨earlier, hmem, harm⟩ := hnow heq
    rw [harm] at hhit ⊢
    exact hasked earlier hmem hhit.2
  · split <;> rfl

/-- With the budget 1 only, and then again. -/
theorem policyArm_is_best_again :
    ((after (fun _ => [0, 1]) [.policyArm "a" (jointArmFits false)]).policyArm (fun _ => [0, 1]) "a"
     (jointArmFits false)).1 = 0 := by
  refine policyArm_is_best (fun _ => [0, 1]) _ "a" (jointArmFits false) (by decide) fun earlier hmem _ => ?_
  obtain rfl : earlier = jointArmFits false := mem_singleton.mp hmem
  rfl

/-- With the budget 1 only, and then with any budget: the cached arm fits, but is not the best. -/
theorem policyArm_of_narrower_condition :
    ((after (fun _ => [0, 1]) [.policyArm "a" (jointArmFits false)]).policyArm (fun _ => [0, 1]) "a"
     (jointArmFits true)).1 = 0 ∧
    (after (fun _ => [0, 1]) [.policyArm "a" (jointArmFits false)]).best (fun _ => [0, 1]) "a"
      (jointArmFits true) = 1 := by
  decide

end Policy
end Whispera
