import Whispera.Lib.Processes
import Whispera.Verdicts

/-! A call of `SetResolver` or `LoadAppRules` forgets all verdicts before it returns; `SetGeoIP` forgets none.
A lookup or a goroutine that has begun before such a call records its verdict after it. If neither happens,
every verdict is one of the settings in force, or in a shard that is yet to be reset. -/

namespace Whispera
open List Option Processes Transition

def LookupPc.isReturned : LookupPc → Bool
  | returned _ _ => true
  | look | record _ _ | learn _ => false

def LookupPc.verdict : LookupPc → Option CountryVerdict
  | returned _ verdict => verdict
  | look | record _ _ | learn _ => none

namespace Verdicts

def Quiet (s : Verdicts) : Prop := (∀ l ∈ s.lookups, l.pc.isReturned = true) ∧ ∀ l ∈ s.learners, l.resolved = true

/-- The list is replaced only when there are no verdicts, and the list or the resolver only while nothing is
    under way. -/
def Careful (s : Verdicts) : Act → Prop
  | .setGeoIP _ => s.verdicts = [] ∧ s.Quiet
  | .setResolver _ => s.Quiet
  | _ => True

instance (s : Verdicts) : Decidable s.Quiet := inferInstanceAs (Decidable (_ ∧ _))

instance (s : Verdicts) (a) : Decidable (s.Careful a) := by
  unfold Careful
  split <;> infer_instance

/-- The verdict is computed from the list and the resolver in force. -/
def Current (s : Verdicts) (v : CountryVerdict) : Prop := v.geo = s.geo ∧ ∀ r ∈ v.resolver, r = s.resolver

/-- A verdict is current, or a reset has yet to reach it. -/
structure Kept (s : Verdicts) : Prop where
  verdict : ∀ e ∈ s.verdicts, s.Current e.2 ∨ ∃ k ∈ s.resets, k ≤ shardFor e.1
  lookup : ∀ l ∈ s.lookups, l.pc.isReturned = false → l.geo = s.geo ∧ l.resolver = s.resolver
  learner : ∀ l ∈ s.learners, l.resolved = false → l.geo = s.geo ∧ l.resolver = s.resolver

variable {host : List Char} {v : CountryVerdict} {l : CountryLookup}

theorem mem_put {verdicts : List (List Char × CountryVerdict)} {now : Int}
    {e : List Char × CountryVerdict} (h : e ∈ put verdicts host v now) : e = (host, v) ∨ e ∈ verdicts := by
  unfold put at h
  grind

variable {s t : Verdicts}

theorem Kept.record (h : s.Kept) (hv : s.Current v) (now : Int) : (s.record host v now).Kept := by
  refine ⟨fun e he => ?_, h.lookup, h.learner⟩
  rcases mem_put he with rfl | he
  · exact Or.inl hv
  · exact h.verdict e he

theorem Kept.setPc (h : s.Kept) (i : Nat) (hl : l.geo = s.geo ∧ l.resolver = s.resolver) (pc : LookupPc) :
    (s.setPc i l pc).Kept := by
  refine ⟨h.verdict, fun l' hl' hpc => ?_, h.learner⟩
  rcases mem_or_eq_of_mem_set hl' with hl' | rfl
  · exact h.lookup l' hl' hpc
  · exact hl

theorem Kept.go (h : s.Kept) {i : Nat} {now : Int} (hi : s.lookups[i]? = some l)
    (hs : s.go i now l = some t) : t.Kept := by
  have hl : l.pc.isReturned = false → l.geo = s.geo ∧ l.resolver = s.resolver := h.lookup l (mem_of_getElem? hi)
  unfold Verdicts.go at hs
  cases hpc : l.pc with
  | look =>
    simp only [hpc] at hs
    split at hs <;> cases hs <;> exact h.setPc i (hl (hpc ▸ rfl)) _
  | record geo ips =>
    simp only [hpc] at hs
    cases hs
    have hl := hl (hpc ▸ rfl)
    exact (h.record ⟨hl.1, fun r hr => by cases hr⟩ now).setPc i hl _
  | learn geo =>
    simp only [hpc] at hs
    have hl := hl (hpc ▸ rfl)
    have hset := h.setPc i hl (.returned false none)
    split at hs <;> cases hs
    · exact hset
    · refine ⟨hset.verdict, hset.lookup, fun l' hl' hr => ?_⟩
      rcases mem_append.mp hl' with hl' | hl'
      · exact hset.learner l' hl' hr
      · cases mem_singleton.mp hl'
        exact hl
  | returned bypass verdict =>
    simp only [hpc] at hs
    cases hs

theorem Kept.step {a : Act} (h : s.Kept) (hp : s.Careful a) (hs : s.step a = some t) : t.Kept := by
  cases a with
  | setGeoIP geo =>
    cases hs
    obtain ⟨hnil, hlookup, hlearner⟩ := hp
    refine ⟨fun e he => ?_, fun l hl hpc => ?_, fun l hl hr => ?_⟩
    · rw [show _ = [] from hnil] at he
      cases he
    · exact absurd (hlookup l hl) (by simp [hpc])
    · exact absurd (hlearner l hl) (by simp [hr])
  | setResolver resolve =>
    cases hs
    obtain ⟨hlookup, hlearner⟩ := hp
    refine ⟨fun e he => Or.inr ⟨0, mem_append_right _ mem_cons_self, Nat.zero_le _⟩, fun l hl hpc => ?_,
      fun l hl hr => ?_⟩
    · exact absurd (hlookup l hl) (by simp [hpc])
    · exact absurd (hlearner l hl) (by simp [hr])
  | setCached cached =>
    cases hs
    exact ⟨h.verdict, h.lookup, h.learner⟩
  | loadAppRules byCountry =>
    cases hs
    refine ⟨fun e he => (h.verdict e he).imp_right ?_, h.lookup, h.learner⟩
    exact fun ⟨k, hk, hle⟩ => ⟨k, mem_append_left _ hk, hle⟩
  | reset j =>
    obtain ⟨k, hj, hs⟩ := bind_eq_some_iff.mp hs
    split at hs <;> cases hs
    refine ⟨fun e he => ?_, h.lookup, h.learner⟩
    obtain ⟨he, hne⟩ := mem_filter.mp he
    refine (h.verdict e he).imp_right fun ⟨k', hk', hle⟩ => ?_
    rcases mem_set_of_mem hj hk' (k + 1) with rfl | hk'
    · exact ⟨k' + 1, mem_set_self hj _, Nat.lt_of_le_of_ne hle (Ne.symm (of_decide_eq_true hne))⟩
    · exact ⟨k', hk', hle⟩
  | lookup host =>
    cases hs
    refine ⟨h.verdict, fun l hl hpc => ?_, h.learner⟩
    rcases mem_append.mp hl with hl | hl
    · exact h.lookup l hl hpc
    · cases mem_singleton.mp hl
      exact ⟨rfl, rfl⟩
  | go i now =>
    obtain ⟨l, hi, hs⟩ := bind_eq_some_iff.mp hs
    exact h.go hi hs
  | learned k ips now =>
    obtain ⟨l, hk, hs⟩ := bind_eq_some_iff.mp hs
    unfold Verdicts.learned at hs
    split at hs
    · cases hs
    · rename_i hr
      have hl := h.learner l (mem_of_getElem? hk) (Bool.not_eq_true _ ▸ hr)
      have hset : Kept { s with learners := s.learners.set k { l with resolved := true } } := by
        refine ⟨h.verdict, h.lookup, fun l' hl' hr' => ?_⟩
        rcases mem_or_eq_of_mem_set hl' with hl' | rfl
        · exact h.learner l' hl' hr'
        · exact hl
      cases ips with
      | none =>
        cases hs
        exact hset
      | some ips =>
        cases hs
        exact hset.record ⟨hl.1, fun r hr => (some.inj hr).symm.trans hl.2⟩ now
  | forget k =>
    obtain ⟨l, hk, hs⟩ := bind_eq_some_iff.mp hs
    split at hs <;> cases hs
    exact ⟨h.verdict, h.lookup, h.learner⟩

end Verdicts
end Whispera
