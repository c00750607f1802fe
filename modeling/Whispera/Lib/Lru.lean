import Mathlib.Data.List.Basic

/-! A cache that holds a limited number of entries and drops the one that was not used for the longest time.
-/

structure Lru (κ ν : Type) where
  size : Nat
  entries : List (κ × ν) := []

namespace Lru
open List
variable {κ ν : Type} [DecidableEq κ]

def get (c : Lru κ ν) (k : κ) : Option ν × Lru κ ν :=
  match c.entries.find? fun e => e.1 = k with
  | none => (none, c)
  | some e => (some e.2, { c with entries := e :: c.entries.filter fun e => e.1 ≠ k })

def add (c : Lru κ ν) (k : κ) (v : ν) : Lru κ ν :=
  if c.entries.any fun e => e.1 = k then { c with entries := (k, v) :: c.entries.filter fun e => e.1 ≠ k }
  else { c with entries := ((k, v) :: c.entries).take c.size }

def purge (c : Lru κ ν) : Lru κ ν := { c with entries := [] }

variable {c : Lru κ ν} {k : κ} {v : ν}

theorem get_eq_some (h : (c.get k).1 = some v) : (k, v) ∈ c.entries := by
  unfold get at h
  split at h
  · cases h
  · rename_i e he
    have hk : e.1 = k := by simpa using find?_some he
    have hv : e.2 = v := Option.some.inj h
    exact hk ▸ hv ▸ mem_of_find?_eq_some he

theorem mem_get {e : κ × ν} (h : e ∈ (c.get k).2.entries) : e ∈ c.entries := by
  unfold get at h
  split at h
  · exact h
  · rename_i e' he'
    rcases mem_cons.mp h with rfl | h
    · exact mem_of_find?_eq_some he'
    · exact (mem_filter.mp h).1

theorem mem_add {e : κ × ν} (h : e ∈ (c.add k v).entries) : e = (k, v) ∨ (e.1 ≠ k ∧ e ∈ c.entries) := by
  unfold add at h
  split at h
  · rcases mem_cons.mp h with rfl | h
    · exact .inl rfl
    · obtain ⟨h, hk⟩ := mem_filter.mp h
      exact .inr ⟨by simpa using hk, h⟩
  · rename_i hk
    rcases mem_cons.mp (mem_of_mem_take h) with rfl | h
    · exact .inl rfl
    · refine .inr ⟨fun he => hk ?_, h⟩
      exact any_eq_true.mpr ⟨e, h, decide_eq_true he⟩

end Lru
