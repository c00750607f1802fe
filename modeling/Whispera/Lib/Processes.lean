import Mathlib.Algebra.BigOperators.Group.List.Basic
import Mathlib.Algebra.GroupWithZero.Nat

/-! A step moves one process on, lets one begin or takes one out, and what they weigh together changes by what
that one weighs. -/

namespace Processes
open List Option

variable {π : Type} {ps : List π} {i : Nat} {p : π}

theorem map_set {α : Type} {f : π → α} (h : ps[i]? = some p) {q : π} (hf : f q = f p) :
    (ps.set i q).map f = ps.map f := by
  obtain ⟨hlt, rfl⟩ := List.getElem?_eq_some_iff.mp h
  have hget : f q = (ps.map f).get ⟨i, by rwa [length_map]⟩ := by rw [get_eq_getElem, getElem_map, hf]
  rw [map_set, hget, get_eq_getElem, set_getElem_self]

theorem get_set_self (h : ps[i]? = some p) (q : π) : (ps.set i q)[i]? = some q :=
  getElem?_set_self (List.getElem?_eq_some_iff.mp h).choose

variable {j : Nat} {q r : π} (f : π → Nat)

theorem get_set_cases (h : ps[i]? = some p) (hj : (ps.set i q)[j]? = some r) :
    (j = i ∧ r = q) ∨ (j ≠ i ∧ ps[j]? = some r) := by
  rcases eq_or_ne j i with rfl | hne
  · exact .inl ⟨rfl, some.inj (hj.symm.trans (get_set_self h q))⟩
  · exact .inr ⟨hne, (getElem?_set_ne hne.symm).symm.trans hj⟩

theorem get_append_cases {qs : List π} {r : π} (hj : (ps ++ qs)[j]? = some r) :
    ps[j]? = some r ∨ ∃ k, qs[k]? = some r ∧ j = ps.length + k := by
  rcases Nat.lt_or_ge j ps.length with hlt | hge
  · exact .inl ((getElem?_append_left hlt).symm.trans hj)
  · exact .inr ⟨j - ps.length, (getElem?_append_right hge).symm.trans hj, by omega⟩

theorem get_begin_cases (hj : (ps ++ [q])[j]? = some r) : ps[j]? = some r ∨ (j = ps.length ∧ r = q) := by
  rcases get_append_cases hj with hold | ⟨k, hk, rfl⟩
  · exact .inl hold
  · cases k with
    | zero => exact .inr ⟨rfl, (some.inj hk).symm⟩
    | succ k => cases hk

theorem get_append_left (h : ps[j]? = some p) (qs : List π) : (ps ++ qs)[j]? = some p :=
  (getElem?_append_left (List.getElem?_eq_some_iff.mp h).choose).trans h

theorem mem_set_self (h : ps[i]? = some p) (q : π) : q ∈ ps.set i q :=
  mem_set (List.getElem?_eq_some_iff.mp h).choose q

/-- If one process at most has a property, that stays so when one goes on which had it, or when no other one
    has it. -/
theorem unique_set {P : π → Prop}
    (hone : ∀ (j k : Nat) (q r : π), ps[j]? = some q → ps[k]? = some r → P q → P r → j = k)
    (h : ps[i]? = some p) {p' : π} (hp' : P p' → P p ∨ ∀ q ∈ ps, ¬P q) {j k : Nat}
    (hj : (ps.set i p')[j]? = some q) (hk : (ps.set i p')[k]? = some r) (hq : P q) (hr : P r) : j = k := by
  -- A process that is not the one that moved is where it was, so it is that one or has not got the property.
  have hmoved : ∀ (l : Nat) (x : π), ps[l]? = some x → P x → P p' → l = i := by
    intro l x hl hx hp
    rcases hp' hp with hp | hnone
    · exact hone l i x p hl h hx hp
    · exact absurd hx (hnone x (mem_of_getElem? hl))
  rcases get_set_cases h hj with ⟨rfl, rfl⟩ | ⟨-, hj'⟩ <;> rcases get_set_cases h hk with ⟨rfl, rfl⟩ | ⟨-, hk'⟩
  · rfl
  · exact (hmoved k r hk' hr hq).symm
  · exact hmoved j q hj' hq hr
  · exact hone j k q r hj' hk' hq hr

def weigh (f : π → Nat) (ps : List π) : Nat := (ps.map f).sum

@[simp] theorem weigh_nil : weigh f [] = 0 := rfl

@[simp] theorem weigh_cons (p : π) (ps : List π) : weigh f (p :: ps) = f p + weigh f ps := by
  rw [weigh, map_cons, sum_cons, weigh]

theorem weigh_begin (ps : List π) (p : π) : weigh f (ps ++ [p]) = weigh f ps + f p := by
  rw [weigh, map_append, sum_append, map_singleton, sum_singleton, weigh]

theorem weigh_set (h : ps[i]? = some p) (q : π) : weigh f (ps.set i q) + f p = weigh f ps + f q := by
  induction ps generalizing i with
  | nil => cases h
  | cons r ps ih =>
    cases i with
    | zero =>
      obtain rfl : r = p := some.inj h
      rw [set_cons_zero, weigh_cons, weigh_cons]
      omega
    | succ i =>
      have := ih (i := i) h
      rw [set_cons_succ, weigh_cons, weigh_cons]
      omega

theorem countP_eq_weigh (f : π → Bool) (ps : List π) : ps.countP f = weigh (fun p => (f p).toNat) ps := by
  induction ps with
  | nil => rfl
  | cons p ps ih =>
    rw [countP_cons, weigh_cons, ih, add_comm]
    cases f p <;> rfl

theorem countP_set (f : π → Bool) (h : ps[i]? = some p) (q : π) :
    (ps.set i q).countP f + (f p).toNat = ps.countP f + (f q).toNat := by
  rw [countP_eq_weigh, countP_eq_weigh]
  exact weigh_set _ h q

section
variable (h : ps[i]? = some p)
include h

theorem weigh_eraseIdx : weigh f (ps.eraseIdx i) + f p = weigh f ps := by
  induction ps generalizing i with
  | nil => cases h
  | cons r ps ih =>
    cases i with
    | zero =>
      obtain rfl : r = p := some.inj h
      rw [eraseIdx_cons_zero, weigh_cons, add_comm]
    | succ i =>
      have := ih (i := i) h
      rw [eraseIdx_cons_succ, weigh_cons, weigh_cons]
      omega

theorem weigh_le : f p ≤ weigh f ps := by
  have := weigh_eraseIdx f h
  omega

theorem weigh_le_two {q : π} (hj : ps[j]? = some q) (hne : j ≠ i) : f p + f q ≤ weigh f ps := by
  obtain ⟨k, hk⟩ := mem_iff_getElem?.mp (mem_eraseIdx_iff_getElem?.mpr ⟨j, hne, hj⟩)
  have := weigh_eraseIdx f h
  have := weigh_le f hk
  omega

theorem mem_set_of_mem {q : π} (hq : q ∈ ps) (r : π) : q = p ∨ q ∈ ps.set i r := by
  obtain ⟨j, hj⟩ := mem_iff_getElem?.mp hq
  rcases eq_or_ne j i with rfl | hne
  · exact .inl (some.inj (hj.symm.trans h))
  · exact .inr (mem_of_getElem? ((getElem?_set_ne hne.symm).trans hj))

end

end Processes
