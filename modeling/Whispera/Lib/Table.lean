import Mathlib.Algebra.BigOperators.Group.List.Basic
import Mathlib.Algebra.GroupWithZero.Nat
import Mathlib.Data.List.AList

/-! Association lists with distinct keys, counted by weights of their entries, and tables with two keys. -/

namespace Table
open List Option

abbrev Map (α β : Type) : Type := AList fun _ : α => β

section Map
variable {α β : Type}

def card (m : Map α β) : Nat := m.entries.length

/-- The sum of the weights of the entries. -/
def weight (f : α → β → Nat) (m : Map α β) : Nat := (m.entries.map fun e => f e.1 e.2).sum

/-- The entries for which `p` holds. -/
def filter (p : α → β → Bool) (m : Map α β) : Map α β where
  entries := m.entries.filter fun e => p e.1 e.2
  nodupKeys := m.nodupKeys.sublist filter_sublist

def count (p : α → β → Bool) (m : Map α β) : Nat := card (filter p m)

variable (m : Map α β) (p : α → β → Bool) (f : α → β → Nat) {a : α} {b : β}

theorem card_eq_weight : card m = weight (fun _ _ => 1) m := by
  rw [card, weight, map_const', sum_replicate_nat, mul_one]

theorem count_eq_weight (m : Map α β) : count p m = weight (fun a b => if p a b then 1 else 0) m := by
  simp only [count, card, filter, weight]
  induction m.entries with
  | nil => rfl
  | cons e l ih =>
    rw [map_cons, sum_cons, ← ih]
    by_cases hp : p e.1 e.2
    · rw [filter_cons, if_pos hp, if_pos hp, length_cons, add_comm]
    · rw [filter_cons, if_neg hp, if_neg hp, zero_add]

theorem weight_filter_add (p : α → β → Bool) (m : Map α β) :
    weight f (filter p m) + weight f (filter (fun a b => !p a b) m) = weight f m := by
  simp only [weight, filter]
  induction m.entries with
  | nil => rfl
  | cons e l ih =>
    by_cases hp : p e.1 e.2
    · rw [filter_cons, if_pos hp, filter_cons, if_neg (by simp [hp])]
      simp only [map_cons, sum_cons]
      omega
    · rw [filter_cons, if_neg hp, filter_cons, if_pos (by simp [hp])]
      simp only [map_cons, sum_cons]
      omega

theorem count_filter_le (p q : α → β → Bool) (m : Map α β) : count p (filter q m) ≤ count p m := by
  rw [count_eq_weight, count_eq_weight, ← weight_filter_add _ q m]
  exact Nat.le_add_right _ _

variable [DecidableEq α]

theorem lookup_filter (m : Map α β) (a : α) : (filter p m).lookup a = (m.lookup a).filter (p a) := by
  obtain ⟨l, hl⟩ := m
  simp only [AList.lookup, filter]
  induction l with
  | nil => rfl
  | cons e l ih =>
    obtain ⟨a', b⟩ := e
    obtain ⟨hnotin, hl'⟩ := nodupKeys_cons.mp hl
    by_cases ha : a = a'
    · subst ha
      rw [dlookup_cons_eq]
      by_cases hp : p a b
      · rw [filter_cons, if_pos hp, dlookup_cons_eq, filter_some_pos hp]
      · rw [filter_cons, if_neg hp, filter_some_neg (Bool.eq_false_iff.mpr hp), ih hl']
        rw [dlookup_eq_none.mpr hnotin, filter_none]
    · rw [dlookup_cons_ne _ _ ha, ← ih hl']
      by_cases hp : p a' b
      · rw [filter_cons, if_pos hp, dlookup_cons_ne _ _ ha]
      · rw [filter_cons, if_neg hp]

theorem perm_of_lookup {m : Map α β} (h : m.lookup a = some b) : m.entries.Perm (⟨a, b⟩ :: (m.erase a).entries) := by
  have hmem : a ∈ m.entries.keys := AList.lookup_isSome.mp (by rw [h]; rfl)
  obtain ⟨b', l₁, l₂, -, hl, hk⟩ := exists_of_kerase hmem
  have hb : b' = b := by
    have hin : (⟨a, b'⟩ : Sigma fun _ : α => β) ∈ m.entries := by rw [hl]; exact mem_append_right _ mem_cons_self
    exact some.inj ((mem_dlookup m.nodupKeys hin).symm.trans h)
  subst hb
  show m.entries.Perm (⟨a, b'⟩ :: List.kerase a m.entries)
  rw [hk]
  nth_rewrite 1 [hl]
  exact perm_middle

theorem erase_of_lookup_none {m : Map α β} (h : m.lookup a = none) : m.erase a = m :=
  AList.ext (kerase_of_notMem_keys (AList.lookup_eq_none.mp h))

theorem weight_erase (m : Map α β) (a : α) : weight f (m.erase a) + (m.lookup a).elim 0 (f a) = weight f m := by
  cases h : m.lookup a with
  | none => rw [erase_of_lookup_none h, elim_none, add_zero]
  | some b =>
    rw [weight, weight, ((perm_of_lookup h).map _).sum_eq, map_cons, sum_cons, elim_some, add_comm]

theorem weight_insert (m : Map α β) (a : α) (b : β) :
    weight f (m.insert a b) + (m.lookup a).elim 0 (f a) = weight f m + f a b := by
  have hinsert : weight f (m.insert a b) = f a b + weight f (m.erase a) := by
    rw [weight, AList.entries_insert, map_cons, sum_cons]
    rfl
  have := weight_erase f m a
  omega

theorem card_erase {m : Map α β} (h : m.lookup a = some b) : card (m.erase a) + 1 = card m := by
  have := weight_erase (fun _ _ => 1) m a
  rw [h] at this
  rwa [card_eq_weight, card_eq_weight]

theorem card_insert {m : Map α β} (h : m.lookup a = none) (b : β) : card (m.insert a b) = card m + 1 := by
  have := weight_insert (fun _ _ => 1) m a b
  rw [h] at this
  rwa [card_eq_weight, card_eq_weight]

theorem count_insert_le (m : Map α β) (a : α) (b : β) : count p (m.insert a b) ≤ count p m + 1 := by
  have := weight_insert (fun a b => if p a b then 1 else 0) m a b
  have hle : (if p a b then 1 else 0) ≤ 1 := by split <;> decide
  rw [count_eq_weight, count_eq_weight]
  omega

theorem count_erase_le (m : Map α β) (a : α) : count p (m.erase a) ≤ count p m := by
  have := weight_erase (fun a b => if p a b then 1 else 0) m a
  rw [count_eq_weight, count_eq_weight]
  omega

theorem count_insert_neg_le {p : α → β → Bool} (hp : p a b = false) (m : Map α β) :
    count p (m.insert a b) ≤ count p m := by
  have := weight_insert (fun a b => if p a b then 1 else 0) m a b
  rw [hp] at this
  rw [count_eq_weight, count_eq_weight]
  exact Nat.le_of_add_right_le (le_of_eq this)

theorem length_le_count {p : α → β → Bool} {m : Map α β} {l : List α} (hl : l.Nodup)
    (h : ∀ a ∈ l, ∃ b, m.lookup a = some b ∧ p a b = true) : l.length ≤ count p m := by
  have hsub : l ⊆ (filter p m).entries.keys := by
    intro a ha
    obtain ⟨b, hb, hp⟩ := h a ha
    refine AList.lookup_isSome.mp ?_
    rw [lookup_filter, hb, filter_some_pos hp]
    rfl
  have hle := (subperm_of_subset hl hsub).length_le
  rwa [List.keys, length_map] at hle

end Map

section Tables
variable {α β γ : Type} [DecidableEq α]

/-- The map under the first key. -/
def inner (t : Map α (Map β γ)) (a : α) : Map β γ := (t.lookup a).getD ∅

def size (t : Map α (Map β γ)) : Nat := (t.entries.map fun e => card e.2).sum

/-- Only the entries for which `keep` holds are kept, and the first keys with entries. -/
def sweep (keep : α → β → γ → Bool) (t : Map α (Map β γ)) : Map α (Map β γ) where
  entries := (t.entries.map fun e => (⟨e.1, filter (keep e.1) e.2⟩ : Sigma fun _ : α => Map β γ)).filter
    fun e => !e.2.entries.isEmpty
  nodupKeys := by
    refine List.NodupKeys.sublist filter_sublist ?_
    rw [List.NodupKeys, List.keys, List.map_map]
    exact t.nodupKeys

/-- The entries that `sweep` drops. -/
def swept (keep : α → β → γ → Bool) (t : Map α (Map β γ)) : List (α × β) :=
  t.entries.flatMap fun e => (filter (fun b c => !keep e.1 b c) e.2).entries.map fun x => (e.1, x.1)

variable (t : Map α (Map β γ)) (a : α) (m : Map β γ) (keep : α → β → γ → Bool)

@[simp] theorem inner_insert_self : inner (t.insert a m) a = m := by
  rw [inner, AList.lookup_insert, getD_some]

theorem inner_insert_ne {a a' : α} (h : a' ≠ a) (t : Map α (Map β γ)) (m : Map β γ) :
    inner (t.insert a m) a' = inner t a' := by
  rw [inner, inner, AList.lookup_insert_ne h]

@[simp] theorem inner_erase_self : inner (t.erase a) a = ∅ := by
  rw [inner, AList.lookup_erase, getD_none]

theorem inner_erase_ne {a a' : α} (h : a' ≠ a) (t : Map α (Map β γ)) : inner (t.erase a) a' = inner t a' := by
  rw [inner, inner, AList.lookup_erase_ne h]

theorem card_inner : (t.lookup a).elim 0 card = card (inner t a) := by
  rw [inner]
  cases t.lookup a with
  | none | some m => rfl

theorem size_erase : size (t.erase a) + card (inner t a) = size t := by
  rw [← card_inner]
  exact weight_erase (fun _ m => card m) t a

theorem size_insert : size (t.insert a m) + card (inner t a) = size t + card m := by
  rw [← card_inner]
  exact weight_insert (fun _ m => card m) t a m

theorem inner_sweep (t : Map α (Map β γ)) (a : α) : inner (sweep keep t) a = filter (keep a) (inner t a) := by
  obtain ⟨l, hl⟩ := t
  simp only [inner, AList.lookup, sweep]
  induction l with
  | nil => rfl
  | cons e l ih =>
    obtain ⟨a', m⟩ := e
    obtain ⟨hnotin, hl'⟩ := nodupKeys_cons.mp hl
    rw [map_cons]
    by_cases ha : a = a'
    · subst ha
      rw [dlookup_cons_eq, getD_some]
      by_cases hm : (!(filter (keep a) m).entries.isEmpty) = true
      · rw [filter_cons, if_pos hm, dlookup_cons_eq, getD_some]
      · rw [filter_cons, if_neg hm, ih hl', dlookup_eq_none.mpr hnotin, getD_none]
        have hnil : (filter (keep a) m).entries = [] := by simpa using hm
        exact AList.ext hnil.symm
    · rw [dlookup_cons_ne _ _ ha, ← ih hl']
      by_cases hm : (!(filter (keep a') m).entries.isEmpty) = true
      · rw [filter_cons, if_pos hm, dlookup_cons_ne _ _ ha]
      · rw [filter_cons, if_neg hm]

omit [DecidableEq α] in
theorem size_sweep (t : Map α (Map β γ)) : size (sweep keep t) + (swept keep t).length = size t := by
  simp only [size, sweep, swept]
  induction t.entries with
  | nil => rfl
  | cons e l ih =>
    have hsplit : card (filter (keep e.1) e.2) + card (filter (fun b c => !keep e.1 b c) e.2) = card e.2 := by
      rw [card_eq_weight, card_eq_weight, card_eq_weight]
      exact weight_filter_add _ (keep e.1) e.2
    rw [map_cons, flatMap_cons, length_append, length_map, map_cons, sum_cons]
    by_cases hm : (!(filter (keep e.1) e.2).entries.isEmpty) = true
    · rw [filter_cons, if_pos hm, map_cons, sum_cons]
      simp only [card] at hsplit ih ⊢
      omega
    · have hzero : (filter (keep e.1) e.2).entries.length = 0 := by
        have hnil : (filter (keep e.1) e.2).entries = [] := by simpa using hm
        rw [hnil, length_nil]
      rw [filter_cons, if_neg hm]
      simp only [card] at hsplit ih ⊢
      omega

end Tables
end Table
