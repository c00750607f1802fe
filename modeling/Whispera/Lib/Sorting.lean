import Mathlib.Data.List.Sort
import Mathlib.Order.Bounds.Basic

/-! Go's package `sort`: a slice sorted by a comparison, and the binary search. -/

namespace Sorting
open List

/-- `sort.Slice` by a comparison: no element is less than one before it, and the order of the others is left
    open. -/
structure Slice (α : Type) (less : α → α → Bool) where
  sort : List α → List α
  perm : ∀ l, (sort l).Perm l
  sorted : ∀ l, (sort l).Pairwise fun a b => less b a = false

/-- The sort that moves each element over those that are less than it. -/
def Slice.insertion {α : Type} {less : α → α → Bool} (total : ∀ a b, less b a = false ∨ less a b = false)
    (trans : ∀ a b c, less b a = false → less c b = false → less c a = false) : Slice α less where
  sort := List.insertionSort fun a b => less b a = false
  perm := perm_insertionSort _
  sorted :=
    haveI : Std.Total fun a b => less b a = false := ⟨total⟩
    haveI : IsTrans α fun a b => less b a = false := ⟨trans⟩
    pairwise_insertionSort _

/-- The loop of `sort.Search`, with a bound on its rounds. -/
def searchLoop (f : Nat → Bool) : Nat → Nat → Nat → Nat
  | 0, i, _ => i
  | k + 1, i, j =>
    if i < j then
      let h := (i + j) / 2
      if f h then searchLoop f k i h else searchLoop f k (h + 1) j
    else i

def search (n : Nat) (f : Nat → Bool) : Nat := searchLoop f n 0 n

theorem searchLoop_spec {f : Nat → Bool} {n : Nat} (hmono : ∀ a b, a ≤ b → b < n → f a = true → f b = true) (k : Nat) :
    ∀ {i j : Nat}, i ≤ j → j ≤ n → j ≤ i + k → (∀ a < i, f a = false) → (∀ a, j ≤ a → a < n → f a = true) →
      searchLoop f k i j ≤ n ∧ (∀ a < searchLoop f k i j, f a = false) ∧
        ∀ a, searchLoop f k i j ≤ a → a < n → f a = true := by
  induction k with
  | zero =>
    intro i j hij hjn hfuel hlow hhigh
    exact ⟨hij.trans hjn, hlow, fun a ha => hhigh a (hfuel.trans ha)⟩
  | succ k ih =>
    intro i j hij hjn hfuel hlow hhigh
    rw [searchLoop]
    split
    · rename_i hlt
      have hmid : i ≤ (i + j) / 2 ∧ (i + j) / 2 < j := by omega
      dsimp only
      split
      · rename_i hf
        exact ih hmid.1 (hmid.2.le.trans hjn) (by omega) hlow fun a ha han => hmono _ a ha han hf
      · rename_i hf
        refine ih hmid.2 hjn (by omega) (fun a ha => ?_) hhigh
        by_contra hfa
        exact hf (hmono a _ (Nat.le_of_lt_succ ha) (hmid.2.trans_le hjn) (Bool.not_eq_false _ ▸ hfa))
    · rename_i hge
      exact ⟨hij.trans hjn, hlow, fun a ha => hhigh a ((not_lt.mp hge).trans ha)⟩

theorem getElem?_search {α : Type} {l : List α} {p : α → Bool} (h : l.Pairwise fun a b => p a = true → p b = true) :
    l[search l.length fun i => l[i]?.any p]? = l.find? p := by
  have hmono : ∀ a b, a ≤ b → b < l.length → l[a]?.any p = true → l[b]?.any p = true := by
    intro a b hab hb ha
    rcases Nat.eq_or_lt_of_le hab with rfl | hlt
    · exact ha
    · rw [getElem?_eq_getElem (hlt.trans hb)] at ha
      rw [getElem?_eq_getElem hb]
      exact pairwise_iff_getElem.mp h a b (hlt.trans hb) hb hlt ha
  obtain ⟨hle, hlow, hhigh⟩ := searchLoop_spec hmono l.length (Nat.zero_le _) le_rfl (Nat.le_add_left _ _)
    (fun a ha => absurd ha (Nat.not_lt_zero a)) fun a ha han => absurd han (Nat.not_lt.mpr ha)
  change l[search l.length _]? = _
  rw [← search] at hle hlow hhigh
  generalize search l.length (fun i => l[i]?.any p) = r at hle hlow hhigh ⊢
  symm
  rcases Nat.eq_or_lt_of_le hle with rfl | hlt
  · rw [getElem?_eq_none le_rfl, find?_eq_none]
    intro x hx
    obtain ⟨i, hi, rfl⟩ := getElem_of_mem hx
    have hfalse := hlow i hi
    rw [getElem?_eq_getElem hi] at hfalse
    exact Bool.not_eq_true _ ▸ hfalse
  · rw [getElem?_eq_getElem hlt, find?_eq_some_iff_getElem]
    have htrue := hhigh r le_rfl hlt
    rw [getElem?_eq_getElem hlt] at htrue
    refine ⟨htrue, r, hlt, rfl, fun j hj => ?_⟩
    have hfalse := hlow j hj
    rw [getElem?_eq_getElem (hj.trans hlt)] at hfalse
    exact congrArg (! ·) hfalse

def Least (s : Set Nat) : Option Nat → Prop
  | none => s = ∅
  | some i => IsLeast s i

theorem Least.unique {s : Set Nat} {a b : Option Nat} (ha : Least s a) (hb : Least s b) : a = b := by
  cases a with
  | none =>
    cases b with
    | none => rfl
    | some j => exact absurd hb.1 (Set.eq_empty_iff_forall_notMem.mp ha j)
  | some i =>
    cases b with
    | none => exact absurd ha.1 (Set.eq_empty_iff_forall_notMem.mp hb i)
    | some j => exact congrArg some (IsLeast.unique ha hb)

theorem least_findIdx? {α : Type} (l : List α) (p : α → Bool) :
    Least { i | ∃ x, l[i]? = some x ∧ p x = true } (l.findIdx? p) := by
  cases hfind : l.findIdx? p with
  | none =>
    refine Set.eq_empty_iff_forall_notMem.mpr ?_
    rintro i ⟨x, hx, hp⟩
    exact Bool.false_ne_true ((findIdx?_eq_none_iff.mp hfind x (mem_of_getElem? hx)).symm.trans hp)
  | some i =>
    obtain ⟨hi, hp, hbefore⟩ := findIdx?_eq_some_iff_getElem.mp hfind
    refine ⟨⟨l[i], getElem?_eq_getElem hi, hp⟩, ?_⟩
    rintro j ⟨x, hx, hpx⟩
    by_contra hlt
    obtain ⟨hj, rfl⟩ := List.getElem?_eq_some_iff.mp hx
    exact hbefore j (not_le.mp hlt) hpx

theorem findIdx?_or {α : Type} (l : List α) (p q : α → Bool) :
    l.findIdx? (fun x => p x || q x) = (l.findIdx? p).merge min (l.findIdx? q) := by
  induction l with
  | nil => rfl
  | cons x l ih =>
    simp only [findIdx?_cons, ih]
    cases p x <;> cases q x <;> cases l.findIdx? p <;> cases l.findIdx? q <;> simp [Option.merge]

end Sorting
