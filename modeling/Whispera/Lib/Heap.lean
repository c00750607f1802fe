import Mathlib.Order.Lattice
import Mathlib.Order.Nat
import Mathlib.Data.List.Perm.Basic

/-! Go's `container/heap` on a slice whose elements are compared by `<`. -/

namespace Heap
open List

variable {α : Type} [LinearOrder α] [Inhabited α]

def parent (j : Nat) : Nat := (j - 1) / 2

/-- `up`, with a bound on its rounds. -/
def up : Nat → Array α → Nat → Array α
  | 0, a, _ => a
  | k + 1, a, j =>
    let i := parent j
    if i = j ∨ ¬a[j]! < a[i]! then a else up k (a.swapIfInBounds i j) i

/-- `down`, with a bound on its rounds. -/
def down : Nat → Array α → Nat → Nat → Array α
  | 0, a, _, _ => a
  | k + 1, a, i, n =>
    let j1 := 2 * i + 1
    if n ≤ j1 then a
    else
      let j := if j1 + 1 < n ∧ a[j1 + 1]! < a[j1]! then j1 + 1 else j1
      if ¬a[j]! < a[i]! then a else down k (a.swapIfInBounds i j) j n

def push (a : Array α) (x : α) : Array α := up (a.size + 1) (a.push x) a.size

def pop (a : Array α) : α × Array α :=
  let n := a.size - 1
  let b := down a.size (a.swapIfInBounds 0 n) 0 n
  (b[n]!, b.pop)

def Ordered (a : Array α) (n : Nat) : Prop := ∀ j, 0 < j → j < n → a[parent j]! ≤ a[j]!

abbrev IsHeap (a : Array α) : Prop := Ordered a a.size

theorem parent_lt {j : Nat} (h : 0 < j) : parent j < j := by
  unfold parent
  omega

theorem parent_cases {j : Nat} (h : 0 < j) : j = 2 * parent j + 1 ∨ j = 2 * parent j + 2 := by
  unfold parent
  omega

theorem parent_left (i : Nat) : parent (2 * i + 1) = i := by
  unfold parent
  omega

theorem parent_right (i : Nat) : parent (2 * i + 1 + 1) = i := by
  unfold parent
  omega

section
variable {a : Array α} {i j k n : Nat}

omit [LinearOrder α] in
theorem getElem!_swap (hi : i < a.size) (hj : j < a.size) (k : Nat) :
    (a.swapIfInBounds i j)[k]! = if k = i then a[j]! else if k = j then a[i]! else a[k]! := by
  grind

theorem Ordered.root_le (h : Ordered a n) (hj : j < n) : a[0]! ≤ a[j]! := by
  induction j using Nat.strongRecOn with
  | ind j ih =>
    rcases Nat.eq_zero_or_pos j with rfl | hpos
    · exact le_refl _
    · have hlt := parent_lt hpos
      exact (ih (parent j) hlt (hlt.trans hj)).trans (h j hpos hj)

theorem IsHeap.root_le_mem (h : IsHeap a) {x : α} (hx : x ∈ a.toList) : a[0]! ≤ x := by
  obtain ⟨j, hj, rfl⟩ := getElem_of_mem hx
  have hle := Ordered.root_le h (Array.length_toList ▸ hj)
  rwa [getElem!_pos a j (Array.length_toList ▸ hj)] at hle

/-- The order, but for the element at `j` and its parent. -/
structure UpOrder (a : Array α) (j : Nat) : Prop where
  lt : j < a.size
  others : ∀ k, 0 < k → k < a.size → k ≠ j → a[parent k]! ≤ a[k]!
  below : ∀ k, 0 < k → k < a.size → parent k = j → 0 < j → a[parent j]! ≤ a[k]!

theorem UpOrder.ordered (h : UpOrder a j) (hj : 0 < j → a[parent j]! ≤ a[j]!) : IsHeap a := by
  intro k hk hlt
  by_cases hkj : k = j
  · subst hkj
    exact hj hk
  · exact h.others k hk hlt hkj

theorem UpOrder.swap (h : UpOrder a j) (hj : 0 < j) (hless : a[j]! < a[parent j]!) :
    UpOrder (a.swapIfInBounds (parent j) j) (parent j) := by
  have hlt := parent_lt hj
  have hget := getElem!_swap (hlt.trans h.lt) h.lt
  have hsize : (a.swapIfInBounds (parent j) j).size = a.size := Array.size_swapIfInBounds
  refine ⟨hsize ▸ hlt.trans h.lt, fun k hk hsz hne => ?_, fun k hk hsz hparent hpos => ?_⟩
  · rw [hsize] at hsz
    rw [hget, hget, if_neg hne]
    by_cases hkj : k = j
    · subst hkj
      rw [if_pos rfl, if_pos rfl]
      exact hless.le
    · rw [if_neg hkj]
      have hk' := h.others k hk hsz hkj
      by_cases hpp : parent k = parent j
      · rw [if_pos hpp]
        rw [hpp] at hk'
        exact hless.le.trans hk'
      · rw [if_neg hpp]
        by_cases hpj : parent k = j
        · rw [if_pos hpj]
          exact h.below k hk hsz hpj hj
        · rwa [if_neg hpj]
  · rw [hsize] at hsz
    have hup := parent_lt hpos
    have hgrand := h.others (parent j) hpos (hlt.trans h.lt) hlt.ne
    rw [hget, hget, if_neg hup.ne, if_neg (hup.trans hlt).ne]
    have hkp : k ≠ parent j := by
      have := parent_lt hk
      omega
    rw [if_neg hkp]
    by_cases hkj : k = j
    · rwa [if_pos hkj]
    · rw [if_neg hkj]
      have hk' := h.others k hk hsz hkj
      rw [hparent] at hk'
      exact hgrand.trans hk'

theorem up_spec (k : Nat) : ∀ {a : Array α} {j : Nat}, UpOrder a j → j < k →
    IsHeap (up k a j) ∧ (up k a j).toList.Perm a.toList := by
  induction k with
  | zero => exact fun _ hj => absurd hj (Nat.not_lt_zero _)
  | succ k ih =>
    intro a j h hj
    rw [up]
    split
    · rename_i hstop
      refine ⟨h.ordered fun hpos => ?_, Perm.refl _⟩
      rcases hstop with heq | hle
      · exact absurd heq (parent_lt hpos).ne
      · exact not_lt.mp hle
    · rename_i hgo
      obtain ⟨hne, hless⟩ := not_or.mp hgo
      have hpos : 0 < j := Nat.pos_of_ne_zero fun h0 => hne (h0 ▸ rfl)
      have hlt := parent_lt hpos
      obtain ⟨hheap, hperm⟩ := ih (h.swap hpos (not_not.mp hless)) (by omega)
      refine ⟨hheap, hperm.trans ?_⟩
      rw [Array.swapIfInBounds_def, dif_pos (hlt.trans h.lt), dif_pos h.lt]
      exact (Array.swap_perm (hlt.trans h.lt) h.lt).toList

theorem push_spec (h : IsHeap a) (x : α) : IsHeap (push a x) ∧ (push a x).toList.Perm (x :: a.toList) := by
  have hget : ∀ k < a.size, (a.push x)[k]! = a[k]! := by grind
  have hready : UpOrder (a.push x) a.size := by
    refine ⟨by simp, fun k hk hsz hne => ?_, fun k hk hsz hparent => ?_⟩
    · rw [Array.size_push] at hsz
      have hlt := parent_lt hk
      rw [hget k (by omega), hget _ (by omega)]
      exact h k hk (by omega)
    · rw [Array.size_push] at hsz
      have := parent_lt hk
      omega
  obtain ⟨hheap, hperm⟩ := up_spec _ hready (Nat.lt_succ_self _)
  refine ⟨hheap, hperm.trans ?_⟩
  rw [Array.toList_push]
  exact perm_append_singleton x a.toList

/-- The order of the first `n` elements, but for the element at `i` and its children. -/
structure DownOrder (a : Array α) (i n : Nat) : Prop where
  others : ∀ k, 0 < k → k < n → parent k ≠ i → a[parent k]! ≤ a[k]!
  below : ∀ k, 0 < k → k < n → parent k = i → 0 < i → a[parent i]! ≤ a[k]!

/-- The element at `j` is the least of the children of `i`. -/
structure LeastChild (a : Array α) (i j n : Nat) : Prop where
  lt : j < n
  pos : 0 < j
  parent_eq : parent j = i
  le : ∀ k, 0 < k → k < n → parent k = i → a[j]! ≤ a[k]!

theorem leastChild (h : 2 * i + 1 < n) :
    LeastChild a i (if 2 * i + 1 + 1 < n ∧ a[2 * i + 1 + 1]! < a[2 * i + 1]! then 2 * i + 1 + 1 else 2 * i + 1) n := by
  split
  · rename_i hright
    refine ⟨hright.1, Nat.succ_pos _, parent_right i, fun k hk hlt hparent => ?_⟩
    rcases parent_cases hk with hk' | hk' <;> rw [hparent] at hk' <;> rw [hk']
    exact hright.2.le
  · rename_i hleft
    refine ⟨h, Nat.succ_pos _, parent_left i, fun k hk hlt hparent => ?_⟩
    rcases parent_cases hk with hk' | hk' <;> rw [hparent] at hk' <;> rw [hk']
    exact not_lt.mp fun hless => hleft ⟨by omega, hless⟩

theorem DownOrder.ordered (h : DownOrder a i n) (hi : ∀ k, 0 < k → k < n → parent k = i → a[i]! ≤ a[k]!) :
    Ordered a n := by
  intro k hk hlt
  by_cases hparent : parent k = i
  · rw [hparent]
    exact hi k hk hlt hparent
  · exact h.others k hk hlt hparent

theorem DownOrder.swap (h : DownOrder a i n) (hn : n ≤ a.size) (hj : LeastChild a i j n) (hless : a[j]! < a[i]!) :
    DownOrder (a.swapIfInBounds i j) j n := by
  have hij : i < j := hj.parent_eq ▸ parent_lt hj.pos
  have hget := getElem!_swap (a := a) (hij.trans_le (hj.lt.le.trans hn)) (hj.lt.trans_le hn)
  refine ⟨fun k hk hlt hne => ?_, fun k hk hlt hparent _ => ?_⟩
  · rw [hget, hget, if_neg hne]
    by_cases hki : k = i
    · subst hki
      have hpk := parent_lt hk
      rw [if_neg hpk.ne, if_pos rfl]
      exact h.below j hj.pos hj.lt hj.parent_eq hk
    · rw [if_neg hki]
      by_cases hpi : parent k = i
      · rw [if_pos hpi]
        split
        · exact hless.le
        · exact hj.le k hk hlt hpi
      · rw [if_neg hpi]
        have hkj : k ≠ j := fun heq => hpi (heq ▸ hj.parent_eq)
        rw [if_neg hkj]
        exact h.others k hk hlt hpi
  · have hjk : j < k := hparent ▸ parent_lt hk
    rw [hget, hget, hj.parent_eq, if_pos rfl, if_neg (hij.trans hjk).ne', if_neg hjk.ne']
    have hk' := h.others k hk hlt (hparent ▸ hij.ne')
    rwa [hparent] at hk'

theorem down_spec (k : Nat) : ∀ {a : Array α} {i n : Nat}, DownOrder a i n → n ≤ a.size → n ≤ i + k →
    Ordered (down k a i n) n ∧ (down k a i n).toList.Perm a.toList ∧
      ∀ j, n ≤ j → (down k a i n)[j]! = a[j]! := by
  induction k with
  | zero =>
    intro a i n h _ hfuel
    refine ⟨h.ordered fun k hk hlt hparent => ?_, Perm.refl _, fun _ _ => rfl⟩
    have := parent_lt hk
    omega
  | succ k ih =>
    intro a i n h hn hfuel
    rw [down]
    dsimp only
    split
    · refine ⟨h.ordered fun k hk hlt hparent => ?_, Perm.refl _, fun _ _ => rfl⟩
      rcases parent_cases hk with hk' | hk' <;> omega
    · rename_i hchild
      have hleast := leastChild (a := a) (not_le.mp hchild)
      generalize (if 2 * i + 1 + 1 < n ∧ a[2 * i + 1 + 1]! < a[2 * i + 1]! then 2 * i + 1 + 1
        else 2 * i + 1) = j at hleast ⊢
      split
      · rename_i hstop
        refine ⟨h.ordered fun k hk hlt hparent => ?_, Perm.refl _, fun _ _ => rfl⟩
        exact (not_lt.mp hstop).trans (hleast.le k hk hlt hparent)
      · rename_i hgo
        have hij : i < j := hleast.parent_eq ▸ parent_lt hleast.pos
        have hi : i < a.size := hij.trans_le (hleast.lt.le.trans hn)
        have hj : j < a.size := hleast.lt.trans_le hn
        obtain ⟨hheap, hperm, hrest⟩ :=
          ih (h.swap hn hleast (not_not.mp hgo)) (by rwa [Array.size_swapIfInBounds]) (by omega)
        refine ⟨hheap, hperm.trans ?_, fun l hl => ?_⟩
        · rw [Array.swapIfInBounds_def, dif_pos hi, dif_pos hj]
          exact (Array.swap_perm hi hj).toList
        · have := hleast.lt
          rw [hrest l hl, getElem!_swap hi hj, if_neg (by omega), if_neg (by omega)]

omit [LinearOrder α] in
theorem toList_eq_pop {b : Array α} (h : 0 < b.size) : b.toList = b.pop.toList ++ [b[b.size - 1]!] := by
  have hne : b.toList ≠ [] := ne_nil_of_length_pos h
  have hlast : b.toList.getLast hne = b[b.size - 1]! := by
    rw [getLast_eq_getElem, getElem!_pos b _ (Nat.sub_lt h Nat.one_pos)]
    rfl
  rw [Array.toList_pop, ← hlast, dropLast_append_getLast]

theorem pop_spec (h : IsHeap a) (hne : 0 < a.size) :
    (pop a).1 = a[0]! ∧ IsHeap (pop a).2 ∧ (a[0]! :: (pop a).2.toList).Perm a.toList := by
  have hlast : a.size - 1 < a.size := by omega
  have hget := getElem!_swap (a := a) hne hlast
  have hready : DownOrder (a.swapIfInBounds 0 (a.size - 1)) 0 (a.size - 1) := by
    refine ⟨fun k hk hlt hparent => ?_, fun _ _ _ _ hpos => absurd hpos (lt_irrefl 0)⟩
    have hpk := parent_lt hk
    rw [hget, hget, if_neg hparent, if_neg (by omega), if_neg (by omega), if_neg (by omega)]
    exact h k hk (by omega)
  obtain ⟨hheap, hperm, hrest⟩ := down_spec a.size hready (by rw [Array.size_swapIfInBounds]; omega) (by omega)
  have hroot : (pop a).1 = a[0]! := by
    refine (hrest _ le_rfl).trans ?_
    rw [hget, if_pos rfl]
    split
    · rename_i h1
      rw [h1]
    · rfl
  have hperm : (down a.size (a.swapIfInBounds 0 (a.size - 1)) 0 (a.size - 1)).toList.Perm a.toList := by
    refine hperm.trans ?_
    rw [Array.swapIfInBounds_def, dif_pos hne, dif_pos hlast]
    exact (Array.swap_perm hne hlast).toList
  generalize hb : down a.size (a.swapIfInBounds 0 (a.size - 1)) 0 (a.size - 1) = b at hheap hperm
  have hpop : (pop a) = (b[a.size - 1]!, b.pop) := by
    rw [← hb]
    rfl
  have hsize : b.size = a.size := hperm.length_eq
  rw [hpop] at hroot ⊢
  refine ⟨hroot, fun j hj hlt => ?_, ?_⟩
  · have hpj := parent_lt hj
    rw [Array.size_pop] at hlt
    have hget : ∀ k < b.size - 1, b.pop[k]! = b[k]! := by grind
    rw [hget j hlt, hget _ (hpj.trans hlt)]
    exact hheap j hj (hsize ▸ hlt)
  · rw [toList_eq_pop (hsize ▸ hne), hsize] at hperm
    rw [← hroot]
    exact (perm_append_singleton _ _).symm.trans hperm

end

end Heap
