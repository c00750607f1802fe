import Whispera.Lib.Exec

/-! A Go slice can be extended up to the end of its array, and what is beyond its length stays as it was. -/

structure Slice (α : Type) where
  array : List α
  len : Nat
  fits : len ≤ array.length

namespace Slice
open List Exec

variable {α : Type}

def cap (s : Slice α) : Nat := s.array.length

/-- What the slice shows. -/
def elems (s : Slice α) : List α := s.array.take s.len

def ofList (l : List α) : Slice α := ⟨l, l.length, le_rfl⟩

/-- The slice of another length. -/
def resized (s : Slice α) (n : Nat) (h : n ≤ s.cap) : Slice α := ⟨s.array, n, h⟩

/-- `s[:n]`. -/
def upTo (s : Slice α) (n : Nat) : Exec (Slice α) := if h : n ≤ s.cap then ret (s.resized n h) else panic

/-- `s[i] = x`. -/
def store (s : Slice α) (i : Nat) (x : α) : Exec (Slice α) :=
  if i < s.len then ret ⟨s.array.set i x, s.len, by rw [length_set]; exact s.fits⟩ else panic

/-- The array with `src` at `lo`. -/
def overlay (l : List α) (lo : Nat) (src : List α) : List α := l.take lo ++ src ++ l.drop (lo + src.length)

variable {l src : List α} {lo hi : Nat} {s : Slice α}

theorem length_overlay {lo : Nat} (h : lo + src.length ≤ l.length) : (overlay l lo src).length = l.length := by
  simp only [overlay, length_append, length_take, length_drop]
  omega

theorem length_overlay_take (s : Slice α) (src : List α) (h : lo ≤ hi ∧ hi ≤ s.cap) :
    (overlay s.array lo (src.take (hi - lo))).length = s.cap := by
  refine length_overlay (Nat.le_trans (Nat.add_le_add_left (length_take_le _ _) lo) ?_)
  rw [Nat.add_sub_of_le h.1]
  exact h.2

/-- `copy(s[lo:hi], src)`. -/
def copyAt (s : Slice α) (lo hi : Nat) (src : List α) : Exec (Slice α) :=
  if h : lo ≤ hi ∧ hi ≤ s.cap then
    ret ⟨overlay s.array lo (src.take (hi - lo)), s.len, (s.length_overlay_take src h).symm ▸ s.fits⟩
  else panic

/-- `s[lo:hi]`, to be read. -/
def part (s : Slice α) (lo hi : Nat) : Exec (List α) :=
  if lo ≤ hi ∧ hi ≤ s.cap then ret ((s.array.drop lo).take (hi - lo)) else panic

@[simp] theorem length_elems (s : Slice α) : s.elems.length = s.len := length_take_of_le s.fits

theorem returns_upTo {n : Nat} (h : n ≤ s.cap) : Returns (s.upTo n) fun t => t.len = n ∧ t.cap = s.cap := by
  rw [upTo, dif_pos h]
  exact returns_ret.mpr ⟨rfl, rfl⟩

theorem returns_store {i : Nat} (x : α) (h : i < s.len) :
    Returns (s.store i x) fun t => t.len = s.len ∧ t.cap = s.cap := by
  rw [store, if_pos h, returns_ret]
  exact ⟨rfl, length_set⟩

theorem returns_copyAt (src : List α) (hle : lo ≤ hi) (hhi : hi ≤ s.len) :
    Returns (s.copyAt lo hi src) fun t => t.len = s.len ∧ t.cap = s.cap := by
  have hrange : lo ≤ hi ∧ hi ≤ s.cap := ⟨hle, Nat.le_trans hhi s.fits⟩
  rw [copyAt, dif_pos hrange, returns_ret]
  exact ⟨rfl, s.length_overlay_take src hrange⟩

theorem returns_part (hle : lo ≤ hi) (h : hi ≤ s.len) : Returns (s.part lo hi) fun _ => True := by
  rw [part, if_pos ⟨hle, Nat.le_trans h s.fits⟩, returns_ret]
  trivial

end Slice
