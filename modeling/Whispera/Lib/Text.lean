import Mathlib.Data.List.Basic
import Mathlib.Data.Nat.Digits.Defs

/-! Texts of numbers, and lists of fields with a separator. -/

namespace Text
open List

theorem digitChar_inj {m n : Nat} (hm : m < 16) (hn : n < 16) (h : Nat.digitChar m = Nat.digitChar n) : m = n := by
  have hall : ∀ m n : Fin 16, Nat.digitChar m = Nat.digitChar n → m = n := by decide
  exact congrArg Fin.val (hall ⟨m, hm⟩ ⟨n, hn⟩ h)

theorem mem_toDigits {b n : Nat} (hb : 1 < b) {c : Char} (h : c ∈ Nat.toDigits b n) : ∃ d < b, c = Nat.digitChar d := by
  induction n using Nat.strongRecOn with
  | ind n ih =>
    rw [Nat.toDigits_eq_if hb] at h
    split at h
    · rename_i hlt
      exact ⟨n, hlt, mem_singleton.mp h⟩
    · rename_i hlt
      rcases mem_append.mp h with h | h
      · exact ih (n / b) (Nat.div_lt_self (by omega) hb) h
      · exact ⟨n % b, Nat.mod_lt _ (by omega), mem_singleton.mp h⟩

theorem toDigits_inj {b : Nat} (hb : 1 < b) (hb' : b ≤ 16) {m n : Nat}
    (h : Nat.toDigits b m = Nat.toDigits b n) : m = n := by
  induction m using Nat.strongRecOn generalizing n with
  | ind m ih =>
    rw [Nat.toDigits_eq_if hb, Nat.toDigits_eq_if (n := n) hb] at h
    have hlast : ∀ k, k % b < 16 := fun k => Nat.lt_of_lt_of_le (Nat.mod_lt k (by omega)) hb'
    have hpos : ∀ k, 0 < (Nat.toDigits b k).length := fun k => Nat.length_toDigits_pos
    split at h <;> split at h
    · exact digitChar_inj (by omega) (by omega) (singleton_injective h)
    · have hlen := congrArg length h
      rw [length_append, length_singleton, length_singleton] at hlen
      exact absurd (hpos (n / b)) (by omega)
    · have hlen := congrArg length h
      rw [length_append, length_singleton, length_singleton] at hlen
      exact absurd (hpos (m / b)) (by omega)
    · obtain ⟨hinit, hc⟩ := append_inj' h rfl
      have hmod := digitChar_inj (hlast m) (hlast n) (singleton_injective hc)
      have hdiv := ih (m / b) (Nat.div_lt_self (by omega) hb) hinit
      rw [← Nat.div_add_mod m b, ← Nat.div_add_mod n b, hdiv, hmod]

def itoa : Int → List Char
  | .ofNat n => Nat.toDigits 10 n
  | .negSucc n => '-' :: Nat.toDigits 10 (n + 1)

theorem mem_itoa {n : Int} {c : Char} (h : c ∈ itoa n) : c = '-' ∨ ∃ d < 10, c = Nat.digitChar d := by
  cases n with
  | ofNat n => exact Or.inr (mem_toDigits (by decide) h)
  | negSucc n =>
    rcases mem_cons.mp h with h | h
    · exact Or.inl h
    · exact Or.inr (mem_toDigits (by decide) h)

theorem itoa_inj {m n : Int} (h : itoa m = itoa n) : m = n := by
  have hminus : ∀ {a b : Nat}, Nat.toDigits 10 a ≠ '-' :: Nat.toDigits 10 b := by
    intro a b h
    obtain ⟨d, hd, hc⟩ := mem_toDigits (b := 10) (n := a) (c := '-') (by decide) (by rw [h]; exact mem_cons_self)
    have hall : ∀ d : Fin 10, '-' ≠ Nat.digitChar d := by decide
    exact hall ⟨d, hd⟩ hc
  cases m with
  | ofNat m =>
    cases n with
    | ofNat n => rw [toDigits_inj (by decide) (by decide) h]
    | negSucc n => exact absurd h hminus
  | negSucc m =>
    cases n with
    | ofNat n => exact absurd h.symm hminus
    | negSucc n =>
      have := toDigits_inj (by decide) (by decide) (tail_eq_of_cons_eq h)
      rw [Nat.succ_injective this]

/-- The verb `%0wd`, for a number that is not negative. -/
def zeroPadded (w n : Nat) : List Char := replicate (w - (Nat.toDigits 10 n).length) '0' ++ Nat.toDigits 10 n

/-- The number that decimal digits stand for. -/
def number (cs : List Char) : Nat := cs.foldl (fun a c => a * 10 + (c.toNat - 48)) 0

/-- The digits of a number give it back, whatever tells their values. -/
theorem foldl_toDigits {b : Nat} (hb : 1 < b) {value : Char → Nat}
    (hvalue : ∀ d < b, value (Nat.digitChar d) = d) (n : Nat) :
    (Nat.toDigits b n).foldl (fun a c => a * b + value c) 0 = n := by
  induction n using Nat.strongRecOn with
  | ind n ih =>
    rw [Nat.toDigits_eq_if hb]
    split
    · rename_i hlt
      rw [foldl_cons, foldl_nil, hvalue n hlt, Nat.zero_mul, Nat.zero_add]
    · rw [foldl_append, ih (n / b) (Nat.div_lt_self (by omega) hb), foldl_cons, foldl_nil,
        hvalue _ (Nat.mod_lt n (by omega)), Nat.div_add_mod']

theorem number_toDigits (n : Nat) : number (Nat.toDigits 10 n) = n := by
  have hall : ∀ d : Fin 10, (Nat.digitChar d).toNat - 48 = d := by decide
  exact foldl_toDigits (by decide) (fun d hd => hall ⟨d, hd⟩) n

theorem zeroPadded_inj {w m n : Nat} (h : zeroPadded w m = zeroPadded w n) : m = n := by
  have hzeros : ∀ k, foldl (fun a c => a * 10 + (Char.toNat c - 48)) 0 (replicate k '0') = 0 := by
    intro k
    induction k with
    | zero => rfl
    | succ k ih => exact ih
  have hvalue : ∀ k, number (zeroPadded w k) = k := by
    intro k
    rw [number, zeroPadded, foldl_append, hzeros]
    exact number_toDigits k
  rw [← hvalue m, h, hvalue n]

variable {α : Type} {sep : α}

def join (sep : α) (fields : List (List α)) : List α := [sep].intercalate fields

@[simp] theorem join_nil : join sep [] = [] := rfl

@[simp] theorem join_singleton (x : List α) : join sep [x] = x := by simp [join]

theorem join_cons {x : List α} {l : List (List α)} (h : l ≠ []) : join sep (x :: l) = x ++ sep :: join sep l := by
  cases l with
  | nil => exact absurd rfl h
  | cons y l => simp [join, List.intercalate]

theorem join_append {xs ys : List (List α)} (hx : xs ≠ []) (hy : ys ≠ []) :
    join sep (xs ++ ys) = join sep xs ++ sep :: join sep ys := by
  induction xs with
  | nil => exact absurd rfl hx
  | cons x xs ih =>
    cases xs with
    | nil => simp [join_cons hy]
    | cons y xs =>
      rw [cons_append, join_cons (l := y :: xs ++ ys) (by simp), ih (by simp), join_cons (l := y :: xs) (by simp),
        append_assoc, cons_append]

theorem join_ne_nil {x : List α} (hx : x ≠ []) (l : List (List α)) : join sep (x :: l) ≠ [] := by
  cases l with
  | nil => rwa [join_singleton]
  | cons y l =>
    rw [join_cons (by simp)]
    simp

/-- A word with no separator in it, or the separator itself, that a text of fields begins with. -/
theorem prefix_join {w x : List α} {l : List (List α)} (hw : sep ∈ w → w = [sep]) (hx : x ≠ [])
    (h : w <+: join sep (x :: l)) : w <+: x := by
  cases l with
  | nil => rwa [join_singleton] at h
  | cons y l =>
    rw [join_cons (by simp)] at h
    rcases prefix_or_prefix_of_prefix h (prefix_append x _) with hle | ⟨v, rfl⟩
    · exact hle
    · cases v with
      | nil => simp
      | cons d v =>
        obtain ⟨rfl, -⟩ := cons_prefix_cons.mp ((prefix_append_right_inj x).mp h)
        exact absurd (hw (by simp)) (by cases x <;> simp_all)

theorem suffix_join {w : List α} {l : List (List α)} (hw : sep ∈ w → w = [sep]) (hl : l ≠ []) (hne : ∀ x ∈ l, x ≠ [])
    (h : w <:+ join sep l) : ∃ x ∈ l, w <:+ x := by
  induction l with
  | nil => exact absurd rfl hl
  | cons x l ih =>
    cases l with
    | nil => exact ⟨x, mem_cons_self, by rwa [join_singleton] at h⟩
    | cons y l =>
      have hj : join sep (y :: l) ≠ [] := join_ne_nil (hne y (by simp)) l
      have hsep : ¬sep :: join sep (y :: l) <:+ w := by
        intro hle
        rw [hw (hle.mem mem_cons_self)] at hle
        exact hj (by simpa using hle.length_le)
      rw [join_cons (by simp)] at h
      rcases suffix_or_suffix_of_suffix h (suffix_append x _) with hle | hle
      · rcases suffix_cons_iff.mp hle with rfl | hle
        · exact absurd (suffix_refl _) hsep
        · obtain ⟨z, hz, hzw⟩ := ih (by simp) (fun z hz => hne z (mem_cons_of_mem x hz)) hle
          exact ⟨z, mem_cons_of_mem x hz, hzw⟩
      · exact absurd hle hsep

theorem append_cons_inj [DecidableEq α] {x x' y y' : List α} (hx : sep ∉ x) (hx' : sep ∉ x')
    (h : x ++ sep :: y = x' ++ sep :: y') : x = x' ∧ y = y' := by
  have hhead : x = x' := by
    have := congrArg (List.splitOn sep) h
    rw [splitOn_append_cons_self_of_not_mem hx, splitOn_append_cons_self_of_not_mem hx'] at this
    exact (List.cons.inj this).1
  subst hhead
  exact ⟨rfl, (List.cons.inj (append_cancel_left h)).2⟩

end Text
