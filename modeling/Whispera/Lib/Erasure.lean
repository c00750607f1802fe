import Mathlib.Data.List.Forall2
import Whispera.Lib.Bytes

/-! A code recovers a word if the word comes back from any of its shards that are as many as the data. -/

/-- `k` data shards and `m` parity shards. -/
structure ErasureCode (k m : Nat) where
  parity : List Bytes → List Bytes
  /-- The shards of a word from those that are there. -/
  reconstruct : List (Option Bytes) → Option (List Bytes)
  length_parity : ∀ data, (parity data).length = m
  length_shard : ∀ data n, data ≠ [] → (∀ s ∈ data, s.length = n) → ∀ s ∈ parity data, s.length = n

namespace ErasureCode
open List

/-- Zeros up to length `n`. -/
def pad (n : Nat) (s : Bytes) : Bytes := s ++ replicate (n - s.length) 0

theorem length_pad {n : Nat} {s : Bytes} (h : s.length ≤ n) : (pad n s).length = n := by
  rw [pad, length_append, length_replicate]
  exact Nat.add_sub_of_le h

theorem pad_of_length_le {n : Nat} {s : Bytes} (h : n ≤ s.length) : pad n s = s := by
  rw [pad, Nat.sub_eq_zero_of_le h, replicate_zero, append_nil]

variable {k m : Nat} (code : ErasureCode k m)

def word (data : List Bytes) : List Bytes := data ++ code.parity data

/-- What is there of a word. -/
def PartOf (word : List Bytes) (part : List (Option Bytes)) : Prop :=
  List.Forall₂ (fun s x => x = none ∨ x = some s) word part

theorem PartOf.map {word : List Bytes} {part : List (Option Bytes)} (f : Bytes → Bytes)
    (h : PartOf word part) : PartOf (word.map f) (part.map (Option.map f)) := by
  refine List.forall₂_map_left_iff.mpr (List.forall₂_map_right_iff.mpr (h.imp fun s x hx => ?_))
  rcases hx with rfl | rfl
  · exact Or.inl rfl
  · exact Or.inr rfl

/-- The word of these data comes back from any `k` of its shards. -/
def Recovers (data : List Bytes) : Prop :=
  ∀ part, PartOf (code.word data) part → k ≤ part.countP Option.isSome → code.reconstruct part = some (code.word data)

instance (word : List Bytes) (part : List (Option Bytes)) : Decidable (PartOf word part) :=
  inferInstanceAs (Decidable (List.Forall₂ _ _ _))

def ofWord (data parity : List Bytes) (hlen : parity.length = m)
    (hshards : ∀ d ∈ data, ∀ s ∈ parity, s.length = d.length) : ErasureCode k m where
  parity other := if other = data then parity else replicate m (other.headD [])
  reconstruct part := if PartOf (data ++ parity) part then some (data ++ parity) else none
  length_parity other := by split <;> simp [hlen]
  length_shard other n hne hn s hs := by
    obtain ⟨d, hd⟩ := exists_mem_of_ne_nil other hne
    split at hs
    · rename_i heq
      rw [hshards d (heq ▸ hd) s hs, hn d hd]
    · rw [eq_of_mem_replicate hs]
      cases other with
      | nil => exact absurd rfl hne
      | cons x other => exact hn x mem_cons_self

theorem recovers_ofWord {data parity : List Bytes} (hlen : parity.length = m)
    (hshards : ∀ d ∈ data, ∀ s ∈ parity, s.length = d.length) :
    (ofWord data parity hlen hshards : ErasureCode k m).Recovers data := by
  intro part hpart _
  have hword : (ofWord data parity hlen hshards : ErasureCode k m).word data = data ++ parity := by
    simp only [word, ofWord, if_pos]
  rw [hword] at hpart ⊢
  exact if_pos hpart

end ErasureCode
