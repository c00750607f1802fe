import Whispera.Theorems.Replay

/-! The acceptances of the last `replayWindowSeconds` are in the set, each in the shard of its token
(`Exact`). -/

namespace Whispera
open List Transition

theorem mem_lookup_of_deleteExpired {seen : SeenShard} {token : Bytes} {t now : Int}
    (h : t ∈ (deleteExpired now seen).lookup token) : t ∈ seen.lookup token := by
  rw [AList.mem_lookup_iff] at h ⊢
  exact mem_of_mem_filter h

theorem consume_eq_false_iff {seen : SeenShard} {token : Bytes} {now : Int} :
    (consume seen token now).1 = false ↔ ∃ t ∈ seen.lookup token, now - t < replayWindowSeconds := by
  unfold consume
  split
  · rename_i h
    exact ⟨fun _ => h, fun _ => rfl⟩
  · rename_i h
    exact ⟨nofun, fun h' => absurd h' h⟩

theorem consume_of_false {seen : SeenShard} {token : Bytes} {now : Int} (h : (consume seen token now).1 = false) :
    (consume seen token now).2 = seen := by
  unfold consume
  rw [if_pos (consume_eq_false_iff.mp h)]

theorem mem_lookup_of_consume {seen : SeenShard} {token other : Bytes} {t now : Int}
    (h : t ∈ (consume seen token now).2.lookup other) : other = token ∧ t = now ∨ t ∈ seen.lookup other := by
  unfold consume at h
  split at h
  · exact .inr h
  · have hinsert : t ∈ (seen.insert token now).lookup other := by
      simp only at h
      split at h
      · exact mem_lookup_of_deleteExpired h
      · exact h
    by_cases hother : other = token
    · subst hother
      rw [AList.lookup_insert] at hinsert
      exact .inl ⟨rfl, (Option.some.inj hinsert).symm⟩
    · rw [AList.lookup_insert_ne hother] at hinsert
      exact .inr hinsert

namespace TokenHistory
variable {s s' : TokenHistory} {token : Bytes} {now : Int}

/-- The set has the tokens accepted within the window. -/
structure Exact (s : TokenHistory) : Prop where
  known : ∀ token t, t ∈ (s.set (TokenSeenSet.shardOf token)).lookup token → (token, t) ∈ s.accepted
  kept : ∀ token t, (token, t) ∈ s.accepted →
    t ∈ (s.set (TokenSeenSet.shardOf token)).lookup token ∨ t + replayWindowSeconds ≤ s.now

theorem Exact.consume_eq_false_iff (h : s.Exact) (hnow : s.now ≤ now) :
    (s.set.consume token now).1 = false ↔ ∃ t, (token, t) ∈ s.accepted ∧ now - t < replayWindowSeconds := by
  refine Whispera.consume_eq_false_iff.trans ⟨?_, ?_⟩
  · rintro ⟨t, ht, hlt⟩
    exact ⟨t, h.known token t ht, hlt⟩
  · rintro ⟨t, ht, hlt⟩
    rcases h.kept token t ht with hknown | hold
    · exact ⟨t, hknown, hlt⟩
    · omega

theorem Exact.sweep (h : s.Exact) (hnow : s.now ≤ now) : Exact { s with set := s.set.sweep now, now } where
  known token t ht := h.known token t (mem_lookup_of_deleteExpired ht)
  kept token t ht := by
    rcases h.kept token t ht with hknown | hold
    · exact lookup_deleteExpired now hknown
    · exact .inr (Int.le_trans hold hnow)

theorem Exact.reject (h : s.Exact) (hnow : s.now ≤ now) (hanswer : (s.set.consume token now).1 = false) :
    Exact { s with set := (s.set.consume token now).2, now } := by
  have hset : (s.set.consume token now).2 = s.set := by
    simp only [TokenSeenSet.consume] at hanswer ⊢
    rw [consume_of_false hanswer, Function.update_eq_self]
  rw [hset]
  refine ⟨h.known, fun other t ht => ?_⟩
  rcases h.kept other t ht with hknown | hold
  · exact .inl hknown
  · exact .inr (Int.le_trans hold hnow)

theorem Exact.accept (h : s.Exact) (hnow : s.now ≤ now) (hanswer : (s.set.consume token now).1 = true) :
    Exact { set := (s.set.consume token now).2, accepted := s.accepted ++ [(token, now)], now } := by
  have hshard : consume (s.set (TokenSeenSet.shardOf token)) token now = (true, _) := Prod.ext hanswer rfl
  obtain ⟨hself, -, hkept⟩ := consume_spec hshard
  constructor
  · intro other t ht
    rw [mem_append, mem_singleton]
    by_cases hshard : TokenSeenSet.shardOf other = TokenSeenSet.shardOf token
    · simp only [TokenSeenSet.consume, hshard, Function.update_self] at ht
      rcases mem_lookup_of_consume ht with ⟨rfl, rfl⟩ | hknown
      · exact .inr rfl
      · exact .inl (h.known other t (hshard ▸ hknown))
    · simp only [TokenSeenSet.consume, Function.update_of_ne hshard] at ht
      exact .inl (h.known other t ht)
  · intro other t ht
    rw [mem_append, mem_singleton] at ht
    rcases ht with hbefore | hnew
    · rcases h.kept other t hbefore with hknown | hlong
      · by_cases hshard : TokenSeenSet.shardOf other = TokenSeenSet.shardOf token
        · simp only [TokenSeenSet.consume, hshard, Function.update_self]
          exact hkept other t (hshard ▸ hknown)
        · simp only [TokenSeenSet.consume, Function.update_of_ne hshard]
          exact .inl hknown
      · exact .inr (Int.le_trans hlong hnow)
    · cases hnew
      simp only [TokenSeenSet.consume, Function.update_self]
      exact .inl hself

theorem Exact.step {c : Call} (h : s.Exact) (hs : s.step c = some s') : s'.Exact := by
  cases c with
  | consume token now =>
    simp only [TokenHistory.step] at hs
    split at hs <;> cases hs
    rename_i hnow
    cases hanswer : (s.set.consume token now).1 with
    | false => exact h.reject (Int.not_lt.mp hnow) hanswer
    | true => exact h.accept (Int.not_lt.mp hnow) hanswer
  | sweep now =>
    simp only [TokenHistory.step] at hs
    split at hs <;> cases hs
    rename_i hnow
    exact h.sweep (Int.not_lt.mp hnow)

theorem exact_run {start : Int} {cs : List Call} (h : AnyRun step { now := start } cs s) : s.Exact :=
  h.invariant (fun hex _ hs => hex.step hs) ⟨nofun, nofun⟩

/-- A token is refused exactly if its text was accepted less than `replayWindowSeconds` before. -/
theorem consume_is_exact {start : Int} {cs : List Call} (h : AnyRun step { now := start } cs s) (token : Bytes)
    {now : Int} (hnow : s.now ≤ now) : (s.set.consume token now).1 = false ↔
      ∃ t, (token, t) ∈ s.accepted ∧ now - t < replayWindowSeconds :=
  (exact_run h).consume_eq_false_iff hnow

/-- A token is refused up to the last second of its window, and taken again after it, also after a sweep. -/
theorem token_taken_again : ∃ s, AnyRun step { now := 0 } [.consume [65] 10, .sweep 100] s ∧
    s.accepted = [([65], 10)] ∧ s.now = 100 ∧
    ((s.set.consume [65] 100).1 = false ↔ ∃ t, (([65] : Bytes), t) ∈ s.accepted ∧ 100 - t < replayWindowSeconds) :=
  Run.exists_of_exec (Q := fun s => s.accepted = [([65], 10)] ∧ s.now = 100) (by decide) fun _ hrun hs =>
    ⟨hs.1, hs.2, consume_is_exact hrun [65] (Int.le_of_eq hs.2)⟩

end TokenHistory
end Whispera
