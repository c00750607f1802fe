import Mathlib.Data.Int.Basic

/-! A Go program returns a value or an error, or it does not return: an index out of range panics, and a loop
may go on for longer than the rounds that it is given. Integers are those of 64 bits. -/

/-- The outcome of a program. -/
inductive Exec (α : Type)
  | ret (a : α)
  | err (msg : String)
  | panic
  | endless
  deriving DecidableEq, Repr

namespace Exec
open List

variable {α β σ : Type}

def andThen (m : Exec α) (f : α → Exec β) : Exec β :=
  match m with
  | ret a => f a
  | err msg => err msg
  | panic => panic
  | endless => endless

instance : Monad Exec where
  pure := ret
  bind := andThen

instance : LawfulMonad Exec := LawfulMonad.mk' Exec
  (fun m => by cases m <;> rfl)
  (fun _ _ => rfl)
  (fun m _ _ => by cases m <;> rfl)

@[simp] theorem pure_eq (a : α) : (pure a : Exec α) = ret a := rfl

@[simp] theorem ret_bind (a : α) (f : α → Exec β) : (ret a >>= f) = f a := rfl

@[simp] theorem panic_bind (f : α → Exec β) : (panic >>= f) = panic := rfl

/-- `if c { return errors.New(msg) }`. -/
def failIf (c : Prop) [Decidable c] (msg : String) : Exec Unit := if c then err msg else ret ()

/-- A call whose error the caller looks at: nothing, if there was one. -/
def attempt (m : Exec α) : Exec (Option α) :=
  match m with
  | ret a => ret (some a)
  | err _ => ret none
  | panic => panic
  | endless => endless

/-- `b[i]`. -/
def index (b : List α) (i : Int) : Exec α :=
  match if 0 ≤ i then b[i.toNat]? else none with
  | some x => ret x
  | none => panic

/-- `b[lo:hi]`, for a slice without spare capacity. -/
def slice (b : List α) (lo hi : Int) : Exec (List α) :=
  if 0 ≤ lo ∧ lo ≤ hi ∧ hi ≤ b.length then ret ((b.drop lo.toNat).take (hi - lo).toNat) else panic

/-- `b[i] = f(b[i])`. -/
def modify (b : List α) (i : Int) (f : α → α) : Exec (List α) := index b i >>= fun x => ret (b.set i.toNat (f x))

/-- `copy(b[lo:hi], src)`. -/
def copyInto (b : List α) (lo hi : Int) (src : List α) : Exec (List α) :=
  slice b lo hi >>= fun dst =>
    let n := min dst.length src.length
    ret (b.take lo.toNat ++ src.take n ++ b.drop (lo.toNat + n))

/-- A loop, with the rounds that it is given: its body goes on with a state, or ends with a value. -/
def loop (body : σ → Exec (σ ⊕ α)) : Nat → σ → Exec α
  | 0, _ => endless
  | n + 1, s => body s >>= fun r =>
    match r with
    | .inl t => loop body n t
    | .inr a => ret a

variable {body : σ → Exec (σ ⊕ α)} {a : α} {Q : α → Prop} {m : Exec α} {P : α → Prop} (msg : String)
  {b : List α} {n : Nat}
variable {x : α} {i : Int} {lo hi : Int} (f : α → α) {I : σ → Prop}

theorem loop_next {s t : σ} (n : Nat) (h : body s = ret (.inl t)) : loop body (n + 1) s = loop body n t := by
  rw [loop, h, ret_bind]

theorem loop_end {s : σ} (n : Nat) (h : body s = ret (.inr a)) : loop body (n + 1) s = ret a := by
  rw [loop, h, ret_bind]

/-- The program returns, and its value satisfies `Q` if it returns one. -/
def Safe (m : Exec α) (Q : α → Prop) : Prop :=
  match m with
  | ret a => Q a
  | err _ => True
  | panic => False
  | endless => False

@[simp] theorem safe_ret : Safe (ret a) Q ↔ Q a := Iff.rfl

@[simp] theorem safe_err {msg : String} : Safe (err msg) Q := trivial

theorem Safe.mono {P Q : α → Prop} (h : Safe m P) (hPQ : ∀ a, P a → Q a) : Safe m Q := by
  cases m with
  | ret a => exact hPQ a h
  | err msg => trivial
  | panic | endless => exact h

theorem Safe.bind {f : α → Exec β} {Q : β → Prop} (h : Safe m P) (hf : ∀ a, P a → Safe (f a) Q) : Safe (m >>= f) Q := by
  cases m with
  | ret a => exact hf a h
  | err msg => trivial
  | panic | endless => exact h

theorem safe_failIf (c : Prop) [Decidable c] (msg : String) : Safe (failIf c msg) fun _ => ¬c := by
  by_cases h : c
  · rw [failIf, if_pos h]
    exact safe_err
  · rw [failIf, if_neg h]
    exact h

theorem failIf_of_not {c : Prop} [Decidable c] (h : ¬c) : failIf c msg = ret () := if_neg h

theorem safe_attempt (h : Safe m Q) : Safe (attempt m) fun r => ∀ a, r = some a → Q a := by
  cases m with
  | ret a =>
    rintro b ⟨⟩
    exact h
  | err msg => nofun
  | panic | endless => exact h

theorem index_eq (h : b[n]? = some x) : index b n = ret x := by
  simp [index, h]

theorem safe_index (h0 : 0 ≤ i) (h : i < b.length) : Safe (index b i) (· ∈ b) := by
  obtain ⟨n, rfl⟩ := Int.eq_ofNat_of_zero_le h0
  have hn : n < b.length := by omega
  rw [index_eq (getElem?_eq_getElem hn)]
  exact getElem_mem hn

theorem slice_eq {lo hi : Nat} (hle : lo ≤ hi) (h : hi ≤ b.length) :
    slice b lo hi = ret ((b.drop lo).take (hi - lo)) := by
  rw [slice, if_pos (by omega), Int.toNat_natCast, show ((hi : Int) - lo).toNat = hi - lo by omega]

theorem index_at {p a b : List α} (hp : p = a ++ x :: b) (h : i = a.length) : index p i = ret x := by
  subst hp h
  exact index_eq (by simp)

theorem slice_at {p a b c : List α} (hp : p = a ++ (b ++ c)) (hlo : lo = a.length)
    (hhi : hi = a.length + b.length) : slice p lo hi = ret b := by
  subst hp hlo hhi
  rw [← Int.natCast_add, slice_eq (by omega) (by simp)]
  simp

theorem slice_from {p a b : List α} {lo : Int} (hp : p = a ++ b) (hlo : lo = a.length) :
    slice p lo p.length = ret b := by
  subst hp hlo
  rw [slice_eq (by simp) (Nat.le_refl _)]
  simp

theorem safe_slice (h0 : 0 ≤ lo) (hle : lo ≤ hi) (h : hi ≤ b.length) :
    Safe (slice b lo hi) fun s => (s.length : Int) = hi - lo := by
  rw [slice, if_pos ⟨h0, hle, h⟩]
  simp only [safe_ret, length_take, length_drop]
  omega

theorem safe_index_bind {f : α → Exec β} {Q : β → Prop} (hf : ∀ x ∈ b, Safe (f x) Q) (h0 : 0 ≤ i := by omega)
    (h : i < b.length := by omega) : Safe (index b i >>= f) Q :=
  (safe_index h0 h).bind hf

theorem safe_slice_bind {f : List α → Exec β} {Q : β → Prop}
    (hf : ∀ s : List α, (s.length : Int) = hi - lo → Safe (f s) Q)
    (h0 : 0 ≤ lo := by omega) (hle : lo ≤ hi := by omega)
    (h : hi ≤ b.length := by omega) : Safe (slice b lo hi >>= f) Q :=
  (safe_slice h0 hle h).bind hf

theorem modify_eq (h : b[n]? = some x) : modify b n f = ret (b.set n (f x)) := by
  simp [modify, index_eq h]

theorem modify_at {p a b : List α} (hp : p = a ++ x :: b) (h : i = a.length) : modify p i f = ret (a ++ f x :: b) := by
  subst hp h
  have hx : (a ++ x :: b)[a.length]? = some x := by simp
  rw [modify_eq f hx]
  simp

theorem safe_modify (h0 : 0 ≤ i) (h : i < b.length) : Safe (modify b i f) fun c => c.length = b.length :=
  (safe_index h0 h).bind fun _ _ => length_set

theorem copyInto_at {p a b c src : List α} (hp : p = a ++ (b ++ c)) (hlo : lo = a.length)
    (hhi : hi = a.length + b.length) (hsrc : src.length = b.length) : copyInto p lo hi src = ret (a ++ (src ++ c)) := by
  rw [copyInto, slice_at hp hlo hhi, ret_bind, hsrc, Nat.min_self, hp, hlo]
  simp [← hsrc]

theorem safe_copyInto {b src : List α} (h0 : 0 ≤ lo) (hle : lo ≤ hi) (h : hi ≤ b.length) :
    Safe (copyInto b lo hi src) fun c => c.length = b.length := by
  refine (safe_slice h0 hle h).bind fun dst hdst => ?_
  simp only [safe_ret, length_append, length_take, length_drop]
  omega

theorem safe_mapM {f : α → Exec β} {l : List α} (h : ∀ a ∈ l, Safe (f a) fun _ => True) :
    Safe (l.mapM f) fun bs => bs.length = l.length := by
  induction l with
  | nil => rfl
  | cons a l ih =>
    rw [mapM_cons]
    refine (h a mem_cons_self).bind fun b _ => ?_
    refine (ih fun a ha => h a (mem_cons_of_mem _ ha)).bind fun bs hbs => ?_
    simp [hbs]

/-- A loop whose rounds keep `I` and lower `m` ends as `W` says, if `V` of a round and `W` of what comes after
    it give `W` of both. -/
theorem loop_ends {m : σ → Nat} {V : Exec (σ ⊕ α) → (σ ⊕ α → Prop) → Prop} {W : Exec α → Prop}
    (hbind : ∀ {x P f}, V x P → (∀ r, P r → W (f r)) → W (x >>= f)) (hret : ∀ a, Q a → W (ret a))
    (hbody : ∀ s, I s → V (body s) fun r => (∀ t, r = .inl t → I t ∧ m t < m s) ∧ ∀ a, r = .inr a → Q a) :
    ∀ n s, I s → m s < n → W (loop body n s) := by
  intro n
  induction n with
  | zero =>
    intro s _ hn
    exact absurd hn (Nat.not_lt_zero _)
  | succ n ih =>
    intro s hs hn
    refine hbind (hbody s hs) fun r hr => ?_
    cases r with
    | inl t =>
      obtain ⟨ht, hlt⟩ := hr.1 t rfl
      exact ih t ht (by omega)
    | inr a => exact hret a (hr.2 a rfl)

theorem safe_loop {m : σ → Nat} (hbody : ∀ s, I s → Safe (body s) fun r =>
      (∀ t, r = .inl t → I t ∧ m t < m s) ∧ ∀ a, r = .inr a → Q a) :
    ∀ n s, I s → m s < n → Safe (loop body n s) Q :=
  loop_ends (W := (Safe · Q)) Safe.bind (fun _ h => h) hbody

/-- The program returns a value, and it satisfies `Q`. -/
def Returns (m : Exec α) (Q : α → Prop) : Prop := ∃ a, m = ret a ∧ Q a

@[simp] theorem returns_ret : Returns (ret a) Q ↔ Q a := by
  constructor
  · rintro ⟨b, hb, hQ⟩
    cases hb
    exact hQ
  · intro h
    exact ⟨a, rfl, h⟩

theorem Returns.mono {P Q : α → Prop} (h : Returns m P) (hPQ : ∀ a, P a → Q a) : Returns m Q := by
  obtain ⟨a, rfl, ha⟩ := h
  exact ⟨a, rfl, hPQ a ha⟩

theorem Returns.bind {f : α → Exec β} {Q : β → Prop} (h : Returns m P)
    (hf : ∀ a, P a → Returns (f a) Q) : Returns (m >>= f) Q := by
  obtain ⟨a, rfl, ha⟩ := h
  exact hf a ha

theorem returns_index (h0 : 0 ≤ i) (h : i < b.length) : Returns (index b i) fun x => b[i.toNat]? = some x := by
  obtain ⟨n, rfl⟩ := Int.eq_ofNat_of_zero_le h0
  have hn : n < b.length := by omega
  exact ⟨_, index_eq (getElem?_eq_getElem hn), getElem?_eq_getElem hn⟩

theorem returns_loop {m : σ → Nat} (hbody : ∀ s, I s → Returns (body s) fun r =>
      (∀ t, r = .inl t → I t ∧ m t < m s) ∧ ∀ a, r = .inr a → Q a) :
    ∀ n s, I s → m s < n → Returns (loop body n s) Q :=
  loop_ends (W := (Returns · Q)) Returns.bind (fun _ => returns_ret.mpr) hbody

theorem returns_foldlM_range {f : σ → Nat → Exec σ} {I : Nat → σ → Prop} {s : σ} (h0 : I 0 s) :
    ∀ {n : Nat}, (∀ i < n, ∀ t, I i t → Returns (f t i) (I (i + 1))) → Returns ((List.range n).foldlM f s) (I n)
  | 0, _ => returns_ret.mpr h0
  | n + 1, hround => by
    rw [range_succ, foldlM_append]
    refine (returns_foldlM_range h0 fun i hi => hround i (Nat.lt_succ_of_lt hi)).bind fun t ht => ?_
    rw [foldlM_cons]
    exact (hround n (Nat.lt_succ_self n) t ht).bind fun u hu => returns_ret.mpr hu

theorem returns_modify (h : n < b.length) :
    Returns (modify b n f) fun c => ∃ x, b[n]? = some x ∧ c = b.set n (f x) := by
  have hx := getElem?_eq_getElem h
  rw [modify_eq f hx]
  exact returns_ret.mpr ⟨_, hx, rfl⟩

theorem loop_of_le : ∀ {n m : Nat} {s : σ}, loop body n s = ret a → n ≤ m → loop body m s = ret a := by
  intro n
  induction n with
  | zero =>
    intro m s h _
    cases h
  | succ n ih =>
    intro m s h hle
    obtain ⟨m, rfl⟩ : ∃ k, m = k + 1 := ⟨m - 1, by omega⟩
    rw [loop] at h ⊢
    cases hbody : body s with
    | ret r =>
      rw [hbody, ret_bind] at h
      rw [ret_bind]
      cases r with
      | inl t => exact ih h (by omega)
      | inr b => exact h
    | err msg | panic | endless =>
      rw [hbody] at h
      cases h

/-- A loop whose rounds are those of another one, on what a relation leaves of its state, ends as that one
    does. -/
theorem loop_refines {τ : Type} {spec : τ → Exec (τ ⊕ β)} {R : σ → τ → Prop} {S : α → β → Prop}
    (h : ∀ s t, R s t → (∃ s' t', body s = ret (.inl s') ∧ spec t = ret (.inl t') ∧ R s' t') ∨
      ∃ a b, body s = ret (.inr a) ∧ spec t = ret (.inr b) ∧ S a b) :
    ∀ {n : Nat} {s : σ} {t : τ} {a : α}, R s t → loop body n s = ret a → ∃ b, loop spec n t = ret b ∧ S a b := by
  intro n
  induction n with
  | zero =>
    intro s t a _ hloop
    cases hloop
  | succ n ih =>
    intro s t a hR hloop
    rcases h s t hR with ⟨s', t', hbody, hspec, hR'⟩ | ⟨a', b, hbody, hspec, hS⟩
    · rw [loop_next n hbody] at hloop
      rw [loop_next n hspec]
      exact ih hR' hloop
    · rw [loop_end n hbody] at hloop
      cases hloop
      exact ⟨b, loop_end n hspec, hS⟩

def wrap (x : Int) : Int := x.bmod 18446744073709551616

theorem wrap_of_lt {x : Int} (h0 : -9223372036854775808 ≤ x) (h : x < 9223372036854775808) : wrap x = x :=
  Int.bmod_eq_of_le_mul_two (by omega) (by omega)

end Exec
