import Mathlib.Data.List.Basic
import Whispera.Lib.Bytes

/-! A reader fills a buffer as far as it likes, and reports an error once it has nothing more to give.
`Yields` says what it hands out, however it cuts the stream into reads. -/

/-- The errors that reads and writes report. An error value that a program makes for itself is its
    text. -/
inductive Err
  | eof
  | unexpectedEOF
  | closedPipe
  | noProgress
  | text (msg : String)
  deriving DecidableEq, Repr

def Err.message : Err → String
  | eof => "EOF"
  | unexpectedEOF => "unexpected EOF"
  | closedPipe => "io: read/write on closed pipe"
  | noProgress => "multiple Read calls return no data or error"
  | text msg => msg

namespace Reader
open List

/-- One read into a buffer of the given size: the bytes put there, the error, the reader afterwards. -/
abbrev Read (σ : Type) := Nat → σ → Bytes × Option Err × σ

variable {xs ys : Bytes} {e : Err} {want : Nat}

section
variable {σ : Type} (read : Read σ)

/-- Reads into buffers of the sizes `bufs 0`, `bufs 1`, …, at most `k` times and up to the first error. -/
def reads (bufs : Nat → Nat) : Nat → σ → Bytes × Option Err × σ
  | 0, s => ([], none, s)
  | k + 1, s =>
    match read (bufs 0) s with
    | (data, some e, s') => (data, some e, s')
    | (data, none, s') =>
      match reads (fun i => bufs (i + 1)) k s' with
      | (more, err, s'') => (data ++ more, err, s'')

/-- The loop of `readFull`: `got` is read, and at most `fuel` more reads are made. -/
def readFullLoop (want : Nat) : Nat → Bytes → σ → Bytes × Option Err × σ
  | 0, got, s => (got, if want ≤ got.length then none else some .noProgress, s)
  | fuel + 1, got, s =>
    if want ≤ got.length then (got, none, s)
    else
      match read (want - got.length) s with
      | (data, none, s') => readFullLoop want fuel (got ++ data) s'
      | (data, some e, s') =>
        if want ≤ (got ++ data).length then (got ++ data, none, s')
        else if e = .eof ∧ got ++ data ≠ [] then (got ++ data, some .unexpectedEOF, s')
        else (got ++ data, some e, s')

/-- `io.ReadFull`. A reader that returns a byte or an error on each read is asked at most `want` times. -/
def readFull (want : Nat) (s : σ) : Bytes × Option Err × σ := readFullLoop read want want [] s

/-- `R s xs e` describes readers that hand out `xs` and then fail with `e`; then `Q` holds of the reader left
    behind. -/
def Yields (R : σ → Bytes → Err → Prop) (Q : σ → Err → Prop) : Prop :=
  ∀ ⦃s : σ⦄ ⦃xs : Bytes⦄ ⦃e : Err⦄ (n : Nat), R s xs e → 0 < n →
    ∃ data err s' xs', read n s = (data, err, s') ∧ data.length ≤ n ∧ xs = data ++ xs' ∧
      ((err = none ∧ data ≠ [] ∧ R s' xs' e) ∨ (err = some e ∧ xs' = [] ∧ Q s' e))

variable {read}
variable {R : σ → Bytes → Err → Prop} {Q : σ → Err → Prop}

variable {bufs : Nat → Nat}
variable {s : σ} {I : σ → Prop} {τ : Type} {f : τ → σ} {read' : Read τ}

/-- However the buffers are sized, the reads return all that the reader holds and then its error. -/
theorem reads_yields (h : Yields read R Q) (hr : R s xs e) (hb : ∀ i, 0 < bufs i) :
    ∃ k s', k ≤ xs.length + 1 ∧ reads read bufs k s = (xs, some e, s') ∧ Q s' e := by
  -- On the number of bytes that are still to come: a read that goes on returns at least one.
  induction hn : xs.length using Nat.strongRecOn generalizing s xs bufs with
  | ind m ih =>
    obtain ⟨data, err, s', xs', hread, -, rfl, ⟨rfl, hne, hr'⟩ | ⟨rfl, rfl, hq⟩⟩ := h (bufs 0) hr (hb 0)
    · have hlt : xs'.length < m := by
        have := length_pos_iff.mpr hne
        rw [length_append] at hn
        omega
      obtain ⟨k, s'', hle, hk, hq⟩ := ih xs'.length hlt hr' (fun i => hb (i + 1)) rfl
      exact ⟨k + 1, s'', by omega, by simp [reads, hread, hk], hq⟩
    · exact ⟨1, s', by omega, by simp [reads, hread], hq⟩

theorem reads_of_le {k l : Nat} {s s' : σ}
    (h : reads read bufs k s = (xs, some e, s')) (hkl : k ≤ l) : reads read bufs l s = (xs, some e, s') := by
  induction k generalizing bufs l s xs with
  | zero => simp [reads] at h
  | succ k ih =>
    obtain ⟨l, rfl⟩ : ∃ l', l = l' + 1 := ⟨l - 1, by omega⟩
    rcases hread : read (bufs 0) s with ⟨data, _ | e', s₁⟩
    · rcases hk : reads read (fun i => bufs (i + 1)) k s₁ with ⟨more, err, s₂⟩
      simp only [reads, hread, hk, Prod.mk.injEq] at h ⊢
      obtain ⟨rfl, rfl, rfl⟩ := h
      rw [ih hk (Nat.le_of_succ_le_succ hkl)]
      exact ⟨rfl, rfl, rfl⟩
    · simpa only [reads, hread] using h

theorem reads_det {k l : Nat} {s s₁ s₂ : σ} {f : Err}
    (h₁ : reads read bufs k s = (xs, some e, s₁)) (h₂ : reads read bufs l s = (ys, some f, s₂)) :
    xs = ys ∧ e = f ∧ s₁ = s₂ := by
  have heq : (xs, some e, s₁) = (ys, some f, s₂) := by
    rcases Nat.le_total k l with hle | hle
    · rw [← reads_of_le h₁ hle, h₂]
    · rw [← h₁, reads_of_le h₂ hle]
  cases heq
  exact ⟨rfl, rfl, rfl⟩

theorem readFullLoop_yields (h : Yields read R Q) :
    ∀ {fuel : Nat} {got xs : Bytes} {s : σ}, R s (xs ++ ys) e → (got ++ xs).length = want → xs.length ≤ fuel →
      ∃ s', readFullLoop read want fuel got s = (got ++ xs, none, s') ∧ (R s' ys e ∨ ys = [] ∧ Q s' e) := by
  intro fuel
  induction fuel with
  | zero =>
    intro got xs s hr hlen hfuel
    obtain rfl : xs = [] := length_eq_zero_iff.mp (by omega)
    rw [append_nil] at hlen
    exact ⟨s, by simp [readFullLoop, hlen], .inl (by simpa using hr)⟩
  | succ fuel ih =>
    intro got xs s hr hlen hfuel
    have hlen' := hlen
    rw [length_append] at hlen'
    by_cases hw : want ≤ got.length
    · obtain rfl : xs = [] := length_eq_zero_iff.mp (by omega)
      exact ⟨s, by simp [readFullLoop, hw], .inl (by simpa using hr)⟩
    · obtain ⟨data, err, s', zs, hread, hle, hcat, hcase⟩ := h (want - got.length) hr (by omega)
      -- The read is not longer than what the buffer still takes, so its bytes are the first of `xs`.
      obtain ⟨xs', rfl⟩ : data <+: xs := prefix_of_prefix_length_le ⟨zs, hcat.symm⟩ (prefix_append xs ys) (by omega)
      obtain rfl : xs' ++ ys = zs := by simpa using hcat
      rcases hcase with ⟨rfl, hne, hr'⟩ | ⟨rfl, hnil, hq⟩
      · have hpos := length_pos_iff.mpr hne
        rw [length_append] at hfuel
        rw [← append_assoc] at hlen
        obtain ⟨s'', hloop, hr''⟩ := ih hr' hlen (by omega)
        refine ⟨s'', ?_, hr''⟩
        simp only [readFullLoop, hw, if_false, hread]
        rw [hloop, append_assoc]
      · obtain ⟨rfl, rfl⟩ := append_eq_nil_iff.mp hnil
        rw [append_nil] at hlen
        refine ⟨s', ?_, .inr ⟨rfl, hq⟩⟩
        simp [readFullLoop, hw, hread, hlen]

theorem readFull_yields (h : Yields read R Q) (hr : R s (xs ++ ys) e) :
    ∃ s', readFull read xs.length s = (xs, none, s') ∧ (R s' ys e ∨ ys = [] ∧ Q s' e) :=
  readFullLoop_yields h hr rfl (Nat.le_refl _)

theorem readFullLoop_invariant (h : ∀ n s, I s → I (read n s).2.2) (want : Nat) :
    ∀ (fuel : Nat) (got : Bytes) (s : σ), I s → I (readFullLoop read want fuel got s).2.2 := by
  intro fuel
  induction fuel with
  | zero =>
    intro got s hs
    exact hs
  | succ fuel ih =>
    intro got s hs
    by_cases hw : want ≤ got.length
    · simpa only [readFullLoop, hw, if_true] using hs
    · have hnext := h (want - got.length) s hs
      rcases hread : read (want - got.length) s with ⟨data, _ | e, s'⟩
      · rw [hread] at hnext
        simpa only [readFullLoop, hw, if_false, hread] using ih (got ++ data) s' hnext
      · rw [hread] at hnext
        simp only [readFullLoop, hw, if_false, hread]
        split
        · exact hnext
        · split <;> exact hnext

theorem readFull_invariant (h : ∀ n s, I s → I (read n s).2.2) (want : Nat) (hs : I s) : I (readFull read want s).2.2 :=
  readFullLoop_invariant h want want [] s hs

theorem readFullLoop_comap
    (hread : ∀ n ≤ want, ∀ t, ∃ t', read' n t = ((read n (f t)).1, (read n (f t)).2.1, t') ∧
     f t' = (read n (f t)).2.2) :
    ∀ (fuel : Nat) (got : Bytes) (t : τ), ∃ t', readFullLoop read' want fuel got t =
      ((readFullLoop read want fuel got (f t)).1, (readFullLoop read want fuel got (f t)).2.1, t') ∧
      f t' = (readFullLoop read want fuel got (f t)).2.2 := by
  intro fuel
  induction fuel with
  | zero =>
    intro got t
    exact ⟨t, rfl, rfl⟩
  | succ fuel ih =>
    intro got t
    by_cases hw : want ≤ got.length
    · exact ⟨t, by simp only [readFullLoop, hw, if_true], by simp only [readFullLoop, hw, if_true]⟩
    · obtain ⟨t₁, ht₁, hf₁⟩ := hread (want - got.length) (Nat.sub_le _ _) t
      rcases hr : read (want - got.length) (f t) with ⟨data, _ | e, s'⟩
      · rw [hr] at ht₁ hf₁
        obtain ⟨t', ht', hf'⟩ := ih (got ++ data) t₁
        obtain rfl : f t₁ = s' := hf₁
        refine ⟨t', ?_, ?_⟩
        · simp only [readFullLoop, hw, if_false, ht₁, hr, ht']
        · simp only [readFullLoop, hw, if_false, hr, hf']
      · rw [hr] at ht₁ hf₁
        refine ⟨t₁, ?_, ?_⟩
        · simp only [readFullLoop, hw, if_false, ht₁, hr]
          split
          · rfl
          · split <;> rfl
        · simp only [readFullLoop, hw, if_false, hr]
          rw [hf₁]
          split
          · rfl
          · split <;> rfl

theorem readFull_comap
    (hread : ∀ n ≤ want, ∀ t, ∃ t', read' n t = ((read n (f t)).1, (read n (f t)).2.1, t') ∧ f t' = (read n (f t)).2.2)
    (t : τ) : ∃ t', readFull read' want t = ((readFull read want (f t)).1, (readFull read want (f t)).2.1, t') ∧
      f t' = (readFull read want (f t)).2.2 :=
  readFullLoop_comap hread want [] t

/-- What `readFull` reports when the reader fails with `e` after `got`, short of the buffer. -/
def shortErr (got : Bytes) (e : Err) : Err := if e = .eof ∧ got ≠ [] then .unexpectedEOF else e

theorem shortErr_eof {got : Bytes} (h : shortErr got e = .eof) : e = .eof := by
  unfold shortErr at h
  split at h
  · cases h
  · exact h

theorem readFullLoop_short (h : Yields read R Q) :
    ∀ {fuel : Nat} {got xs : Bytes} {s : σ}, R s xs e → (got ++ xs).length < want → xs.length < fuel →
      ∃ s', readFullLoop read want fuel got s = (got ++ xs, some (shortErr (got ++ xs) e), s') ∧ Q s' e := by
  intro fuel
  induction fuel with
  | zero =>
    intro got xs s _ _ hfuel
    omega
  | succ fuel ih =>
    intro got xs s hr hlen hfuel
    have hw : ¬want ≤ got.length := by
      rw [length_append] at hlen
      omega
    obtain ⟨data, err, s', xs', hread, -, rfl, hcase⟩ := h (want - got.length) hr (by omega)
    rcases hcase with ⟨rfl, hne, hr'⟩ | ⟨rfl, rfl, hq⟩
    · have hpos := length_pos_iff.mpr hne
      rw [length_append] at hfuel
      rw [← append_assoc] at hlen
      obtain ⟨s'', hloop, hq⟩ := ih hr' hlen (by omega)
      refine ⟨s'', ?_, hq⟩
      simp only [readFullLoop, hw, if_false, hread]
      rw [hloop, append_assoc]
    · rw [append_nil] at hlen ⊢
      refine ⟨s', ?_, hq⟩
      simp only [readFullLoop, hw, if_false, hread, Nat.not_le.mpr hlen, shortErr]
      split <;> rfl

theorem readFull_short (h : Yields read R Q) (hr : R s xs e)
    (hlen : xs.length < want) : ∃ s', readFull read want s = (xs, some (shortErr xs e), s') ∧ Q s' e :=
  readFullLoop_short h hr hlen hlen

theorem Yields.again (h : Yields read R Q) (hq : ∀ n s e, Q s e → read n s = ([], some e, s)) :
    Yields read (fun s xs e => R s xs e ∨ xs = [] ∧ Q s e) Q := by
  intro s xs e n hr hn
  rcases hr with hr | ⟨rfl, hs⟩
  · obtain ⟨data, err, s', xs', heq, hle, hxs, ⟨herr, hne, hr'⟩ | hend⟩ := h n hr hn
    · exact ⟨data, err, s', xs', heq, hle, hxs, .inl ⟨herr, hne, .inl hr'⟩⟩
    · exact ⟨data, err, s', xs', heq, hle, hxs, .inr hend⟩
  · exact ⟨[], some e, s, [], hq n s e hs, Nat.zero_le _, rfl, .inr ⟨rfl, rfl, hs⟩⟩

theorem Yields.comap
    (hread : ∀ n t, ∃ t', read' n t = ((read n (f t)).1, (read n (f t)).2.1, t') ∧ f t' = (read n (f t)).2.2)
    (h : Yields read R Q) : Yields read' (fun t => R (f t)) (fun t => Q (f t)) := by
  intro t xs e n hr hn
  obtain ⟨data, err, s', xs', heq, hle, hxs, hcase⟩ := h n hr hn
  obtain ⟨t', heq', ht'⟩ := hread n t
  rw [heq] at heq' ht'
  obtain rfl : f t' = s' := ht'
  exact ⟨data, err, t', xs', heq', hle, hxs, hcase⟩

end

/-- A byte stream as its reader sees it: the bytes still to come, the sizes in which it hands them out (at
    most `sizes 0 + 1` at a read), and the error after the last one, with that byte when `together` holds and
    on the next read otherwise. -/
structure Stream where
  bytes : Bytes
  sizes : Nat → Nat
  fin : Err
  together : Bool

def Stream.read (n : Nat) (s : Stream) : Bytes × Option Err × Stream :=
  if s.bytes = [] then ([], some s.fin, s)
  else
    let k := min n (s.sizes 0 + 1)
    let s' := { s with bytes := s.bytes.drop k, sizes := fun i => s.sizes (i + 1) }
    (s.bytes.take k, if s.together = true ∧ s'.bytes = [] then some s.fin else none, s')

def Stream.Holds (s : Stream) (xs : Bytes) (e : Err) : Prop := s.bytes = xs ∧ s.fin = e

def Stream.Spent (s : Stream) (e : Err) : Prop := s.Holds [] e

theorem Stream.yields : Yields Stream.read Stream.Holds Stream.Spent := by
  rintro s xs e n ⟨rfl, rfl⟩ hn
  by_cases hnil : s.bytes = []
  · exact ⟨[], some s.fin, s, [], by simp [Stream.read, hnil], by simp, by simp [hnil], .inr ⟨rfl, rfl, hnil, rfl⟩⟩
  · have hne : s.bytes.take (min n (s.sizes 0 + 1)) ≠ [] := by
      rw [Ne, take_eq_nil_iff, not_or]
      exact ⟨by omega, hnil⟩
    refine ⟨_, _, _, _, if_neg hnil, ?_, (take_append_drop _ _).symm, ?_⟩
    · rw [length_take]
      omega
    · by_cases hend : s.together = true ∧ s.bytes.drop (min n (s.sizes 0 + 1)) = []
      · exact .inr ⟨if_pos hend, hend.2, hend.2, rfl⟩
      · exact .inl ⟨if_neg hend, hne, rfl, rfl⟩

theorem Stream.readFull_append {s : Stream} (h : s.Holds (xs ++ ys) e) :
    ∃ s', readFull Stream.read xs.length s = (xs, none, s') ∧ s'.Holds ys e := by
  obtain ⟨s', hread, hs | ⟨rfl, hs⟩⟩ := readFull_yields Stream.yields h
  · exact ⟨s', hread, hs⟩
  · exact ⟨s', hread, hs⟩

theorem Stream.readFull_short {s : Stream} (h : s.Holds xs e) (hlen : xs.length < want) :
    ∃ s', readFull Stream.read want s = (xs, some (shortErr xs e), s') ∧ s'.Holds [] e :=
  Reader.readFull_short Stream.yields h hlen

/-- The writing side: the bytes it took, and how many more it takes before it breaks (`none` when it never
    does). -/
structure Sink where
  bytes : Bytes
  room : Option Nat

/-- A write is taken whole, or up to the byte at which the transport breaks, and then every later one
    fails too. -/
def Sink.write (out : Bytes) (k : Sink) : Option Err × Sink :=
  match k.room with
  | none => (none, { k with bytes := k.bytes ++ out })
  | some r =>
    if out.length ≤ r then (none, { bytes := k.bytes ++ out, room := some (r - out.length) })
    else (some (.text "broken pipe"), { bytes := k.bytes ++ out.take r, room := some 0 })

/-- `io.Copy` with buffers of one size, up to the first error; the end of the stream is none. At most `fuel`
    reads are made. -/
def copy {σ : Type} (read : Read σ) (size : Nat) : Nat → σ → Sink → Option Err × σ × Sink
  | 0, s, k => (some .noProgress, s, k)
  | fuel + 1, s, k =>
    match read size s with
    | (data, err, s) =>
      match if data = [] then (none, k) else k.write data with
      | (some e, k) => (some e, s, k)
      | (none, k) =>
        match err with
        | none => copy read size fuel s k
        | some e => (if e = .eof then none else some e, s, k)

theorem copy_yields {σ : Type} {read : Read σ} {R : σ → Bytes → Err → Prop} {Q : σ → Err → Prop}
    (h : Yields read R Q) {size : Nat} (hsize : 0 < size) :
    ∀ (fuel : Nat) {s : σ} {xs : Bytes} (out : Bytes), R s xs e → xs.length < fuel →
      ∃ s', copy read size fuel s ⟨out, none⟩ = (if e = .eof then none else some e, s', ⟨out ++ xs, none⟩) ∧
      Q s' e := by
  intro fuel
  induction fuel with
  | zero =>
    intro s xs out _ hfuel
    exact absurd hfuel (Nat.not_lt_zero _)
  | succ fuel ih =>
    intro s xs out hr hfuel
    obtain ⟨data, err, s₁, xs', hread, -, rfl, hcase⟩ := h size hr hsize
    have hwrite : (if data = [] then (none, ⟨out, none⟩) else Sink.write data ⟨out, none⟩) =
        ((none, ⟨out ++ data, none⟩) : Option Err × Sink) := by
      split
      · rename_i hnil
        rw [hnil, append_nil]
      · rfl
    rcases hcase with ⟨rfl, hne, hr'⟩ | ⟨rfl, rfl, hq⟩
    · have hpos := length_pos_iff.mpr hne
      rw [length_append] at hfuel
      obtain ⟨s', hcopy, hq⟩ := ih (out ++ data) hr' (by omega)
      refine ⟨s', ?_, hq⟩
      simp only [copy, hread, hwrite]
      rw [hcopy, append_assoc]
    · refine ⟨s₁, ?_, hq⟩
      simp only [copy, hread, hwrite, append_nil]

end Reader
