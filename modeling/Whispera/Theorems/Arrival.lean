import Whispera.Theorems.FramedReader

/-! As long as the mark that ends a stream has not arrived as a whole, the reader fails or waits, and knows of
no end. -/

namespace Whispera
open List BigEndian Reader

theorem prefix_encodes {p : Bytes} : ∀ {rs : List Record}, p <+: encodes rs →
    p = encodes rs ∨ ∃ qs r cut, qs ++ [r] <+: rs ∧ p = encodes qs ++ cut ∧ cut <+: r.encode ∧
      cut.length < r.encode.length := by
  intro rs
  induction rs generalizing p with
  | nil =>
    intro h
    exact .inl (prefix_nil.mp h)
  | cons r rs ih =>
    intro h
    by_cases hlen : p.length < r.encode.length
    · have hcut : p <+: r.encode := prefix_of_prefix_length_le h (prefix_append _ _) (Nat.le_of_lt hlen)
      exact .inr ⟨[], r, p, ⟨rs, rfl⟩, rfl, hcut, hlen⟩
    · obtain ⟨p', rfl⟩ : r.encode <+: p :=
        prefix_of_prefix_length_le (prefix_append _ _) h (Nat.le_of_not_lt hlen)
      rcases ih ((prefix_append_right_inj _).mp h) with rfl | ⟨qs, q, cut, ⟨us, hqs⟩, rfl, hcut, hlt⟩
      · exact .inl rfl
      · refine .inr ⟨r :: qs, q, cut, ⟨us, ?_⟩, ?_, hcut, hlt⟩
        · rw [← hqs]
          rfl
        · rw [encodes_cons, append_assoc]

def Cut (xs p : Bytes) : Prop := ∀ te, ∃ rs tail e, p = encodes rs ++ tail ∧ (∀ r ∈ rs, r.Body) ∧ payloads rs <+: xs ∧
  Ends tail te (.error e) [] ∧ (e = .eof → te = .eof)

theorem Cut.mono {xs ys p : Bytes} (h : Cut xs p) (hle : xs <+: ys) : Cut ys p := by
  intro te
  obtain ⟨rs, tail, e, hp, hrs, hpay, hends⟩ := h te
  exact ⟨rs, tail, e, hp, hrs, hpay.trans hle, hends⟩

variable {rs : List Record}

theorem cut_of_strict {r : Record} {cut : Bytes} (hrs : ∀ q ∈ rs, q.Body) (hr : r.Fits)
    (hcut : cut <+: r.encode) (hlt : cut.length < r.encode.length) : Cut (payloads rs) (encodes rs ++ cut) := by
  intro te
  obtain ⟨e, he⟩ := ends_cut hr hcut hlt
  exact ⟨rs, cut, e, rfl, hrs, prefix_rfl, he⟩

theorem ends_nil (te : Err) : ∃ e, Ends [] te (.error e) [] ∧ (e = .eof → te = .eof) :=
  ends_cut (r := .finish []) (Nat.zero_le _) nil_prefix (by rw [Record.length_encode]; exact Nat.succ_pos _)

theorem payloads_mono {qs : List Record} (h : qs <+: rs) : payloads qs <+: payloads rs := by
  obtain ⟨us, rfl⟩ := h
  exact ⟨payloads us, (payloads_append qs us).symm⟩

theorem cut_of_part {p : Bytes} (hrs : ∀ r ∈ rs, r.Body) (hp : p <+: encodes rs) : Cut (payloads rs) p := by
  rcases prefix_encodes hp with rfl | ⟨qs, q, cut, hqs, rfl, hcut, hlt⟩
  · intro te
    obtain ⟨e, he⟩ := ends_nil te
    exact ⟨rs, [], e, (append_nil _).symm, hrs, prefix_rfl, he⟩
  · have hmem : ∀ x ∈ qs ++ [q], x.Body := fun x hx => hrs x (hqs.subset hx)
    have hcut' := cut_of_strict (fun x hx => hmem x (mem_append_left _ hx)) (hmem q (by simp)).fits hcut hlt
    exact hcut'.mono (payloads_mono ((prefix_append _ _).trans hqs))

theorem whole_or_cut {r : Record} {p : Bytes} (hrs : ∀ q ∈ rs, q.Body) (hr : r.Fits)
    (hp : p <+: encodes rs ++ r.encode) : p = encodes rs ++ r.encode ∨ Cut (payloads rs) p := by
  have hcat : encodes rs ++ r.encode = encodes (rs ++ [r]) := by simp
  rw [hcat] at hp ⊢
  rcases prefix_encodes hp with rfl | ⟨qs, q, cut, hqs, rfl, hcut, hlt⟩
  · exact .inl rfl
  · rcases prefix_concat_iff.mp hqs with heq | hpre
    · obtain ⟨rfl, hlast⟩ := append_inj' heq rfl
      cases hlast
      exact .inr (cut_of_strict hrs hr hcut hlt)
    · have hmem : ∀ x ∈ qs ++ [q], x.Body := fun x hx => hrs x (hpre.subset hx)
      have hcut' := cut_of_strict (fun x hx => hmem x (mem_append_left _ hx)) (hmem q (by simp)).fits hcut hlt
      exact .inr (hcut'.mono (payloads_mono ((prefix_append _ _).trans hpre)))

def FramedConn.Waits (te : Err) (c : FramedConn) : Prop :=
  ∃ tail e xs, Ends tail te (.error e) [] ∧ c.Expects tail te (.error e) xs e

namespace FramedConn
variable {te : Err} {c c' : FramedConn} {p xs : Bytes}

theorem Waits.done_eq (h : c.Waits te) : c.done = false := by
  obtain ⟨_, _, _, -, hdone, -⟩ := h
  exact hdone

theorem waits_of_cut (hp : Cut xs p) (sizes : Nat → Nat) (together : Bool) (k : Sink) :
    FramedConn.Waits te { inp := ⟨p, sizes, te, together⟩, out := k } := by
  obtain ⟨rs, tail, e, rfl, hrs, -, hends, -⟩ := hp te
  exact ⟨tail, e, payloads rs, hends, rfl, rfl, rs, hrs, ⟨rfl, rfl⟩, rfl⟩

theorem Waits.read (h : c.Waits te) {n : Nat} (hn : 0 < n) : (c.read n).2.2.Waits te := by
  obtain ⟨tail, e, xs, hends, hexp⟩ := h
  obtain ⟨data, err, c', xs', hread, -, -, hcase⟩ := FramedConn.yields hends (.inr ⟨e, rfl⟩) n hexp hn
  rw [hread]
  rcases hcase with ⟨-, -, hexp'⟩ | ⟨-, -, hdone, hbuf, hinp⟩
  · exact ⟨tail, e, xs', hends, hexp'⟩
  · obtain ⟨e', he', -⟩ := ends_nil te
    exact ⟨[], e', [], he', hdone, rfl, [], by simp, hinp, by rw [hbuf]; rfl⟩

theorem Waits.reads {bufs : Nat → Nat} (hb : ∀ i, 0 < bufs i) (n : Nat) (h : c.Waits te) :
    (Reader.reads FramedConn.read bufs n c).2.2.Waits te := by
  induction n generalizing bufs c with
  | zero => exact h
  | succ n ih =>
    have hnext := h.read (hb 0)
    rcases hread : c.read (bufs 0) with ⟨data, _ | e, c₁⟩
    · rw [hread] at hnext
      simp only [Reader.reads, hread]
      exact ih (fun i => hb (i + 1)) hnext
    · rw [hread] at hnext
      simp only [Reader.reads, hread]
      exact hnext

end FramedConn

section
variable {p data : Bytes} {sizes bufs : Nat → Nat} {te e : Err} {together : Bool} {k : Sink} {n : Nat} {c : FramedConn}

theorem reads_finish {pad : Bytes} (hrs : ∀ r ∈ rs, r.Body) (hfits : (Record.finish pad).Fits) (hbufs : ∀ i, 0 < bufs i)
    (h : reads FramedConn.read bufs n
      { inp := ⟨encodes rs ++ (Record.finish pad).encode, sizes, te, together⟩, out := k } = (data, some e, c)) :
    data = payloads rs ∧ c.done = true := by
  have hends : Ends ((Record.finish pad).encode ++ []) te (.ok []) [] := ends_finish hfits []
  rw [append_nil] at hends
  obtain ⟨m, c', -, hm, hdone, -⟩ := reads_yields (FramedConn.yields hends (.inl rfl))
    (s := { inp := ⟨encodes rs ++ (Record.finish pad).encode, sizes, te, together⟩, out := k })
    ⟨rfl, rfl, rs, hrs, ⟨rfl, rfl⟩, rfl⟩ hbufs
  obtain ⟨rfl, -, rfl⟩ := reads_det h hm
  exact ⟨rfl, hdone⟩

theorem reads_switch {pad raw : Bytes} (hrs : ∀ r ∈ rs, r.Body) (hfits : (Record.switch pad).Fits)
    (hbufs : ∀ i, 0 < bufs i)
    (h : reads FramedConn.read bufs n
      { inp := ⟨encodes rs ++ ((Record.switch pad).encode ++ raw), sizes, te, together⟩, out := k } =
      (data, some e, c)) :
    c.done = false ∧ e = errSwitchRaw := by
  obtain ⟨m, c', -, hm, hdone, -⟩ := reads_yields (FramedConn.yields (ends_switch hfits raw) (.inr ⟨_, rfl⟩))
    (s := { inp := ⟨encodes rs ++ ((Record.switch pad).encode ++ raw), sizes, te, together⟩, out := k })
    ⟨rfl, rfl, rs, hrs, ⟨rfl, rfl⟩, rfl⟩ hbufs
  obtain ⟨-, rfl, rfl⟩ := reads_det h hm
  exact ⟨hdone, rfl⟩

theorem reads_cut {xs : Bytes} (hp : Cut xs p) (hbufs : ∀ i, 0 < bufs i)
    (h : reads FramedConn.read bufs n { inp := ⟨p, sizes, te, together⟩, out := k } = (data, some e, c)) :
    c.done = false ∧ data <+: xs ∧ (e = .eof → te = .eof) := by
  obtain ⟨rs, tail, e', rfl, hrs, hpay, hends, heof⟩ := hp te
  obtain ⟨m, c', -, hm, hdone, -⟩ := reads_yields (FramedConn.yields hends (.inr ⟨e', rfl⟩))
    (s := { inp := ⟨encodes rs ++ tail, sizes, te, together⟩, out := k }) ⟨rfl, rfl, rs, hrs, ⟨rfl, rfl⟩, rfl⟩ hbufs
  obtain ⟨rfl, rfl, rfl⟩ := reads_det h hm
  exact ⟨hdone, hpay, heof⟩

end

end Whispera
