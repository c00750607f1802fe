import Whispera.Theorems.Records

/-! A transport that holds records and then a tail on which the reader stops yields the data of the records
(`FramedConn.yields`). The tail is the end mark, the switch mark, or a record that the transport was cut in.
-/

namespace Whispera
open List hiding get
open BigEndian Reader

section
variable {s : Stream} {te : Err} {rest : Bytes} (fuel : Nat)

theorem readRecordLoop_header {body : Nat} (h2 : 2 ≤ body) (hw : body ≤ framedWireTarget)
    (h : s.Holds (recordHeader body ++ rest) te) :
    ∃ s', s'.Holds rest te ∧ FramedConn.readRecordLoop (fuel + 1) s =
      match readFull Stream.read body s' with
      | (_, some e, s) => (.error e, s)
      | (record, none, s) =>
        if get (record.take 2) = framedSwitchMarker then (.error errSwitchRaw, s)
        else if get (record.take 2) = framedFillerMarker then FramedConn.readRecordLoop fuel s
        else if body < 2 + get (record.take 2) then (.error errFramedBadRecord, s)
        else (.ok ((record.drop 2).take (get (record.take 2))), s) := by
  obtain ⟨s', hread, hs'⟩ := Stream.readFull_append h
  have hlen : (recordHeader body).length = 5 := by simp [recordHeader]
  have hbody : get ((recordHeader body).drop 3) = body := by
    have : (recordHeader body).drop 3 = putUint16 body := by simp [recordHeader]
    exact get_putUint16 (by unfold framedWireTarget at hw; omega)
  have hbounds : ¬(body < 2 ∨ framedWireTarget < body) := by omega
  rw [hlen] at hread
  refine ⟨s', hs', ?_⟩
  rw [FramedConn.readRecordLoop]
  simp only [hread, hbody, hbounds, if_false]
  rfl

theorem readRecordLoop_encode {r : Record} (hr : r.Fits) (h : s.Holds (r.encode ++ rest) te) :
    ∃ s', s'.Holds rest te ∧ FramedConn.readRecordLoop (fuel + 1) s =
      match r.verdict with
      | some v => (v, s')
      | none => FramedConn.readRecordLoop fuel s' := by
  have hfits := hr
  unfold Record.Fits framedMaxData framedPlainTarget at hfits
  rw [Record.encode, append_assoc] at h
  obtain ⟨s₁, hs₁, heq⟩ := readRecordLoop_header fuel (by omega) (by unfold framedWireTarget; omega) h
  obtain ⟨s', hread, hs'⟩ := Stream.readFull_append hs₁
  have hlen : (putUint16 r.mark ++ (r.payload ++ r.pad)).length = 2 + r.payload.length + r.pad.length := by
    simp only [length_append, length_putUint16]
    omega
  have hmark : get ((putUint16 r.mark ++ (r.payload ++ r.pad)).take 2) = r.mark := by
    exact get_putUint16 (Record.mark_lt hr)
  have hdata : (putUint16 r.mark ++ (r.payload ++ r.pad)).drop 2 = r.payload ++ r.pad :=
    drop_left' (length_putUint16 _)
  rw [hlen] at hread
  refine ⟨s', hs', ?_⟩
  rw [heq]
  simp only [hread, hmark, hdata]
  cases r with
  | data p q =>
    have hp : p.length ≤ 16384 - 5 - 2 := le_trans (Nat.le_add_right _ _) hfits
    have h1 : ¬(Record.data p q).mark = framedSwitchMarker := fun hm => by
      have : p.length = 0xFFFF := hm
      omega
    have h2 : ¬(Record.data p q).mark = framedFillerMarker := fun hm => by
      have : p.length = 0xFFFE := hm
      omega
    have h3 : ¬2 + (Record.data p q).payload.length + (Record.data p q).pad.length < 2 + (Record.data p q).mark :=
      not_lt.mpr (Nat.le_add_right _ _)
    rw [if_neg h1, if_neg h2, if_neg h3]
    show (Except.ok ((p ++ q).take p.length), s') = _
    rw [take_left' rfl]
    rfl
  | filler q | switch q => rfl
  | finish q =>
    have h1 : ¬(Record.finish q).mark = framedSwitchMarker := by show ¬0 = _; decide
    have h2 : ¬(Record.finish q).mark = framedFillerMarker := by show ¬0 = _; decide
    have h3 : ¬2 + (Record.finish q).payload.length + (Record.finish q).pad.length < 2 + (Record.finish q).mark :=
      not_lt.mpr (by show 2 + 0 ≤ _; omega)
    rw [if_neg h1, if_neg h2, if_neg h3]
    rfl

/-- On a transport that holds `tail` the reader stops with `v` and leaves `rest`. -/
def Ends (tail : Bytes) (te : Err) (v : Except Err Bytes) (rest : Bytes) : Prop :=
  ∀ ⦃s : Stream⦄ (fuel : Nat), s.Holds tail te →
    ∃ s', FramedConn.readRecordLoop (fuel + 1) s = (v, s') ∧ s'.Holds rest te

theorem ends_finish {pad : Bytes} (hr : (Record.finish pad).Fits) (rest : Bytes) :
    Ends ((Record.finish pad).encode ++ rest) te (.ok []) rest := by
  intro s fuel h
  obtain ⟨s', hs', heq⟩ := readRecordLoop_encode fuel hr h
  exact ⟨s', heq, hs'⟩

theorem ends_switch {pad : Bytes} (hr : (Record.switch pad).Fits) (rest : Bytes) :
    Ends ((Record.switch pad).encode ++ rest) te (.error errSwitchRaw) rest := by
  intro s fuel h
  obtain ⟨s', hs', heq⟩ := readRecordLoop_encode fuel hr h
  exact ⟨s', heq, hs'⟩

theorem ends_cut {r : Record} (hr : r.Fits) {cut : Bytes} (hpre : cut <+: r.encode)
    (hlt : cut.length < r.encode.length) : ∃ e, Ends cut te (.error e) [] ∧ (e = .eof → te = .eof) := by
  have hfits := hr
  unfold Record.Fits framedMaxData framedPlainTarget at hfits
  by_cases h5 : cut.length < 5
  · refine ⟨shortErr cut te, fun s fuel h => ?_, shortErr_eof⟩
    obtain ⟨s', hread, hs'⟩ := Stream.readFull_short h h5
    exact ⟨s', by simp [FramedConn.readRecordLoop, hread], hs'⟩
  · -- The header arrived whole, and the rest of the record did not.
    have hlen : (recordHeader (2 + r.payload.length + r.pad.length)).length = 5 := by simp [recordHeader]
    obtain ⟨body, rfl⟩ : ∃ body, cut = recordHeader (2 + r.payload.length + r.pad.length) ++ body := by
      have hhdr : recordHeader (2 + r.payload.length + r.pad.length) <+: cut :=
        prefix_of_prefix_length_le (prefix_append _ _) hpre (by omega)
      obtain ⟨body, hbody⟩ := hhdr
      exact ⟨body, hbody.symm⟩
    have hbody : body.length < 2 + r.payload.length + r.pad.length := by
      rw [Record.length_encode, length_append, hlen] at hlt
      omega
    refine ⟨shortErr body te, fun s fuel h => ?_, shortErr_eof⟩
    obtain ⟨s₁, hs₁, heq⟩ := readRecordLoop_header fuel (by omega) (by unfold framedWireTarget; omega) h
    obtain ⟨s', hread, hs'⟩ := Stream.readFull_short hs₁ hbody
    refine ⟨s', ?_, hs'⟩
    rw [heq]
    simp only [hread]

theorem readRecordLoop_records {tail : Bytes} {v : Except Err Bytes} (htail : Ends tail te v rest) :
    ∀ {rs : List Record} {s : Stream} (fuel : Nat), (∀ r ∈ rs, r.Body) → s.Holds (encodes rs ++ tail) te →
      rs.length < fuel → ∃ s',
        (∃ p rs', FramedConn.readRecordLoop fuel s = (.ok p, s') ∧ p ≠ [] ∧ (∀ r ∈ rs', r.Body) ∧
          payloads rs = p ++ payloads rs' ∧ s'.Holds (encodes rs' ++ tail) te) ∨
        (FramedConn.readRecordLoop fuel s = (v, s') ∧ payloads rs = [] ∧ s'.Holds rest te) := by
  intro rs
  induction rs with
  | nil =>
    intro s fuel _ h hfuel
    obtain ⟨fuel, rfl⟩ : ∃ f, fuel = f + 1 := ⟨fuel - 1, by simp at hfuel; omega⟩
    obtain ⟨s', heq, hs'⟩ := htail fuel h
    exact ⟨s', .inr ⟨heq, rfl, hs'⟩⟩
  | cons r rs ih =>
    intro s fuel hb h hfuel
    rw [length_cons] at hfuel
    obtain ⟨fuel, rfl⟩ : ∃ f, fuel = f + 1 := ⟨fuel - 1, by omega⟩
    have hr : r.Body := hb r (mem_cons_self ..)
    have hrs : ∀ q ∈ rs, q.Body := fun q hq => hb q (mem_cons_of_mem _ hq)
    rw [encodes_cons, append_assoc] at h
    obtain ⟨s₁, hs₁, heq⟩ := readRecordLoop_encode fuel hr.fits h
    cases r with
    | data p q => exact ⟨s₁, .inl ⟨p, rs, heq, hr.1, hrs, rfl, hs₁⟩⟩
    | filler q =>
      obtain ⟨s', hcase⟩ := ih fuel hrs hs₁ (by omega)
      refine ⟨s', ?_⟩
      rw [heq]
      exact hcase
    | finish q | switch q => exact hr.elim

end

def verdictErr : Except Err Bytes → Err
  | .ok _ => .eof
  | .error e => e

/-- The reader holds the bytes `xs` of a stream that ends with `v` at `tail`. -/
def FramedConn.Expects (tail : Bytes) (te : Err) (v : Except Err Bytes) (c : FramedConn)
    (xs : Bytes) (e : Err) : Prop :=
  c.done = false ∧ e = verdictErr v ∧
    ∃ rs, (∀ r ∈ rs, r.Body) ∧ c.inp.Holds (encodes rs ++ tail) te ∧ xs = c.rbuf ++ payloads rs

def FramedConn.Stopped (rest : Bytes) (te : Err) (v : Except Err Bytes) (c : FramedConn)
    (_ : Err) : Prop :=
  c.done = v.isOk ∧ c.rbuf = [] ∧ c.inp.Holds rest te

theorem FramedConn.yields {tail rest : Bytes} {te : Err} {v : Except Err Bytes} (htail : Ends tail te v rest)
    (hv : v = .ok [] ∨ ∃ e, v = .error e) :
    Yields FramedConn.read (FramedConn.Expects tail te v) (FramedConn.Stopped rest te v) := by
  rintro c xs e n ⟨hdone, rfl, rs, hrs, hinp, rfl⟩ hn
  by_cases hbuf : c.rbuf = []
  · -- The buffer is empty, so a record is read.
    have hfuel : rs.length < c.inp.bytes.length + 1 := by
      have := length_le_encodes rs
      rw [hinp.1, length_append]
      omega
    obtain ⟨inp, ⟨p, rs', hrec, hp, hrs', hpay, hinp'⟩ | ⟨hrec, hpay, hinp'⟩⟩ :=
      readRecordLoop_records htail _ hrs hinp hfuel
    · refine ⟨p.take n, none, { c with inp, rbuf := p.drop n }, p.drop n ++ payloads rs', ?_, ?_, ?_,
        .inl ⟨rfl, ?_, hdone, rfl, rs', hrs', hinp', rfl⟩⟩
      · obtain ⟨b, p, rfl⟩ := exists_cons_of_ne_nil hp
        simp [FramedConn.read, FramedConn.readRecord, hbuf, hdone, hrec]
      · rw [length_take]
        exact min_le_left _ _
      · rw [hbuf, nil_append, hpay, ← append_assoc, take_append_drop]
      · rw [Ne, take_eq_nil_iff, not_or]
        exact ⟨by omega, hp⟩
    · have hxs : c.rbuf ++ payloads rs = [] ++ [] := by rw [hbuf, hpay]
      rcases hv with rfl | ⟨e, rfl⟩
      · exact ⟨[], some .eof, { c with inp, done := true }, [],
          by simp [FramedConn.read, FramedConn.readRecord, hbuf, hdone, hrec], by simp, hxs,
          .inr ⟨rfl, rfl, rfl, hbuf, hinp'⟩⟩
      · exact ⟨[], some e, { c with inp }, [], by simp [FramedConn.read, FramedConn.readRecord, hbuf, hdone, hrec],
          by simp, hxs, .inr ⟨rfl, rfl, hdone, hbuf, hinp'⟩⟩
  · refine ⟨c.rbuf.take n, none, { c with rbuf := c.rbuf.drop n }, c.rbuf.drop n ++ payloads rs, ?_, ?_, ?_,
      .inl ⟨rfl, ?_, hdone, rfl, rs, hrs, hinp, rfl⟩⟩
    · simp [FramedConn.read, hbuf]
    · rw [length_take]
      exact min_le_left _ _
    · rw [← append_assoc, take_append_drop]
    · rw [Ne, take_eq_nil_iff, not_or]
      exact ⟨by omega, hbuf⟩

end Whispera
