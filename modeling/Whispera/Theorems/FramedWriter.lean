import Whispera.Theorems.Records

/-! Each call hands whole records to the transport (`Wrote`), and a transport that breaks has taken a part of
them. -/

namespace Whispera
open List BigEndian Reader

theorem sink_write_cases (k : Sink) {out : Bytes} (hout : out ≠ []) :
    (∃ k', k.write out = (none, k') ∧ k'.bytes = k.bytes ++ out ∧ k.room ≠ some 0 ∧ (k.room = none → k'.room = none)) ∨
    (∃ e k' w, k.write out = (some e, k') ∧ k'.bytes = k.bytes ++ w ∧ w <+: out ∧ w.length < out.length ∧
      k.room ≠ none ∧ k'.room = some 0 ∧ (k.room = some 0 → w = [])) := by
  have hpos := length_pos_iff.mpr hout
  unfold Sink.write
  cases hroom : k.room with
  | none => exact .inl ⟨_, rfl, rfl, by simp, fun _ => rfl⟩
  | some r =>
    dsimp only
    split
    · refine .inl ⟨_, rfl, rfl, ?_, by simp⟩
      intro h
      cases h
      omega
    · refine .inr ⟨_, _, out.take r, rfl, rfl, take_prefix _ _, ?_, by simp, rfl, ?_⟩
      · rw [length_take]
        omega
      · intro h
        cases h
        exact take_zero

/-- The transport was given the records `rs`: it took all of them, or broke inside one and took a part. -/
structure Wrote (k : Sink) (rs : List Record) (err : Option Err) (k' : Sink) : Prop where
  pre : k'.bytes <+: k.bytes ++ encodes rs
  all : err = none → k'.bytes = k.bytes ++ encodes rs
  cut : err ≠ none → k'.bytes.length < (k.bytes ++ encodes rs).length
  broken : err ≠ none → k'.room = some 0
  reliable : k.room = none → err = none ∧ k'.room = none
  dead : k.room = some 0 → k'.bytes = k.bytes ∧ k'.room = some 0

namespace Wrote
variable {k k₁ k₂ : Sink} {rs qs : List Record} {err : Option Err}

theorem nil (k : Sink) : Wrote k [] none k :=
  ⟨by simp, by simp, by simp, by simp, fun h => ⟨rfl, h⟩, fun h => ⟨rfl, h⟩⟩

theorem record (r : Record) : ∃ err k', k.write r.encode = (err, k') ∧ Wrote k [r] err k' := by
  have hne : r.encode ≠ [] := by
    rw [← length_pos_iff, Record.length_encode]
    omega
  rcases sink_write_cases k hne with ⟨k', hk, hb, hz, hroom⟩ | ⟨e, k', w, hk, hb, hw, hlt, hroom, hz, hdead⟩
  · exact ⟨none, k', hk, by simp [hb], by simp [hb], by simp, by simp, fun h => ⟨rfl, hroom h⟩, fun h => absurd h hz⟩
  · refine ⟨some e, k', hk, ?_, by simp, ?_, fun _ => hz, fun h => absurd h hroom, fun h => ⟨?_, hz⟩⟩
    · rw [hb, encodes_cons, encodes_nil, append_nil]
      exact (prefix_append_right_inj _).mpr hw
    · intro _
      simp only [hb, encodes_cons, encodes_nil, append_nil, length_append]
      omega
    · rw [hb, hdead h, append_nil]

theorem trans (h₁ : Wrote k rs none k₁) (h₂ : Wrote k₁ qs err k₂) : Wrote k (rs ++ qs) err k₂ where
  pre := by
    rw [encodes_append, ← append_assoc, ← h₁.all rfl]
    exact h₂.pre
  all h := by
    rw [encodes_append, ← append_assoc, ← h₁.all rfl]
    exact h₂.all h
  cut h := by
    rw [encodes_append, ← append_assoc, ← h₁.all rfl]
    exact h₂.cut h
  broken := h₂.broken
  reliable h := h₂.reliable (h₁.reliable h).2
  dead h := by
    obtain ⟨hb, hr⟩ := h₁.dead h
    rw [← hb]
    exact h₂.dead hr

end Wrote

/-- All of `xs` has gone out, or as much as there is room for. -/
structure Sent (k : Sink) (xs : Bytes) : Prop where
  pre : k.bytes <+: xs
  full : k.bytes = xs ∨ k.room = some 0

namespace Sent
variable {k k' : Sink} {xs : Bytes}

theorem start (room : Option Nat) : Sent ⟨[], room⟩ [] := ⟨prefix_rfl, .inl rfl⟩

theorem reliable (h : Sent k xs) (hroom : k.room = none) : k.bytes = xs := by
  rcases h.full with hfull | hz
  · exact hfull
  · rw [hroom] at hz
    cases hz

theorem write (h : Sent k xs) {data : Bytes} {err : Option Err} (hw : k.write data = (err, k')) :
    Sent k' (xs ++ data) := by
  by_cases hne : data = []
  · subst hne
    have hk' : k'.bytes = k.bytes ∧ k'.room = k.room := by
      unfold Sink.write at hw
      cases hroom : k.room <;> rw [hroom] at hw <;> cases hw <;> simp
    rw [append_nil]
    exact ⟨hk'.1 ▸ h.pre, hk'.1 ▸ hk'.2 ▸ h.full⟩
  rcases sink_write_cases k hne with ⟨k₁, hk, hb, hroom, -⟩ | ⟨e, k₁, w, hk, hb, hpre, -, -, hroom, hdead⟩
  · cases hk.symm.trans hw
    rcases h.full with hfull | hz
    · rw [hfull] at hb
      exact ⟨hb ▸ prefix_rfl, .inl hb⟩
    · exact absurd hz hroom
  · cases hk.symm.trans hw
    refine ⟨?_, .inr hroom⟩
    rcases h.full with hfull | hz
    · rw [hb, hfull]
      exact (prefix_append_right_inj _).mpr hpre
    · rw [hb, hdead hz, append_nil]
      exact h.pre.trans (prefix_append _ _)

theorem wrote {rs : List Record} {err : Option Err} (h : Sent k xs) (hw : Wrote k rs err k') :
    Sent k' (xs ++ encodes rs) ∧ (k'.bytes = xs ++ encodes rs ↔ k.bytes = xs ∧ err = none) := by
  rcases h.full with rfl | hz
  · refine ⟨⟨hw.pre, ?_⟩, fun heq => ⟨rfl, ?_⟩, fun ⟨_, herr⟩ => hw.all herr⟩
    · cases herr : err with
      | none => exact .inl (hw.all herr)
      | some e => exact .inr (hw.broken (by simp [herr]))
    · cases herr : err with
      | none => rfl
      | some e =>
        have hcut := hw.cut (by simp [herr])
        rw [heq] at hcut
        exact absurd hcut (lt_irrefl _)
  · obtain ⟨hb, hr⟩ := hw.dead hz
    refine ⟨⟨by rw [hb]; exact h.pre.trans (prefix_append _ _), .inr hr⟩, fun heq => ?_, fun ⟨hfull, herr⟩ => ?_⟩
    · -- A broken transport took no more, so the records are none.
      rw [hb] at heq
      have hlen := h.pre.length_le
      rw [heq, length_append] at hlen
      have hnil : encodes rs = [] := length_eq_zero_iff.mp (by omega)
      rw [hnil, append_nil] at heq
      refine ⟨heq, ?_⟩
      cases herr : err with
      | none => rfl
      | some e =>
        have hcut := hw.cut (by simp [herr])
        rw [hb, hnil, append_nil] at hcut
        exact absurd hcut (lt_irrefl _)
    · rw [hw.all herr, hfull]

end Sent

theorem appendShapePad_encode {r : Record} {n : Nat} {words : Nat → Nat} {hd : Bytes} (hpad : r.pad =
      ((range ((n + 7) / 8)).flatMap fun i => putUint64 (words i)).take n)
    (hhd : hd = recordHeader (2 + r.payload.length + n) ++ putUint16 r.mark ++ r.payload) :
    appendShapePad hd n words = r.encode := by
  have hn : r.pad.length = n := by rw [hpad, length_padding]
  rw [appendShapePad, ← hpad, hhd, Record.encode, hn]
  simp only [append_assoc]

theorem fillerRecord_encode (d : FillerDraws) : ∃ r : Record, fillerRecord d = r.encode ∧ r.Body ∧ r.payload = [] := by
  refine ⟨.filler (((range ((d.len + 7) / 8)).flatMap fun i => putUint64 (d.words i)).take d.len), ?_, ?_, rfl⟩
  · exact appendShapePad_encode rfl (by simp [Record.payload, Record.mark])
  · show 0 + _ ≤ _
    rw [zero_add, Record.pad, length_padding]
    exact d.len_le

namespace FramedConn
variable {c : FramedConn}

theorem writeLoop_round (c : FramedConn) (d : Nat → Draws) {b : Bytes} (hnil : b ≠ []) :
    ∃ n r, 0 < n ∧ n ≤ b.length ∧ Record.Body r ∧ r.payload = b.take n ∧ ∀ fuel sent out,
      (∀ e, c.out.write r.encode = (some e, out) → c.writeLoop (fuel + 1) d b sent = ({ c with out }, sent, some e)) ∧
      (c.out.write r.encode = (none, out) → c.writeLoop (fuel + 1) d b sent =
        writeLoop { c with out } fuel (fun i => d (i + 1)) (b.drop n) (sent + n)) := by
  have hpos := length_pos_iff.mpr hnil
  generalize hn : (if framedMaxData < chunkLen (d 0) b.length then framedMaxData
    else chunkLen (d 0) b.length) = n
  have hn1 : 0 < n ∧ n ≤ framedMaxData ∧ n ≤ b.length := by
    have hp := chunkLen_pos (d 0) hpos
    have hl := chunkLen_le (d 0) b.length
    rw [← hn]
    split
    · exact ⟨by decide, le_rfl, by omega⟩
    · exact ⟨hp, by omega, hl⟩
  generalize hpad : (if (d 0).budget.take.1 then shapePadLen (d 0) (framedMaxData - n) else 0) = pad
  have hpad1 : n + pad ≤ framedMaxData := by
    have := shapePadLen_le (d 0) (framedMaxData - n)
    rw [← hpad]
    split <;> omega
  have htake : (b.take n).length = n := by
    rw [length_take]
    omega
  obtain ⟨r, hr, hbody, hpay⟩ : ∃ r : Record,
      appendShapePad (recordHeader (2 + n + pad) ++ putUint16 n ++ b.take n) pad (d 0).words = r.encode ∧
        r.Body ∧ r.payload = b.take n := by
    refine ⟨.data (b.take n) (((range ((pad + 7) / 8)).flatMap fun i => putUint64 ((d 0).words i)).take pad),
      appendShapePad_encode rfl (by simp only [Record.payload, Record.mark, htake]), ⟨?_, ?_⟩, rfl⟩
    · rw [← length_pos_iff, htake]
      exact hn1.1
    · show (b.take n).length + _ ≤ _
      rw [htake, Record.pad, length_padding]
      exact hpad1
  refine ⟨n, r, hn1.1, hn1.2.2, hbody, hpay, fun fuel sent out => ⟨fun e hwrite => ?_, fun hwrite => ?_⟩⟩
  · rw [writeLoop, if_neg hnil]
    dsimp only
    rw [hn, hpad, hr, hwrite]
  · rw [writeLoop, if_neg hnil]
    dsimp only
    rw [hn, hpad, hr, hwrite]

theorem writeLoop_spec : ∀ {fuel : Nat} (c : FramedConn) (d : Nat → Draws) {b : Bytes} (sent : Nat),
    b.length ≤ fuel → ∃ rs out n err, c.writeLoop fuel d b sent = ({ c with out }, n, err) ∧ Wrote c.out rs err out ∧
      (∀ r ∈ rs, r.Body) ∧ payloads rs <+: b ∧ (err = none → payloads rs = b ∧ n = sent + b.length) := by
  intro fuel
  induction fuel with
  | zero =>
    intro c d b sent hb
    obtain rfl : b = [] := length_eq_zero_iff.mp (by omega)
    exact ⟨[], c.out, sent, none, rfl, Wrote.nil _, by simp, by simp, by simp⟩
  | succ fuel ih =>
    intro c d b sent hb
    by_cases hnil : b = []
    · subst hnil
      exact ⟨[], c.out, sent, none, by simp [writeLoop], Wrote.nil _, by simp, by simp, by simp⟩
    · obtain ⟨n, r, hpos, hle, hbody, hpay, hround⟩ := writeLoop_round c d hnil
      obtain ⟨err, out, hwrite, hw⟩ := Wrote.record (k := c.out) r
      obtain ⟨hfail, hnext⟩ := hround fuel sent out
      cases err with
      | some e =>
        refine ⟨[r], out, sent, some e, hfail e hwrite, hw, by simpa using hbody, ?_, by simp⟩
        rw [payloads_cons, payloads_nil, append_nil, hpay]
        exact take_prefix _ _
      | none =>
        have hfuel : (b.drop n).length ≤ fuel := by
          rw [length_drop]
          omega
        obtain ⟨rs, out', m, err, heq, hws, hbodies, hpre, hall⟩ :=
          ih { c with out } (fun i => d (i + 1)) (sent + n) hfuel
        refine ⟨r :: rs, out', m, err, (hnext hwrite).trans heq, hw.trans hws, ?_, ?_, fun h => ?_⟩
        · exact forall_mem_cons.mpr ⟨hbody, hbodies⟩
        · rw [payloads_cons, hpay]
          conv_rhs => rw [← take_append_drop n b]
          exact (prefix_append_right_inj _).mpr hpre
        · obtain ⟨hp, hm⟩ := hall h
          rw [payloads_cons, hpay, hp, take_append_drop]
          refine ⟨rfl, ?_⟩
          rw [hm, length_drop]
          omega

theorem write_spec (ho : c.ended = false) (d : Nat → Draws) (b : Bytes) :
    ∃ rs out n err, c.write d b = ({ c with out }, n, err) ∧ Wrote c.out rs err out ∧
      (∀ r ∈ rs, r.Body) ∧ payloads rs <+: b ∧ (err = none → payloads rs = b ∧ n = b.length) := by
  obtain ⟨rs, out, n, err, heq, hw, hb, hp, hall⟩ := writeLoop_spec c d 0 (le_refl b.length)
  refine ⟨rs, out, n, err, ?_, hw, hb, hp, fun h => ?_⟩
  · rw [write, if_neg (by simp [ho])]
    exact heq
  · obtain ⟨h1, h2⟩ := hall h
    exact ⟨h1, by omega⟩

theorem writeFiller_spec (ho : c.ended = false) (d : FillerDraws) :
    ∃ r out err, c.writeFiller d = ({ c with out }, err) ∧ Wrote c.out [r] err out ∧ r.Body ∧ r.payload = [] := by
  obtain ⟨r, hr, hb, hp⟩ := fillerRecord_encode d
  obtain ⟨err, out, hwrite, hw⟩ := Wrote.record (k := c.out) r
  refine ⟨r, out, err, ?_, hw, hb, hp⟩
  rw [writeFiller, if_neg (by simp [ho]), hr, hwrite]

theorem writeMarker_spec (mk : Bytes → Record) {marker : Nat} (hmark : ∀ pad, (mk pad).mark = marker)
    (hpay : ∀ pad, (mk pad).payload = []) (hpad : ∀ pad, (mk pad).pad = pad) (c : FramedConn) (d : Draws) :
    ∃ pad out err, c.writeMarker d marker = ({ c with out }, err) ∧ Wrote c.out [mk pad] err out ∧ (mk pad).Fits := by
  generalize hn : (if d.budget.take.1 then shapePadLen d framedMaxData else 0) = n
  have hle : n ≤ framedMaxData := by
    have := shapePadLen_le d framedMaxData
    rw [← hn]
    split <;> omega
  let pad := ((range ((n + 7) / 8)).flatMap fun i => putUint64 (d.words i)).take n
  have henc : appendShapePad (recordHeader (2 + n) ++ putUint16 marker) n d.words = (mk pad).encode :=
    appendShapePad_encode (hpad pad) (by simp [hpay, hmark])
  obtain ⟨err, out, hwrite, hw⟩ := Wrote.record (k := c.out) (mk pad)
  refine ⟨pad, out, err, ?_, hw, ?_⟩
  · simp only [writeMarker, hn, henc, hwrite]
  · unfold Record.Fits
    rw [hpay, hpad, length_padding, length_nil, zero_add]
    exact hle

theorem endStream_spec (ho : c.ended = false) (d : Draws) :
    ∃ pad out err, c.endStream d = ({ c with out, ended := true, endErr := err }, err) ∧
      Wrote c.out [.finish pad] err out ∧ (Record.finish pad).Fits := by
  obtain ⟨pad, out, err, heq, hw, hf⟩ := writeMarker_spec .finish (fun _ => rfl) (fun _ => rfl) (fun _ => rfl)
    { c with ended := true } d
  exact ⟨pad, out, err, by rw [endStream, if_neg (by simp [ho]), heq], hw, hf⟩

theorem endStream_sent {xs : Bytes} (ho : c.ended = false) (hsent : Sent c.out xs) (d : Draws) :
    ∃ pad out err, c.endStream d = ({ c with out, ended := true, endErr := err }, err) ∧ (Record.finish pad).Fits ∧
      Sent out (xs ++ (Record.finish pad).encode) ∧ (err = none ↔ out.bytes = xs ++ (Record.finish pad).encode) ∧
      (err = none → c.out.bytes = xs) := by
  obtain ⟨pad, out, err, heq, hw, hfits⟩ := endStream_spec ho d
  obtain ⟨hsent', hfull⟩ := hsent.wrote hw
  rw [encodes_cons, encodes_nil, append_nil] at hsent' hfull
  have hbytes : err = none → c.out.bytes = xs := by
    intro herr
    rcases hsent.full with hb | hz
    · exact hb
    · -- A transport that had broken would not have taken the mark.
      have hall := hw.all herr
      rw [(hw.dead hz).1, encodes_cons, encodes_nil, append_nil] at hall
      have hnil := append_right_eq_self.mp hall.symm
      exact absurd (congrArg length hnil) (by rw [Record.length_encode, length_nil]; omega)
  exact ⟨pad, out, err, heq, hfits, hsent',
    ⟨fun herr => hfull.mpr ⟨hbytes herr, herr⟩, fun h => (hfull.mp h).2⟩, hbytes⟩

theorem switchRaw_spec (ho : c.ended = false) (d : Draws) :
    ∃ pad out err, c.switchRaw d = ({ c with out, ended := true, switched := true }, err) ∧
      Wrote c.out [.switch pad] err out ∧ (Record.switch pad).Fits := by
  obtain ⟨pad, out, err, heq, hw, hf⟩ := writeMarker_spec .switch (fun _ => rfl) (fun _ => rfl) (fun _ => rfl)
    { c with ended := true, switched := true } d
  refine ⟨pad, out, err, ?_, hw, hf⟩
  rw [switchRaw, if_neg (by simp [ho])]
  exact heq

end FramedConn

end Whispera
