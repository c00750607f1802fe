import Whispera.Splice
import Whispera.Theorems.FramedReader
import Whispera.Theorems.FramedWriter

/-! The pump reads a spliced stream through a counter that hides `SpliceTo`, and stops at the switch mark. -/

namespace Whispera
open List BigEndian Reader

/-- What the target sends behind the read that uses up the threshold `left`. -/
def spliceRestLoop : Nat → Int → Stream → Bytes
  | 0, _, src => src.bytes
  | fuel + 1, left, src =>
    if left ≤ 0 then src.bytes
    else
      match src.read spliceReadBuf with
      | (_, some _, _) => []
      | (pre, none, src) => spliceRestLoop fuel (left - pre.length) src

def spliceRest (left : Int) (src : Stream) : Bytes := spliceRestLoop (src.bytes.length + 1) left src

theorem spliceWrite_spec {down : FramedConn} (hopen : down.ended = false) (hroom : down.out.room = none)
    (d : Nat → Draws)
    (pre : Bytes) : ∃ rs out,
      (if pre = [] then (down, 0, none) else down.write d pre) = ({ down with out }, pre.length, none) ∧
        Wrote down.out rs none out ∧ (∀ r ∈ rs, r.Body) ∧ payloads rs = pre := by
  by_cases hpre : pre = []
  · exact ⟨[], down.out, by rw [if_pos hpre, hpre]; rfl, Wrote.nil _, by simp, hpre.symm⟩
  · obtain ⟨rs, out, n, err, heq, hw, hb, -, hall⟩ := FramedConn.write_spec hopen d pre
    obtain ⟨rfl, -⟩ := hw.reliable hroom
    obtain ⟨hp, rfl⟩ := hall rfl
    exact ⟨rs, out, by rw [if_neg hpre, heq], hw, hb, hp⟩

theorem spliceLoop_spec : ∀ (fuel : Nat) (d : Nat → Nat → Draws) (down : FramedConn) (left : Int) {src : Stream},
    src.bytes.length < fuel → down.ended = false → down.out.room = none →
    ∃ rs out err src', spliceLoop fuel d down left src = ({ down with out }, err, src') ∧ Wrote down.out rs none out ∧
      (∀ r ∈ rs, r.Body) ∧ payloads rs ++ spliceRestLoop fuel left src = src.bytes ∧
      (err = none → src'.bytes = spliceRestLoop fuel left src) ∧ (err ≠ none → spliceRestLoop fuel left src = []) := by
  intro fuel
  induction fuel with
  | zero =>
    intro d down left src hfuel
    exact absurd hfuel (Nat.not_lt_zero _)
  | succ fuel ih =>
    intro d down left src hfuel hopen hroom
    by_cases hleft : left ≤ 0
    · refine ⟨[], down.out, none, src, ?_, Wrote.nil _, by simp, ?_, fun _ => ?_, fun h => absurd rfl h⟩
      · rw [spliceLoop, if_pos hleft]
      · rw [spliceRestLoop, if_pos hleft, payloads_nil, nil_append]
      · rw [spliceRestLoop, if_pos hleft]
    · obtain ⟨pre, rerr, src₁, rest, hread, -, hcat, hcase⟩ :=
        Stream.yields spliceReadBuf (⟨rfl, rfl⟩ : src.Holds src.bytes src.fin) (by decide)
      obtain ⟨rs, out, hwrite, hw, hbody, hpay⟩ := spliceWrite_spec hopen hroom (d 0) pre
      rcases hcase with ⟨rfl, hne, hs₁⟩ | ⟨rfl, rfl, -⟩
      · have hloop : spliceLoop (fuel + 1) d down left src =
            spliceLoop fuel (fun i => d (i + 1)) { down with out } (left - pre.length) src₁ := by
          rw [spliceLoop, if_neg hleft]
          simp only [hread, hwrite]
        have hrest : spliceRestLoop (fuel + 1) left src = spliceRestLoop fuel (left - pre.length) src₁ := by
          rw [spliceRestLoop, if_neg hleft]
          simp only [hread]
        have hlen : src₁.bytes.length < fuel := by
          have hpos := length_pos_iff.mpr hne
          rw [hcat, length_append] at hfuel
          rw [hs₁.1]
          omega
        obtain ⟨qs, out', err, src', heq, hw', hbody', hcat', hnone, hsome⟩ :=
          ih (fun i => d (i + 1)) { down with out } (left - pre.length) hlen hopen (hw.reliable hroom).2
        refine ⟨rs ++ qs, out', err, src', by rw [hloop, heq], hw.trans hw', ?_, ?_, ?_, ?_⟩
        · exact forall_mem_append.mpr ⟨hbody, hbody'⟩
        · rw [hrest, payloads_append, append_assoc, hcat', hpay, hcat, hs₁.1]
        · rw [hrest]
          exact hnone
        · rw [hrest]
          exact hsome
      · have hrest : spliceRestLoop (fuel + 1) left src = [] := by
          rw [spliceRestLoop, if_neg hleft]
          simp only [hread]
        refine ⟨rs, out, some src.fin, src₁, ?_, hw, hbody, ?_, fun h => absurd h (by simp), fun _ => hrest⟩
        · rw [spliceLoop, if_neg hleft]
          simp only [hread, hwrite]
        · rw [hrest, hpay, hcat]

/-- Records with the first bytes of the target, then a tail on which the client's reader stops, and the rest
    behind it. -/
theorem serveSpliced_spec (d : Nat → Nat → Draws) (dSwitch dEnd : Draws) (left : Int) (src : Stream)
    (clientEnded : Bool)
    (back : Stream) : ∃ rs tail,
      (serveSpliced d dSwitch dEnd left src clientEnded { inp := back, out := ⟨[], none⟩ }).out.bytes =
      encodes rs ++ tail ∧
      (∀ r ∈ rs, r.Body) ∧ payloads rs ++ spliceRest left src = src.bytes ∧
      ∀ te, ∃ v, Ends tail te v (spliceRest left src) ∧ (v = .ok [] ∨ ∃ e, v = .error e) ∧
        (v = .error errSwitchRaw ∨ spliceRest left src = []) := by
  obtain ⟨rs, out, err, src', heq, hw, hbody, hcat, hnone, hsome⟩ := spliceLoop_spec (src.bytes.length + 1) d
    { inp := back, out := ⟨[], none⟩ } left (Nat.lt_succ_self _) rfl rfl
  have hout : out.bytes = encodes rs := hw.all rfl
  have hroom : out.room = none := (hw.reliable rfl).2
  cases err with
  | some e =>
    -- The target ended before the threshold was used up.
    have hrest : spliceRest left src = [] := hsome (by simp)
    have hfrom : spliceFrom d dSwitch { inp := back, out := ⟨[], none⟩ } left src =
        ({ inp := back, out }, some e, src') := by
      rw [spliceFrom, heq]
    obtain ⟨pad, out', err', hend, hw', hfits⟩ := FramedConn.endStream_spec (c := { inp := back, out }) rfl dEnd
    obtain ⟨rfl, -⟩ := hw'.reliable hroom
    cases clientEnded with
    | true =>
      refine ⟨rs, (Record.finish pad).encode, ?_, hbody, hcat, fun te => ⟨.ok [], ?_, .inl rfl, .inr hrest⟩⟩
      · have hwire : out'.bytes = encodes rs ++ (Record.finish pad).encode := by
          rw [hw'.all rfl, hout, encodes_cons, encodes_nil, append_nil]
        simpa [serveSpliced, hfrom, hend] using hwire
      · rw [hrest]
        have hends : Ends ((Record.finish pad).encode ++ []) te (.ok []) [] := ends_finish hfits []
        rwa [append_nil] at hends
    | false =>
      refine ⟨rs, [], ?_, hbody, hcat, fun te => ?_⟩
      · simpa [serveSpliced, hfrom] using hout
      · have hpos : 0 < (Record.finish pad).encode.length := by
          rw [Record.length_encode]
          omega
        obtain ⟨e, he, -⟩ : ∃ e, Ends [] te (.error e) [] ∧ _ := ends_cut hfits nil_prefix hpos
        exact ⟨.error e, by rw [hrest]; exact he, .inr ⟨e, rfl⟩, .inr hrest⟩
  | none =>
    obtain ⟨pad, out', err', hsw, hw', hfits⟩ := FramedConn.switchRaw_spec (c := { inp := back, out }) rfl dSwitch
    obtain ⟨rfl, hroom'⟩ := hw'.reliable hroom
    obtain ⟨src'', hcopy, -⟩ := copy_yields Stream.yields (by decide : 0 < 32768) (src'.bytes.length + 1) out'.bytes
      (⟨rfl, rfl⟩ : src'.Holds src'.bytes src'.fin) (Nat.lt_succ_self _)
    have hsink : out' = ⟨out'.bytes, none⟩ := by rw [← hroom']
    have hfrom : spliceFrom d dSwitch { inp := back, out := ⟨[], none⟩ } left src =
        ({ inp := back, out := ⟨out'.bytes ++ src'.bytes, none⟩, ended := true, switched := true },
          if src'.fin = .eof then none else some src'.fin, src'') := by
      rw [hsink] at hsw
      simp only [spliceFrom, heq, hsw, hcopy]
    refine ⟨rs, (Record.switch pad).encode ++ spliceRest left src, ?_, hbody, hcat,
      fun te => ⟨_, ends_switch hfits _, .inr ⟨_, rfl⟩, .inl rfl⟩⟩
    have hrest : src'.bytes = spliceRest left src := hnone rfl
    simp only [serveSpliced, hfrom, FramedConn.endStream]
    simp [hw'.all rfl, hout, hrest]

theorem spliceRestLoop_ne_nil : ∀ (fuel : Nat) {left : Int} {src : Stream},
    left + spliceReadBuf ≤ src.bytes.length → src.bytes ≠ [] → spliceRestLoop fuel left src ≠ [] := by
  intro fuel
  induction fuel with
  | zero =>
    intro left src _ hne
    exact hne
  | succ fuel ih =>
    intro left src hlen hne
    by_cases hleft : left ≤ 0
    · rw [spliceRestLoop, if_pos hleft]
      exact hne
    · obtain ⟨pre, rerr, src₁, rest, hread, hpre, hcat, hcase⟩ :=
        Stream.yields spliceReadBuf (⟨rfl, rfl⟩ : src.Holds src.bytes src.fin) (by decide)
      rw [hcat, length_append] at hlen
      rw [spliceRestLoop, if_neg hleft]
      rcases hcase with ⟨rfl, -, hs₁⟩ | ⟨rfl, rfl, -⟩
      · simp only [hread]
        have hpos : 0 < rest.length := by omega
        refine ih ?_ ?_
        · rw [hs₁.1]
          omega
        · rw [hs₁.1]
          exact length_pos_iff.mp hpos
      · rw [length_nil] at hlen
        omega

variable {R : FramedConn → Bytes → Err → Prop} {Q : FramedConn → Err → Prop}

theorem CountReader.yields
    (h : Yields FramedConn.read R Q) : Yields CountReader.read (fun c => R c.r.down) (fun c => Q c.r.down) :=
  h.comap fun _ _ => ⟨_, rfl, rfl⟩

theorem KeepAliveStream.yields
    (h : Yields FramedConn.read R Q) : Yields KeepAliveStream.read (fun c => R c.down) (fun c => Q c.down) :=
  h.comap fun _ _ => ⟨_, rfl, rfl⟩

section
variable (d : Nat → Nat → Draws) (dSwitch dEnd : Draws) (left : Int) (src : Stream) (clientEnded : Bool) (back : Stream)
variable (sizes : Nat → Nat) (te : Err) (together : Bool) (up : FramedConn) (k : Sink)

/-- The stream on the client, on a connection that carried what the server sent and then fails with `te`. -/
def splicedStream : KeepAliveStream where
  up := up
  down :=
    { inp := ⟨(serveSpliced d dSwitch dEnd left src clientEnded { inp := back, out := ⟨[], none⟩ }).out.bytes,
      sizes, te,
        together⟩
      out := k }

theorem splicedStream_spec : ∃ rs tail v, Ends tail te v (spliceRest left src) ∧ (v = .ok [] ∨ ∃ e, v = .error e) ∧
    (v = .error errSwitchRaw ∨ spliceRest left src = []) ∧ payloads rs ++ spliceRest left src = src.bytes ∧
    (splicedStream d dSwitch dEnd left src clientEnded back sizes te together up k).down.Expects tail te v (payloads rs)
      (verdictErr v) ∧
    (payloads rs).length < (splicedStream d dSwitch dEnd left src clientEnded back sizes te together up k).rounds := by
  obtain ⟨rs, tail, hwire, hbody, hcat, htail⟩ := serveSpliced_spec d dSwitch dEnd left src clientEnded back
  obtain ⟨v, hends, hv, hrest⟩ := htail te
  refine ⟨rs, tail, v, hends, hv, hrest, hcat, ⟨rfl, rfl, rs, hbody, ⟨hwire, rfl⟩, rfl⟩, ?_⟩
  have hle := length_payloads_le rs
  rw [KeepAliveStream.rounds, splicedStream, hwire, length_append]
  omega

theorem routeDown_spliced :
    (routeDown true (splicedStream d dSwitch dEnd left src clientEnded back sizes te together up k) ⟨[], none⟩).bytes ++
      spliceRest left src = src.bytes := by
  obtain ⟨rs, tail, v, hends, hv, -, hcat, hexp, hrounds⟩ :=
    splicedStream_spec d dSwitch dEnd left src clientEnded back sizes te together up k
  generalize splicedStream d dSwitch dEnd left src clientEnded back sizes te together up k = st at hexp hrounds ⊢
  obtain ⟨c, hcopy, -⟩ :=
    copy_yields (CountReader.yields (FramedConn.yields hends hv)) (by decide : 0 < bufSize) st.rounds
    (s := { r := st, n := 0 }) [] hexp hrounds
  rw [routeDown, if_pos rfl, pump, hcopy]
  exact hcat

/-- `SpliceTo`, which a pump on the stream itself would call, delivers every byte of the target. -/
theorem spliceTo_spliced :
    ((splicedStream d dSwitch dEnd left src clientEnded back sizes te together up k).spliceTo ⟨[], none⟩).2.2.bytes =
      src.bytes := by
  obtain ⟨rs, tail, v, hends, hv, hrest, hcat, hexp, hrounds⟩ :=
    splicedStream_spec d dSwitch dEnd left src clientEnded back sizes te together up k
  generalize splicedStream d dSwitch dEnd left src clientEnded back sizes te together up k = st at hexp hrounds ⊢
  obtain ⟨c, hcopy, -, -, hinp⟩ := copy_yields (KeepAliveStream.yields (FramedConn.yields hends hv))
    (by decide : 0 < bufSize) st.rounds [] hexp hrounds
  rw [nil_append] at hcopy
  generalize herr : (if verdictErr v = Err.eof then none else some (verdictErr v)) = err at hcopy
  rw [KeepAliveStream.spliceTo, hcopy]
  by_cases hsw : err = some errSwitchRaw
  · obtain ⟨s', hraw, -⟩ :=
      copy_yields Stream.yields (by decide : 0 < 32768) (c.down.inp.bytes.length + 1) (payloads rs)
      hinp (by rw [hinp.1]; exact Nat.lt_succ_self _)
    simp only [hsw, if_true, hraw, hcat]
  · rcases hrest with rfl | hrest
    · exact absurd herr.symm hsw
    · rw [hrest, append_nil] at hcat
      simp only [hsw, if_false, hcat]

/-- The SOCKS client gets the whole answer exactly when the target sends nothing behind the read that uses up
    the threshold. -/
theorem spliced_delivery_iff :
    (routeDown true (splicedStream d dSwitch dEnd left src clientEnded back sizes te together up k) ⟨[], none⟩).bytes =
      src.bytes ↔ spliceRest left src = [] := by
  have hcat := routeDown_spliced d dSwitch dEnd left src clientEnded back sizes te together up k
  constructor
  · intro h
    rw [h] at hcat
    exact append_right_eq_self.mp hcat
  · intro h
    rwa [h, append_nil] at hcat

end

def longAnswer : Stream := ⟨List.replicate 4259840 7, fun _ => 65535, .eof, false⟩

theorem spliced_long_answer_is_cut :
    (routeDown true (splicedStream (fun _ _ => paddedDraws) paddedDraws paddedDraws spliceAfterBytes longAnswer true
      ⟨[], fun _ => 0, .eof, false⟩ (fun _ => 0) .eof false { inp := ⟨[], fun _ => 0, .eof, false⟩, out := ⟨[], none⟩ }
      ⟨[], none⟩) ⟨[], none⟩).bytes ≠ longAnswer.bytes := by
  intro h
  have hcat := routeDown_spliced (fun _ _ => paddedDraws) paddedDraws paddedDraws spliceAfterBytes longAnswer true
    ⟨[], fun _ => 0, .eof, false⟩
      (fun _ => 0) .eof false { inp := ⟨[], fun _ => 0, .eof, false⟩, out := ⟨[], none⟩ } ⟨[], none⟩
  rw [h] at hcat
  refine spliceRestLoop_ne_nil _ ?_ ?_ (append_right_eq_self.mp hcat)
  · rw [longAnswer, length_replicate]
    decide
  · rw [longAnswer, ← length_pos_iff, length_replicate]
    decide

end Whispera
