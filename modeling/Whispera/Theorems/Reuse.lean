import Whispera.Theorems.Answer
import Whispera.Theorems.RoundTrip

/-! The server keeps a parked connection if it gets to read the end mark of the client. What keeps it from
that is a write to the target that fails, a frame of no bytes in a stream of datagrams, and a switch to raw.
-/

namespace Whispera
open List hiding get
open BigEndian Reader Transition

/-- The reader has `xs` ahead, and then the end of the stream; it may have come to the end already. -/
def FramedConn.Comes (pad next : Bytes) (te : Err) (c : FramedConn) (xs : Bytes) (e : Err) : Prop :=
  c.Expects ((Record.finish pad).encode ++ next) te (.ok []) xs e ∨ xs = [] ∧ e = .eof ∧ c.Stopped next te (.ok []) e

namespace FramedConn
variable {pad next : Bytes} {te : Err} {c c' : FramedConn} {xs : Bytes}

theorem comes_yields (hfits : (Record.finish pad).Fits) :
    Yields FramedConn.read (Comes pad next te) (fun c e => e = .eof ∧ c.Stopped next te (.ok []) e) := by
  have hy : Yields FramedConn.read (Expects ((Record.finish pad).encode ++ next) te (.ok []))
      (fun c e => e = .eof ∧ c.Stopped next te (.ok []) e) := by
    rintro c xs e n ⟨hdone, rfl, hrs⟩ hn
    obtain ⟨data, err, c', xs', heq, hle, hxs, hcase⟩ :=
      FramedConn.yields (ends_finish hfits next) (.inl rfl) n ⟨hdone, rfl, hrs⟩ hn
    refine ⟨data, err, c', xs', heq, hle, hxs, ?_⟩
    rcases hcase with h | ⟨herr, hnil, hstop⟩
    · exact .inl h
    · exact .inr ⟨herr, hnil, rfl, hstop⟩
  refine hy.again ?_
  rintro n c e ⟨rfl, hdone, hbuf, -⟩
  have hdone' : c.done = true := hdone
  simp [FramedConn.read, hbuf, hdone']

/-- The reading half is as before. -/
structure SameReader (c c' : FramedConn) : Prop where
  inp : c'.inp = c.inp
  rbuf : c'.rbuf = c.rbuf
  done : c'.done = c.done
  switched : c'.switched = c.switched

theorem SameReader.refl (c : FramedConn) : c.SameReader c := ⟨rfl, rfl, rfl, rfl⟩

theorem Stopped.congr (h : c.Stopped next te (.ok []) .eof) (hs : c.SameReader c') :
    c'.Stopped next te (.ok []) .eof := by
  unfold Stopped
  rw [hs.inp, hs.rbuf, hs.done]
  exact h

theorem Comes.congr (h : c.Comes pad next te xs .eof) (hs : c.SameReader c') : c'.Comes pad next te xs .eof := by
  rcases h with h | ⟨hnil, heof, hstop⟩
  · refine .inl ?_
    unfold Expects
    rw [hs.inp, hs.rbuf, hs.done]
    exact h
  · exact .inr ⟨hnil, heof, hstop.congr hs⟩

theorem write_sameReader (c : FramedConn) (d : Nat → Draws) (b : Bytes) : c.SameReader (c.write d b).1 := by
  cases hended : c.ended with
  | true =>
    rw [write, if_pos hended]
    exact .refl c
  | false =>
    obtain ⟨rs, out, n, err, heq, -⟩ := write_spec hended d b
    rw [heq]
    exact ⟨rfl, rfl, rfl, rfl⟩

theorem writeFiller_sameReader (c : FramedConn) (d : FillerDraws) : c.SameReader (c.writeFiller d).1 := by
  cases hended : c.ended with
  | true =>
    rw [writeFiller, if_pos hended]
    exact .refl c
  | false =>
    obtain ⟨r, out, err, heq, -⟩ := writeFiller_spec hended d
    rw [heq]
    exact ⟨rfl, rfl, rfl, rfl⟩

theorem endStream_sameReader (c : FramedConn) (d : Draws) : c.SameReader (c.endStream d).1 := by
  cases hended : c.ended with
  | true =>
    rw [endStream, if_pos hended]
    exact .refl c
  | false =>
    obtain ⟨pad, out, err, heq, -⟩ := endStream_spec hended d
    rw [heq]
    exact ⟨rfl, rfl, rfl, rfl⟩

theorem endStream_ended (c : FramedConn) (d : Draws) :
    (c.endStream d).1.ended = true ∧ (c.endStream d).1.endErr = (c.endStream d).2 := by
  cases hended : c.ended with
  | true =>
    rw [endStream, if_pos hended]
    exact ⟨hended, rfl⟩
  | false =>
    obtain ⟨pad, out, err, heq, -⟩ := endStream_spec hended d
    rw [heq]
    exact ⟨rfl, rfl⟩

section
variable (hfits : (Record.finish pad).Fits)
include hfits

section
variable (h : c.Comes pad next te xs .eof)
include h

theorem Comes.read {n : Nat} (hn : 0 < n) :
    (∃ data c' ys, c.read n = (data, none, c') ∧ ys.length < xs.length ∧ c'.Comes pad next te ys .eof) ∨
    (∃ data c', c.read n = (data, some .eof, c') ∧ c'.Stopped next te (.ok []) .eof) := by
  obtain ⟨data, err, c', ys, hread, -, rfl, ⟨rfl, hne, hc'⟩ | ⟨rfl, -, -, hstop⟩⟩ := comes_yields hfits n h hn
  · refine .inl ⟨data, c', ys, hread, ?_, hc'⟩
    have := length_pos_iff.mpr hne
    rw [length_append]
    omega
  · exact .inr ⟨data, c', hread, hstop⟩

theorem Comes.readFull (want : Nat) :
    (∃ data c' ys, Reader.readFull FramedConn.read want c = (data, none, c') ∧ xs = data ++ ys ∧ data.length = want ∧
      c'.Comes pad next te ys .eof) ∨
    (∃ data e c', Reader.readFull FramedConn.read want c = (data, some e, c') ∧ c'.Stopped next te (.ok []) .eof) := by
  by_cases hlen : xs.length < want
  · obtain ⟨c', hread, -, hstop⟩ := readFull_short (comes_yields hfits) h hlen
    exact .inr ⟨_, _, c', hread, hstop⟩
  · have htake : (xs.take want).length = want := by
      rw [length_take]
      omega
    rw [← take_append_drop want xs] at h
    obtain ⟨c', hread, hc' | ⟨hnil, heof, hstop⟩⟩ := readFull_yields (comes_yields hfits) h
    · rw [htake] at hread
      exact .inl ⟨_, c', _, hread, (take_append_drop want xs).symm, htake, hc'⟩
    · rw [htake] at hread
      exact .inl ⟨_, c', _, hread, (take_append_drop want xs).symm, htake, .inr ⟨hnil, heof, hstop⟩⟩

theorem Comes.readDatagram :
    (∃ data c' ys, Whispera.readDatagram c = (.ok data, c') ∧ ys.length < xs.length ∧ c'.Comes pad next te ys .eof) ∨
    (∃ e c', Whispera.readDatagram c = (.error e, c') ∧ (e = errFrameSize ∨ c'.Stopped next te (.ok []) .eof)) := by
  unfold Whispera.readDatagram
  rcases h.readFull hfits 2 with ⟨hdr, c₁, ys, hread, rfl, hlen, h₁⟩ | ⟨_, e, c₁, hread, hstop⟩
  · simp only [hread]
    by_cases hz : get hdr = 0
    · simp only [hz, if_true]
      exact .inr ⟨_, c₁, rfl, .inl rfl⟩
    · simp only [hz, if_false]
      rcases h₁.readFull hfits (get hdr) with ⟨data, c₂, zs, hread', rfl, -, h₂⟩ | ⟨_, e, c₂, hread', hstop⟩
      · simp only [hread']
        refine .inl ⟨data, c₂, zs, rfl, ?_, h₂⟩
        rw [length_append, length_append]
        omega
      · simp only [hread']
        exact .inr ⟨e, c₂, rfl, .inr hstop⟩
  · simp only [hread]
    exact .inr ⟨e, c₁, rfl, .inr hstop⟩

end

end

end FramedConn

namespace ProxyStream

/-- The write to the target succeeds, no frame of a datagram is empty, and the answer stays framed. -/
def Sound (s : ProxyStream) : ProxyAct → Prop
  | .upRead => s.kind = .udp → (readDatagram s.framed).1 ≠ .error errFrameSize
  | .upWrite err => err = none
  | .downSwitch _ => False
  | _ => True

def copies : ProxyAct → Bool
  | .filler _ => false
  | _ => true

/-- The upward copy with the steps that it has left. -/
inductive UpServing (pad next : Bytes) (te : Err) (c : FramedConn) : UpPc → Nat → Prop
  | read {xs : Bytes} : c.Comes pad next te xs .eof → UpServing pad next te c .read (2 * xs.length + 2)
  | write {xs : Bytes} (data : Bytes) : c.Comes pad next te xs .eof →
      UpServing pad next te c (.write data) (2 * xs.length + 3)
  | finish (err : Option Err) : c.Stopped next te (.ok []) .eof → UpServing pad next te c (.finish err) 1
  | done : c.Stopped next te (.ok []) .eof → UpServing pad next te c .done 0

def downWork (s : ProxyStream) : Nat :=
  match s.down with
  | .read | .readRaw => 2 * s.target.parts.length + 2
  | .write _ _ | .writeRaw _ _ => 2 * s.target.parts.length + 3
  | .finish _ => 1
  | .done => 0

/-- The stream will read the end mark of the client, if it has not, and return; `next` comes after it. At most
    `w` steps are left. -/
structure Serving (pad next : Bytes) (te : Err) (s : ProxyStream) (w : Nat) : Prop where
  reader : ∃ u, UpServing pad next te s.framed s.up u ∧ w = u + s.downWork + if s.result = none then 1 else 0
  switched : s.framed.switched = false
  target : s.up = .done → s.target.closed = true ∨ s.target.deadline = true
  result : ∀ b, s.result = some b →
    s.up = .done ∧ s.down = .done ∧ s.framed.ended = true ∧ (b = true ↔ s.framed.endErr = none)

variable {pad next : Bytes} {te : Err} {s s' : ProxyStream} {w : Nat}

theorem UpServing.congr {c c' : FramedConn} {pc : UpPc} {u : Nat} (h : UpServing pad next te c pc u)
    (hs : c.SameReader c') : UpServing pad next te c' pc u := by
  cases h with
  | read h => exact .read (h.congr hs)
  | write data h => exact .write data (h.congr hs)
  | finish err h => exact .finish err (h.congr hs)
  | done h => exact .done (h.congr hs)

theorem Serving.of_down {n : Nat} (h : Serving pad next te s w) (hres : s.result = none) (hres' : s'.result = none)
    (hup : s'.up = s.up) (hreader : s.framed.SameReader s'.framed) (hclosed : s'.target.closed = s.target.closed)
    (hdeadline : s'.target.deadline = s.target.deadline)
    (hwork : s'.downWork + n ≤ s.downWork) : ∃ w', Serving pad next te s' w' ∧ w' + n ≤ w := by
  obtain ⟨u, hu, rfl⟩ := h.reader
  refine ⟨_, ⟨⟨u, hup ▸ hu.congr hreader, rfl⟩, hreader.switched.trans h.switched, ?_, ?_⟩, ?_⟩
  · rw [hup, hclosed, hdeadline]
    exact h.target
  · intro b hb
    rw [hres'] at hb
    cases hb
  · rw [hres, hres']
    omega

theorem Serving.result_none (h : Serving pad next te s w) (hup : s.up ≠ .done ∨ s.down ≠ .done) : s.result = none := by
  cases hres : s.result with
  | none => rfl
  | some b =>
    obtain ⟨hu, hd, -⟩ := h.result b hres
    rcases hup with h | h
    · exact absurd hu h
    · exact absurd hd h

variable {data : Bytes} {err : Option Err}

theorem upRead_of_read (hkind : s.kind ≠ .udp) {framed : FramedConn}
    (hread : s.framed.read bufSize = (data, err, framed)) :
    s.upRead = { s with framed, up := match err with | none => .write data | some e => .finish (copyErr e) } := by
  cases hk : s.kind with
  | udp => exact absurd hk hkind
  | tcp | splice => cases err <;> simp only [upRead, hk, hread]

theorem upRead_serving (hfits : (Record.finish pad).Fits) {xs : Bytes} (h : s.framed.Comes pad next te xs .eof)
    (hsound : s.kind = .udp → (readDatagram s.framed).1 ≠ .error errFrameSize) :
    s.upRead.up ≠ .done ∧ ∃ u, UpServing pad next te s.upRead.framed s.upRead.up u ∧ u + 1 ≤ 2 * xs.length + 2 := by
  by_cases hkind : s.kind = .udp
  · rcases h.readDatagram hfits with ⟨data, c', ys, hread, hlt, hc'⟩ | ⟨e, c', hread, he | hstop⟩
    · simp only [upRead, hkind, hread]
      exact ⟨by simp, _, .write data hc', by omega⟩
    · refine absurd ?_ (hsound hkind)
      rw [hread, he]
    · simp only [upRead, hkind, hread]
      exact ⟨by simp, _, .finish _ hstop, by omega⟩
  · rcases h.read hfits (by decide : 0 < bufSize) with ⟨data, c', ys, hread, hlt, hc'⟩ | ⟨data, c', hread, hstop⟩
    · rw [upRead_of_read hkind hread]
      exact ⟨by simp, _, .write data hc', by omega⟩
    · rw [upRead_of_read hkind hread]
      exact ⟨by simp, _, .finish _ hstop, by omega⟩

theorem Serving.upRead (hfits : (Record.finish pad).Fits) (h : Serving pad next te s w) (hup : s.up = .read)
    (hsound : s.kind = .udp → (readDatagram s.framed).1 ≠ .error errFrameSize) :
    ∃ w', Serving pad next te s.upRead w' ∧ w' + 1 ≤ w := by
  have hres : s.result = none := h.result_none (.inl (by simp [hup]))
  obtain ⟨u, hu, rfl⟩ := h.reader
  rw [hup] at hu
  cases hu with
  | read hcomes =>
    obtain ⟨hne, u', hu', hle⟩ := upRead_serving hfits hcomes hsound
    obtain ⟨framed, up, heq, hsame⟩ := s.upRead_eq
    have hwork : s.upRead.downWork = s.downWork := by rw [heq]; rfl
    have hres' : s.upRead.result = none := by rw [heq]; exact hres
    refine ⟨_, ⟨⟨u', hu', rfl⟩, ?_, fun h => absurd h hne, fun b hb => ?_⟩, ?_⟩
    · rw [heq]
      exact hsame.switched.trans h.switched
    · rw [hres'] at hb
      cases hb
    · rw [hwork, hres, hres']
      omega

section
variable (h : Serving pad next te s w)
include h

theorem Serving.upWrite (hup : s.up = .write data) :
    ∃ w', Serving pad next te (s.upWrite data none) w' ∧ w' + 1 ≤ w := by
  have hres : s.result = none := h.result_none (.inl (by simp [hup]))
  obtain ⟨u, hu, rfl⟩ := h.reader
  rw [hup] at hu
  cases hu with
  | write _ hcomes =>
    refine ⟨_, ⟨⟨_, .read hcomes, rfl⟩, h.switched, nofun, fun b hb => ?_⟩, ?_⟩
    · rw [show (s.upWrite data none).result = s.result from rfl, hres] at hb
      cases hb
    · rw [show (s.upWrite data none).downWork = s.downWork from rfl,
        show (s.upWrite data none).result = s.result from rfl]
      omega

theorem Serving.upFinish (hup : s.up = .finish err) : ∃ w', Serving pad next te (s.upFinish err) w' ∧ w' + 1 ≤ w := by
  have hres : s.result = none := h.result_none (.inl (by simp [hup]))
  obtain ⟨u, hu, rfl⟩ := h.reader
  rw [hup] at hu
  cases hu with
  | finish _ hstop =>
    unfold ProxyStream.upFinish
    split
    · refine ⟨_, ⟨⟨_, .done hstop, rfl⟩, h.switched, fun _ => .inr rfl, fun b hb => ?_⟩, ?_⟩
      · exact absurd (hres.symm.trans hb) (by simp)
      · show 0 + s.downWork + _ + 1 ≤ 1 + s.downWork + _
        simp only [hres, if_true]
        omega
    · refine ⟨_, ⟨⟨_, .done hstop, rfl⟩, h.switched, fun _ => .inl rfl, fun b hb => ?_⟩, ?_⟩
      · exact absurd (hres.symm.trans hb) (by simp)
      · show 0 + s.downWork + _ + 1 ≤ 1 + s.downWork + _
        simp only [hres, if_true]
        omega

theorem Serving.downRead (hdown : s.down = .read) {r : TargetRead}
    {target : Target} (hread : s.target.read r = some (data, err, target)) :
    ∃ w', Serving pad next te (s.downRead data err target) w' ∧ w' + 1 ≤ w := by
  have hres : s.result = none := h.result_none (.inr (by simp [hdown]))
  obtain ⟨-, hclosed, hdeadline, hcase⟩ := Target.read_spec hread
  have hlen : target.parts.length + 1 = s.target.parts.length ∨ target = s.target ∧ data = [] ∧ err ≠ none := by
    rcases hcase with ⟨hparts, -⟩ | ⟨heq, hnil, e, rfl, -⟩
    · exact .inl (by rw [hparts, length_cons])
    · exact .inr ⟨heq, hnil, by simp⟩
  have hto : ∀ down, downWork { s with target, down } + 1 ≤ s.downWork →
      ∃ w', Serving pad next te { s with target, down } w' ∧ w' + 1 ≤ w := fun down hwork =>
    h.of_down hres hres rfl (.refl _) hclosed hdeadline hwork
  cases err with
  | none =>
    refine hto _ ?_
    split <;> simp only [downWork, hdown] <;> rcases hlen with h | ⟨-, -, h⟩ <;> first | omega | exact absurd rfl h
  | some e =>
    refine hto _ ?_
    split
    · simp only [downWork, hdown]
      omega
    · rename_i hne
      rcases hlen with h | ⟨-, hnil, -⟩
      · simp only [downWork, hdown]
        omega
      · exact absurd hnil hne

theorem Serving.downWrite (hdown : s.down = .write data err)
    (d : Nat → Draws) : ∃ w', Serving pad next te (s.downWrite d data err) w' ∧ w' + 1 ≤ w := by
  have hres : s.result = none := h.result_none (.inr (by simp [hdown]))
  have hsame := FramedConn.write_sameReader s.framed d (frame s.kind data)
  unfold ProxyStream.downWrite
  rcases hw : s.framed.write d (frame s.kind data) with ⟨framed, n, _ | e⟩ <;> rw [hw] at hsame
  · refine h.of_down hres hres rfl hsame rfl rfl ?_
    cases err <;> simp only [downWork, hdown] <;> omega
  · refine h.of_down hres hres rfl hsame rfl rfl ?_
    simp only [downWork, hdown]
    omega

theorem Serving.downFinish (hdown : s.down = .finish err) (d : Draws) :
    ∃ w', Serving pad next te (s.downFinish d err) w' ∧ w' + 1 ≤ w := by
  have hres : s.result = none := h.result_none (.inr (by simp [hdown]))
  have hwork : 0 + 1 ≤ s.downWork := by simp only [downWork, hdown, le_refl]
  unfold ProxyStream.downFinish
  split
  · exact h.of_down hres hres rfl (FramedConn.endStream_sameReader _ d) rfl rfl hwork
  · exact h.of_down hres hres rfl (.refl _) rfl rfl hwork

theorem Serving.collect (hup : s.up = .done) (hdown : s.down = .done)
    (hres : s.result = none) (d : Draws) : ∃ w', Serving pad next te (s.collect d) w' ∧ w' + 1 ≤ w := by
  obtain ⟨u, hu, rfl⟩ := h.reader
  rw [hup] at hu
  cases hu with
  | done hstop =>
    have hcond : s.framed.done = true ∧ s.framed.switched = false := ⟨hstop.1, h.switched⟩
    have hsame := FramedConn.endStream_sameReader s.framed d
    obtain ⟨hended, hend⟩ := FramedConn.endStream_ended s.framed d
    have heq : s.collect d =
        { s with framed := (s.framed.endStream d).1, result := some (decide ((s.framed.endStream d).2 = none)) } := by
      simp only [ProxyStream.collect, if_pos hcond]
    rw [heq]
    refine ⟨_, ⟨⟨0, hup ▸ .done (hstop.congr hsame), rfl⟩, hsame.switched.trans h.switched, h.target, ?_⟩, ?_⟩
    · rintro b hb
      cases hb
      refine ⟨hup, hdown, hended, ?_⟩
      rw [decide_eq_true_iff, hend]
    · simp [downWork, hdown, hres]

end

theorem Answers.framing (h : s.Answers) (hswitched : s.framed.switched = false) : s.Framing := by
  cases h with
  | opened _ _ _ hframing => exact hframing
  | finished _ _ _ _ hdown => exact ⟨by simp [hdown], by simp [hdown]⟩
  | switched _ _ _ _ hs => exact absurd (hs.symm.trans hswitched) (by simp)

theorem serving_start {rs : List Record} (hrs : ∀ r ∈ rs, r.Body) (kind : StreamKind) (sizes : Nat → Nat)
    (together : Bool)
    (room : Option Nat) (parts : List Bytes) (fin : Option Err) (tcp : Bool) (left : Int) : ∃ w,
    Serving pad next te (start kind ⟨encodes rs ++ (Record.finish pad).encode ++ next, sizes, te,
      together⟩ room parts fin tcp
      left) w := by
  have hcomes : FramedConn.Comes pad next te
      { inp := ⟨encodes rs ++ (Record.finish pad).encode ++ next, sizes, te, together⟩, out := ⟨[], room⟩ }
        (payloads rs) .eof :=
    .inl ⟨rfl, rfl, rs, hrs, ⟨append_assoc _ _ _, rfl⟩, rfl⟩
  exact ⟨_, ⟨_, .read hcomes, rfl⟩, rfl, nofun, nofun⟩

theorem Serving.step (hfits : (Record.finish pad).Fits) {a : ProxyAct} (h : Serving pad next te s w)
    (hframing : s.Framing)
    (hsound : s.Sound a) (hs : s.step a = some s') :
    ∃ w', Serving pad next te s' w' ∧ w' + (if copies a then 1 else 0) ≤ w := by
  cases step_inv hs with
  | upRead hup => exact h.upRead hfits hup hsound
  | upWrite err hup =>
    cases hsound
    exact h.upWrite hup
  | upFinish hup => exact h.upFinish hup
  | downRead hdown hread => exact h.downRead hdown hread
  | downReadRaw hdown _ => exact absurd hdown hframing.1
  | downWrite d hdown => exact h.downWrite hdown d
  | downWriteRaw _ hdown => exact absurd hdown (hframing.2 _ _)
  | downSwitch _ _ _ => exact absurd hsound id
  | downFinish d hdown => exact h.downFinish hdown d
  | filler d hres => exact h.of_down hres hres rfl (FramedConn.writeFiller_sameReader _ d) rfl rfl (le_rfl)
  | collect d hup hdown hres => exact h.collect hup hdown hres d

/-- One of the copies can move: a target that has been told of the end does not keep the server waiting. -/
theorem Serving.moves (h : Serving pad next te s w) (hres : s.result = none) :
    ∃ a, copies a = true ∧ s.step a ≠ none := by
  cases hup : s.up with
  | read => exact ⟨.upRead, rfl, by simp [ProxyStream.step, hup]⟩
  | write data => exact ⟨.upWrite none, rfl, by simp [ProxyStream.step, hup]⟩
  | finish err => exact ⟨.upFinish, rfl, by simp [ProxyStream.step, hup]⟩
  | done =>
    have hread : ∃ r, s.target.read r ≠ none := by
      rcases h.target hup with hclosed | hdeadline
      · exact ⟨.closed, by simp [Target.read, hclosed]⟩
      · exact ⟨.timeout, by simp [Target.read, hdeadline]⟩
    obtain ⟨r, hread⟩ := hread
    cases hdown : s.down with
    | read =>
      by_cases hleft : s.kind = .splice ∧ s.left ≤ 0
      · exact ⟨.downSwitch plainDraws, rfl, by simp [ProxyStream.step, hdown, hleft]⟩
      · exact ⟨.downRead r, rfl, by simp [ProxyStream.step, hdown, hleft, hread]⟩
    | readRaw => exact ⟨.downRead r, rfl, by simp [ProxyStream.step, hdown, hread]⟩
    | write data err | writeRaw data err =>
      exact ⟨.downWrite fun _ => plainDraws, rfl, by simp [ProxyStream.step, hdown]⟩
    | finish err => exact ⟨.downFinish plainDraws, rfl, by simp [ProxyStream.step, hdown]⟩
    | done => exact ⟨.collect plainDraws, rfl, by simp [ProxyStream.step, hup, hdown, hres]⟩

/-- The downward copy has written its end. -/
structure Marked (s : ProxyStream) : Prop where
  down : s.down = .done
  ended : s.framed.ended = true
  endErr : s.framed.endErr = none

theorem Marked.congr (h : s.Marked) (heq : s.SameAnswer s') : s'.Marked :=
  ⟨heq.down.trans h.down, heq.ended.trans h.ended, heq.endErr.trans h.endErr⟩

theorem Marked.step {a : ProxyAct} (h : s.Marked) (hs : s.step a = some s') : s'.Marked := by
  cases step_inv hs with
  | upRead _ => exact h.congr s.sameAnswer_upRead
  | upWrite err _ => exact h.congr (s.sameAnswer_upWrite _ err)
  | upFinish _ => exact h.congr (s.sameAnswer_upFinish _)
  | downRead hdown _ | downReadRaw hdown _ | downWrite _ hdown | downWriteRaw _ hdown | downSwitch _ _ hdown
  | downFinish _ hdown => exact absurd (hdown.symm.trans h.down) (by simp)
  | filler d _ =>
    rw [FramedConn.writeFiller, if_pos h.ended]
    exact h
  | collect d _ _ _ =>
    unfold ProxyStream.collect
    split
    · rw [FramedConn.endStream, if_pos h.ended]
      exact ⟨h.down, h.ended, h.endErr⟩
    · exact ⟨h.down, h.ended, h.endErr⟩

theorem Answers.cut_or_marked (h : s.Answers) (hswitched : s.framed.switched = false) {p : Bytes}
    (hp : p <+: s.framed.out.bytes) : Cut s.answer p ∨ s.Marked := by
  cases h with
  | opened rs hended _ hframing hrs hsent hpay hlast hfin hpart =>
    exact .inl ((cut_of_part hrs (hp.trans hsent.pre)).mono hpart)
  | switched _ _ _ _ hs => exact absurd (hs.symm.trans hswitched) (by simp)
  | finished rs pad hended _ hdown hrs hfits hsent hend hpay hpart =>
    rcases whole_or_cut hrs hfits (hp.trans hsent.pre) with rfl | hcut
    · exact .inr ⟨hdown, hended, hend.mpr (hsent.pre.eq_of_length_le hp.length_le)⟩
    · exact .inl (hcut.mono hpart)

end ProxyStream

theorem FramedConn.Waits.drainLoop {te : Err} : ∀ (fuel : Nat) (left : Int) {c : FramedConn}, c.Waits te →
    (Whispera.drainLoop fuel left c).1 = false := by
  intro fuel
  induction fuel with
  | zero => exact fun _ _ _ => rfl
  | succ fuel ih =>
    intro left c h
    unfold Whispera.drainLoop
    split
    · rfl
    · have hnext := h.read (by decide : 0 < 16384)
      rcases hread : c.read 16384 with ⟨data, _ | e, c'⟩ <;> rw [hread] at hnext
      · exact ih _ hnext
      · have hdone : c'.done = false := hnext.done_eq
        simp [hdone]

theorem FramedConn.Waits.drainToEnd {te : Err} {c : FramedConn} (h : c.Waits te) :
    (Whispera.drainToEnd c).1 = false := by
  rw [Whispera.drainToEnd, if_neg (by simp [h.done_eq])]
  exact h.drainLoop _ _

theorem KeepAliveStream.close_parked {d : Draws} {c : KeepAliveStream} (h : (c.close d).1 = true) :
    (c.up.endStream d).2 = none ∧ (drainToEnd c.down).1 = true ∧ (c.close d).2.up = (c.up.endStream d).1 := by
  unfold KeepAliveStream.close at h ⊢
  rcases hend : c.up.endStream d with ⟨up, _ | e⟩ <;> rw [hend] at h
  · cases hs : c.down.switched with
    | true => simp [hs] at h
    | false =>
      simp only [hs] at h ⊢
      exact ⟨trivial, h, rfl⟩
  · cases h

/-- A client that makes the calls `ops`, reads what has arrived of the answer, and closes the stream. -/
def clientClose (ops : List FramedOp) (d : Draws) (room : Option Nat) (arrived : Stream) (bufs : Nat → Nat) (n : Nat) :
    Bool × KeepAliveStream :=
  KeepAliveStream.close d
    { up := FramedOp.performs { inp := arrived, out := ⟨[], room⟩ } ops
      down := (reads FramedConn.read bufs n { inp := arrived, out := ⟨[], room⟩ }).2.2 }

section
variable {ops : List FramedOp} {d : Draws} {croom : Option Nat} {p : Bytes} {csizes bufs : Nat → Nat} {cte : Err}
  {ctogether : Bool} {n : Nat}

theorem clientClose_sent (h : (clientClose ops d croom ⟨p, csizes, cte, ctogether⟩ bufs n).1 = true) : ∃ rs pad,
    (clientClose ops d croom ⟨p, csizes, cte, ctogether⟩ bufs n).2.up.out.bytes = encodes rs ++
    (Record.finish pad).encode ∧
      (∀ r ∈ rs, r.Body) ∧ (Record.finish pad).Fits := by
  obtain ⟨hend, -, hup⟩ := KeepAliveStream.close_parked h
  obtain ⟨rs, out, heq, hsent, hrs, -⟩ := performs_spec ops
    (c := { inp := ⟨p, csizes, cte, ctogether⟩, out := ⟨[], croom⟩ }) rfl (Sent.start croom)
  obtain ⟨pad, out', err, heq', hfits, -, hfull, -⟩ := FramedConn.endStream_sent
    (c := { inp := ⟨p, csizes, cte, ctogether⟩, out }) rfl hsent d
  rw [heq, heq'] at hend hup
  refine ⟨rs, pad, ?_, hrs, hfits⟩
  rw [clientClose, heq, hup]
  exact hfull.mp hend

theorem clientClose_arrived (hbufs : ∀ i, 0 < bufs i)
    (h : (clientClose ops d croom ⟨p, csizes, cte, ctogether⟩ bufs n).1 = true) {xs : Bytes} : ¬ Cut xs p := by
  intro hcut
  have hw : FramedConn.Waits cte { inp := ⟨p, csizes, cte, ctogether⟩, out := ⟨[], croom⟩ } :=
    FramedConn.waits_of_cut hcut csizes ctogether _
  have hfalse := (hw.reads hbufs n).drainToEnd
  rw [(KeepAliveStream.close_parked h).2.1] at hfalse
  cases hfalse

end

/-- A client parks the connection while the server is at `s`: the server has not given it up, is done with the
    stream after a bounded number of steps, and keeps the connection, with what the client sends next unread.
    -/
theorem parked_connection_is_kept {kind : StreamKind} {ops : List FramedOp} {d : Draws} {croom room : Option Nat}
    {p next : Bytes} {csizes sizes bufs : Nat → Nat} {cte te : Err} {ctogether together : Bool} {n : Nat}
    {parts : List Bytes} {fin : Option Err} {tcp : Bool} {left : Int} {as : List ProxyAct} {s : ProxyStream}
    (hbufs : ∀ i, 0 < bufs i)
    (hrun : Run ProxyStream.step ProxyStream.Sound (.start kind
      ⟨(clientClose ops d croom ⟨p, csizes, cte, ctogether⟩ bufs n).2.up.out.bytes ++ next, sizes, te, together⟩
      room parts fin tcp left) as s)
    (hp : p <+: s.framed.out.bytes)
    (hparked : (clientClose ops d croom ⟨p, csizes, cte, ctogether⟩ bufs n).1 = true) :
    ∃ N, ∀ bs t, Run ProxyStream.step ProxyStream.Sound s bs t → t.result ≠ some false ∧
      bs.countP ProxyStream.copies ≤ N ∧
      ((∀ a, ProxyStream.copies a = true → t.step a = none) → t.result = some true ∧ t.framed.inp.bytes = next) := by
  obtain ⟨rs, pad, hwire, hrs, hfits⟩ := clientClose_sent hparked
  rw [hwire] at hrun
  obtain ⟨w, hstart⟩ := ProxyStream.serving_start hrs kind sizes together room parts
    fin tcp left
  have hstep : ∀ {t a u m}, t.Answers ∧ ProxyStream.Serving pad next te t m → t.Sound a → t.step a = some u →
      ∃ m', (u.Answers ∧ ProxyStream.Serving pad next te u m') ∧ m' + (if ProxyStream.copies a then 1 else 0) ≤ m := by
    rintro t a u m ⟨hans, hserv⟩ hsound hs
    obtain ⟨m', hserv', hle⟩ := hserv.step hfits (hans.framing hserv.switched) hsound hs
    exact ⟨m', ⟨hans.step hs, hserv'⟩, hle⟩
  obtain ⟨N, ⟨hans, hserv⟩, -⟩ :=
    hrun.count_le ProxyStream.copies hstep ⟨ProxyStream.answers_start _ _ _ _ _ _ _, hstart⟩
  have hmarked : s.Marked := (hans.cut_or_marked hserv.switched hp).resolve_left (clientClose_arrived hbufs hparked)
  refine ⟨N, fun bs t hrun' => ?_⟩
  obtain ⟨m, ⟨-, hservt⟩, hle⟩ := hrun'.count_le ProxyStream.copies hstep ⟨hans, hserv⟩
  have hmarkedt : t.Marked := hrun'.invariant (fun h _ hs => h.step hs) hmarked
  have hresult : ∀ b, t.result = some b → b = true := fun b hb => (hservt.result b hb).2.2.2.mpr hmarkedt.endErr
  refine ⟨fun hf => Bool.noConfusion (hresult false hf), by omega, fun hstuck => ?_⟩
  cases hres : t.result with
  | none =>
    obtain ⟨a, ha, hmove⟩ := hservt.moves hres
    exact absurd (hstuck a ha) hmove
  | some b =>
    obtain ⟨hup, -⟩ := hservt.result b hres
    obtain ⟨u, hu, -⟩ := hservt.reader
    rw [hup] at hu
    cases hu with
    | done hstop =>
      obtain ⟨-, -, hinp, -⟩ := hstop
      exact ⟨by rw [hresult b hres], hinp⟩

def emptyAnswer : Bytes := [0x17, 0x03, 0x03, 0, 2, 0, 0]

def parkingClient : Bool × KeepAliveStream :=
  clientClose [.write (fun _ => plainDraws) [104, 105]] plainDraws none ⟨emptyAnswer, fun _ => 0, .eof, false⟩
    (fun _ => 16) 0

def parkedStream : ProxyStream :=
  .start .tcp ⟨parkingClient.2.up.out.bytes ++ [9], fun _ => 0, .eof, false⟩ none [] (some .eof) true 0

theorem parked_connection_is_kept_empty : ∃ s,
    Run ProxyStream.step ProxyStream.Sound parkedStream [.downRead .fin, .downFinish plainDraws] s ∧
    ∃ N, ∀ bs t, Run ProxyStream.step ProxyStream.Sound s bs t → t.result ≠ some false ∧
      bs.countP ProxyStream.copies ≤ N ∧
      ((∀ a, ProxyStream.copies a = true → t.step a = none) → t.result = some true ∧ t.framed.inp.bytes = [9]) := by
  obtain ⟨s, hexec, hs⟩ := Option.map_eq_some_iff.mp (by decide +kernel :
    (exec ProxyStream.step parkedStream [.downRead .fin, .downFinish plainDraws]).map (fun s => s.framed.out.bytes) =
      some emptyAnswer)
  have hrun : Run ProxyStream.step ProxyStream.Sound parkedStream [.downRead .fin, .downFinish plainDraws] s :=
    Run.of_exec (fun t a ha u h => ⟨by rcases mem_pair.mp ha with rfl | rfl <;> trivial, h⟩) hexec
  have hbufs : ∀ i : Nat, 0 < (fun _ => 16) i := fun _ => Nat.succ_pos _
  exact ⟨s, hrun, parked_connection_is_kept hbufs hrun (hs ▸ prefix_rfl) (by decide +kernel)⟩

/-- The server marks the end of the answer; what the client had sent then fails to reach the target. -/
def droppedRun : List ProxyAct :=
  [.downRead .fin, .downFinish plainDraws, .upRead, .upWrite (some (.text "connection reset by peer")), .upFinish,
    .collect plainDraws]

theorem parked_connection_is_dropped : parkingClient.1 = true ∧ ∃ s, AnyRun ProxyStream.step parkedStream droppedRun s ∧
    emptyAnswer <+: s.framed.out.bytes ∧ s.result = some false :=
  ⟨by decide +kernel, AnyRun.exists_of_exec (by decide +kernel)⟩

end Whispera
