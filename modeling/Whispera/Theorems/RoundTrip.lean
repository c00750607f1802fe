import Whispera.Theorems.FramedReader
import Whispera.Theorems.FramedWriter

/-! What the calls on one end hand to the transport, the reads on the other end return, up to the record that
ends the stream. -/

namespace Whispera
open List BigEndian Reader

/-- A call that takes the write lock of an open stream. -/
inductive FramedOp
  | write (d : Nat → Draws) (b : Bytes)
  | filler (d : FillerDraws)

namespace FramedOp

def data : FramedOp → Bytes
  | write _ b => b
  | filler _ => []

def perform (c : FramedConn) : FramedOp → FramedConn × Option Err
  | write d b => ((c.write d b).1, (c.write d b).2.2)
  | filler d => c.writeFiller d

/-- The calls one after another; a failed one does not keep the next from being made. -/
def performs (c : FramedConn) (ops : List FramedOp) : FramedConn := ops.foldl (fun c op => (perform c op).1) c

end FramedOp

/-- How a stream is brought to its end. -/
inductive FramedEnd
  | endStream
  | switchRaw
  deriving DecidableEq

namespace FramedEnd

def perform (c : FramedConn) (d : Draws) : FramedEnd → FramedConn × Option Err
  | endStream => c.endStream d
  | switchRaw => c.switchRaw d

def err : FramedEnd → Err
  | endStream => .eof
  | switchRaw => errSwitchRaw

end FramedEnd

section
variable {c : FramedConn}

theorem perform_spec (ho : c.ended = false) (op : FramedOp) : ∃ rs out err, op.perform c = ({ c with out }, err) ∧
    Wrote c.out rs err out ∧ (∀ r ∈ rs, r.Body) ∧ (err = none → payloads rs = op.data) := by
  cases op with
  | write d b =>
    obtain ⟨rs, out, n, err, heq, hw, hb, -, hall⟩ := FramedConn.write_spec ho d b
    exact ⟨rs, out, err, by simp only [FramedOp.perform, heq], hw, hb, fun h => (hall h).1⟩
  | filler d =>
    obtain ⟨r, out, err, heq, hw, hb, hp⟩ := FramedConn.writeFiller_spec ho d
    exact ⟨[r], out, err, heq, hw, by simpa using hb, fun _ => by simpa [FramedOp.data] using hp⟩

theorem performs_spec : ∀ (ops : List FramedOp) {c : FramedConn} {xs : Bytes}, c.ended = false → Sent c.out xs →
    ∃ rs out, FramedOp.performs c ops = { c with out } ∧ Sent out (xs ++ encodes rs) ∧ (∀ r ∈ rs, r.Body) ∧
      (out.bytes = xs ++ encodes rs → c.out.bytes = xs ∧ payloads rs = ops.flatMap FramedOp.data) ∧
      (c.out.room = none → out.room = none) := by
  intro ops
  induction ops with
  | nil =>
    intro c xs _ hsent
    refine ⟨[], c.out, rfl, ?_, by simp, ?_, id⟩
    · rwa [encodes_nil, append_nil]
    · intro h
      rw [encodes_nil, append_nil] at h
      exact ⟨h, rfl⟩
  | cons op ops ih =>
    intro c xs ho hsent
    obtain ⟨rs, out, err, heq, hw, hb, hp⟩ := perform_spec ho op
    obtain ⟨hsent', hfull⟩ := hsent.wrote hw
    obtain ⟨qs, out', heq', hsent'', hb', hp', hroom⟩ := ih (c := { c with out }) ho hsent'
    rw [append_assoc, ← encodes_append] at hsent'' hp'
    refine ⟨rs ++ qs, out', ?_, hsent'', ?_, fun h => ?_, fun h => hroom (hw.reliable h).2⟩
    · show FramedOp.performs (op.perform c).1 ops = _
      rw [heq, heq']
    · exact forall_mem_append.mpr ⟨hb, hb'⟩
    · obtain ⟨hout, hq⟩ := hp' h
      obtain ⟨hc, rfl⟩ := hfull.mp hout
      exact ⟨hc, by rw [payloads_append, hp rfl, hq, flatMap_cons]⟩

theorem performs_reliable (ops : List FramedOp) (back : Stream) : ∃ rs out,
    FramedOp.performs { inp := back, out := ⟨[], none⟩ } ops = { inp := back, out } ∧ out.bytes = encodes rs ∧
      out.room = none ∧ (∀ r ∈ rs, r.Body) ∧ payloads rs = ops.flatMap FramedOp.data := by
  obtain ⟨rs, out, heq, hsent, hb, hp, hroom⟩ := performs_spec ops (c := { inp := back, out := ⟨[], none⟩ }) rfl
    (Sent.start none)
  have hbytes : out.bytes = encodes rs := hsent.reliable (hroom rfl)
  exact ⟨rs, out, heq, hbytes, hroom rfl, hb, (hp hbytes).2⟩

theorem end_spec (ho : c.ended = false) (hroom : c.out.room = none) (fin : FramedEnd) (d : Draws) :
    ∃ r out v, (fin.perform c d).1.out = out ∧ (fin.perform c d).2 = none ∧ Wrote c.out [r] none out ∧
      (∀ te rest, Ends (r.encode ++ rest) te v rest) ∧ (v = .ok [] ∨ ∃ e, v = .error e) ∧
      verdictErr v = fin.err ∧ v.isOk = decide (fin = .endStream) := by
  cases fin with
  | endStream =>
    obtain ⟨pad, out, err, heq, hw, hf⟩ := FramedConn.endStream_spec ho d
    obtain ⟨rfl, -⟩ := hw.reliable hroom
    exact ⟨_, out, .ok [], by simp [FramedEnd.perform, heq], by simp [FramedEnd.perform, heq], hw,
      fun _ rest => ends_finish hf rest, Or.inl rfl, rfl, rfl⟩
  | switchRaw =>
    obtain ⟨pad, out, err, heq, hw, hf⟩ := FramedConn.switchRaw_spec ho d
    obtain ⟨rfl, -⟩ := hw.reliable hroom
    exact ⟨_, out, .error errSwitchRaw, by simp [FramedEnd.perform, heq], by simp [FramedEnd.perform, heq], hw,
      fun _ rest => ends_switch hf rest, Or.inr ⟨_, rfl⟩, rfl, rfl⟩

end

/-- The reads return what was written, in order, and then how the stream ended, with the rest of the transport
    unread. -/
theorem framed_round_trip (ops : List FramedOp) (fin : FramedEnd) (d : Draws) (back : Stream) (rest : Bytes)
    (sizes bufs : Nat → Nat) (te : Err) (together : Bool) (k : Sink) (hbufs : ∀ i, 0 < bufs i) :
    let sent := fin.perform (FramedOp.performs { inp := back, out := ⟨[], none⟩ } ops) d
    let peer : FramedConn := { inp := ⟨sent.1.out.bytes ++ rest, sizes, te, together⟩, out := k }
    sent.2 = none ∧ ∃ n peer', reads FramedConn.read bufs n peer = (ops.flatMap FramedOp.data, some fin.err, peer') ∧
      peer'.done = decide (fin = .endStream) ∧ peer'.inp.bytes = rest := by
  intro sent peer
  obtain ⟨rs, out, heq, hbytes, hroom, hbody, hpay⟩ := performs_reliable ops back
  obtain ⟨r, out', v, hout, herr, hw', hends, hv, hve, hdone⟩ := end_spec (c := { inp := back, out }) rfl hroom fin d
  have hsent : sent = fin.perform { inp := back, out } d := by rw [← heq]
  have hwire : sent.1.out.bytes ++ rest = encodes rs ++ (r.encode ++ rest) := by
    rw [hsent, hout, hw'.all rfl, hbytes]
    simp [append_assoc]
  refine ⟨by rw [hsent, herr], ?_⟩
  have hexp : peer.Expects (r.encode ++ rest) te v (ops.flatMap FramedOp.data) fin.err :=
    ⟨rfl, hve.symm, rs, hbody, ⟨hwire, rfl⟩, by rw [hpay]; rfl⟩
  obtain ⟨n, peer', -, hreads, hstop, -, hrest, -⟩ := reads_yields (FramedConn.yields (hends te rest) hv) hexp hbufs
  exact ⟨n, peer', hreads, by rw [hstop, hdone], hrest⟩

theorem framed_round_trip_hi :
    let sent := FramedEnd.endStream.perform
      (FramedOp.performs { inp := ⟨[], fun _ => 0, .eof, false⟩, out := ⟨[], none⟩ }
      [.write (fun _ => paddedDraws) [104, 105], .filler emptyFiller, .write (fun _ => paddedDraws) [33]]) paddedDraws
    sent.2 = none ∧ ∃ n peer', reads FramedConn.read (fun i => i + 1) n
        { inp := ⟨sent.1.out.bytes ++ [6], fun _ => 0, .eof, false⟩, out := ⟨[], none⟩ } =
          ([104, 105, 33], some .eof, peer') ∧ peer'.done = true ∧ peer'.inp.bytes = [6] :=
  framed_round_trip [.write (fun _ => paddedDraws) [104, 105], .filler emptyFiller, .write (fun _ => paddedDraws) [33]]
    .endStream paddedDraws ⟨[], fun _ => 0, .eof, false⟩ [6] (fun _ => 0) (fun i => i + 1) .eof false ⟨[], none⟩
    (fun i => Nat.succ_pos i)

end Whispera
