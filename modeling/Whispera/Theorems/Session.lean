import Whispera.Session
import Whispera.Theorems.RoundTrip

/-! Headers and fillers share one connection and are told apart by three bytes, which no header begins with.
-/

namespace Whispera
open List hiding get
open BigEndian Reader

section
variable {s : Stream} {te : Err} {rest : Bytes}

theorem skipFillerRecord_filler {pad : Bytes} (hr : (Record.filler pad).Fits)
    (h : s.Holds (putUint16 (2 + pad.length) ++ (putUint16 framedFillerMarker ++ (pad ++ rest))) te) :
    ∃ s', skipFillerRecord s = (true, s') ∧ s'.Holds rest te := by
  have hfits : pad.length ≤ 16384 - 5 - 2 := le_trans (Nat.le_add_left _ _) hr
  obtain ⟨s₁, hsize, hs₁⟩ := Stream.readFull_append h
  rw [← append_assoc] at hs₁
  obtain ⟨s₂, hbody, hs₂⟩ := Stream.readFull_append hs₁
  have hlen : (putUint16 framedFillerMarker ++ pad).length = 2 + pad.length := by simp
  have hget : get (putUint16 (2 + pad.length)) = 2 + pad.length := get_putUint16 (by omega)
  have hbounds : ¬(2 + pad.length < 2 ∨ framedWireTarget < 2 + pad.length) := by
    unfold framedWireTarget
    omega
  have hmark : get ((putUint16 framedFillerMarker ++ pad).take 2) = framedFillerMarker := by
    rw [take_left' (length_putUint16 _)]
    exact get_putUint16 (by decide)
  rw [length_putUint16] at hsize
  rw [hlen] at hbody
  refine ⟨s₂, ?_, hs₂⟩
  simp only [skipFillerRecord, hsize, hget, hbounds, if_false, hbody, hmark, decide_true]

theorem readProxyStreamHeaderLoop_header (spliceEnabled : Bool) (fuel : Nat) {b : UInt8} {addr : Bytes} {port : Nat}
    (ha : 1 ≤ addr.length ∧ addr.length ≤ 255) (hp : port < 65536)
    (h : s.Holds (b :: (putUint16 addr.length ++ (addr ++ putUint16 port)) ++ rest) te) :
    ∃ s', s'.Holds rest te ∧ readProxyStreamHeaderLoop spliceEnabled (fuel + 1) s =
      (some { proto := protoOf b, splice := b &&& spliceProtoBit ≠ 0 ∧ spliceEnabled,
              keepAlive := b &&& keepAliveProtoBit ≠ 0, torrent := b &&& torrentProtoBit ≠ 0, addr, port }, s') := by
  have hcut : b :: (putUint16 addr.length ++ (addr ++ putUint16 port)) ++ rest =
      (b :: putUint16 addr.length) ++ ((addr ++ putUint16 port) ++ rest) := by simp
  rw [hcut] at h
  obtain ⟨s₁, hhdr, hs₁⟩ := Stream.readFull_append h
  obtain ⟨s₂, hrest, hs₂⟩ := Stream.readFull_append hs₁
  have hlen : (b :: putUint16 addr.length).length = 3 := by simp
  have hlen' : (addr ++ putUint16 port).length = addr.length + 2 := by simp
  have hget : get (putUint16 addr.length) = addr.length := get_putUint16 (by omega)
  have hport : get (putUint16 port) = port := get_putUint16 hp
  -- A record of this type would be an address of 771 bytes.
  have hnot : ¬(b :: putUint16 addr.length) = [0x17, 0x03, 0x03] := by
    intro heq
    rw [(List.cons.inj heq).2, show get [0x03, 0x03] = 771 from rfl] at hget
    omega
  have hbounds : ¬(addr.length = 0 ∨ 255 < addr.length) := by omega
  rw [hlen] at hhdr
  rw [hlen'] at hrest
  refine ⟨s₂, hs₂, ?_⟩
  rw [readProxyStreamHeaderLoop]
  simp only [hhdr, hnot, if_false, drop_one, tail_cons, hget, hbounds, hrest, headD_cons,
    take_left, drop_left, hport]
  rfl

theorem readProxyStreamHeaderLoop_filler (spliceEnabled : Bool) (fuel : Nat) {r : Record} (hr : r.Body)
    (hp : r.payload = []) (h : s.Holds (r.encode ++ rest) te) :
    ∃ s', s'.Holds rest te ∧
      readProxyStreamHeaderLoop spliceEnabled (fuel + 1) s = readProxyStreamHeaderLoop spliceEnabled fuel s' := by
  cases r with
  | data p q => exact absurd hp hr.1
  | finish q | switch q => exact hr.elim
  | filler pad =>
    have hcut : (Record.filler pad).encode ++ rest =
        [0x17, 0x03, 0x03] ++ (putUint16 (2 + pad.length) ++ (putUint16 framedFillerMarker ++ (pad ++ rest))) := by
      simp [Record.encode, recordHeader, Record.payload, Record.pad, Record.mark]
    rw [hcut] at h
    obtain ⟨s₁, hhdr, hs₁⟩ := Stream.readFull_append h
    obtain ⟨s₂, hskip, hs₂⟩ := skipFillerRecord_filler hr hs₁
    refine ⟨s₂, hs₂, ?_⟩
    have hhdr' : readFull Stream.read 3 s = ([0x17, 0x03, 0x03], none, s₁) := hhdr
    rw [readProxyStreamHeaderLoop, hhdr']
    simp only [if_true, hskip]

theorem readProxyStreamHeaderLoop_fillers (spliceEnabled : Bool) : ∀ {rs : List Record} {s : Stream} (fuel : Nat),
    (∀ r ∈ rs, r.Body ∧ r.payload = []) → s.Holds (encodes rs ++ rest) te → rs.length ≤ fuel →
    ∃ s', s'.Holds rest te ∧ readProxyStreamHeaderLoop spliceEnabled (fuel + 1) s =
      readProxyStreamHeaderLoop spliceEnabled (fuel - rs.length + 1) s' := by
  intro rs
  induction rs with
  | nil =>
    intro s fuel _ h _
    exact ⟨s, h, rfl⟩
  | cons r rs ih =>
    intro s fuel hrs h hfuel
    rw [length_cons] at hfuel
    obtain ⟨fuel, rfl⟩ : ∃ f, fuel = f + 1 := ⟨fuel - 1, by omega⟩
    obtain ⟨hb, hp⟩ := hrs r (mem_cons_self ..)
    rw [encodes_cons, append_assoc] at h
    obtain ⟨s₁, hs₁, heq⟩ := readProxyStreamHeaderLoop_filler spliceEnabled (fuel + 1) hb hp h
    obtain ⟨s₂, hs₂, heq'⟩ := ih fuel (fun q hq => hrs q (mem_cons_of_mem _ hq)) hs₁ (by omega)
    refine ⟨s₂, hs₂, ?_⟩
    rw [heq, heq', length_cons, Nat.add_sub_add_right]

end

/-- A keep-alive stream: the fillers before it, the header, the calls on the framed connection, and the draws
    of the end mark. -/
structure SentStream where
  fillers : List FillerDraws
  proto : UInt8
  addr : Bytes
  port : Nat
  calls : List FramedOp
  fin : Draws
  addrLen : 1 ≤ addr.length ∧ addr.length ≤ 255
  portLt : port < 65536

namespace SentStream

/-- The records that the stream is sent as, from a framed connection of its own. -/
def records (st : SentStream) : Bytes :=
  (FramedEnd.endStream.perform (FramedOp.performs { inp := ⟨[], fun _ => 0, .eof, false⟩, out := ⟨[], none⟩ } st.calls)
    st.fin).1.out.bytes

/-- The stream as sent, behind its fillers. -/
def wire (st : SentStream) : Bytes :=
  st.fillers.flatMap fillerRecord ++ (streamHeader st.proto true false st.addr st.port ++ st.records)

def header (st : SentStream) : ProxyStreamHeader where
  proto := protoOf st.proto
  splice := false
  keepAlive := true
  torrent := st.proto &&& torrentProtoBit ≠ 0
  addr := st.addr
  port := st.port

def payload (st : SentStream) : Bytes := st.calls.flatMap FramedOp.data

/-- What the server should get from each stream, and what comes behind it. -/
def served : List SentStream → Bytes → List ServedStream
  | [], _ => []
  | st :: sts, rest =>
    { header := st.header, payload := st.payload, left := sts.flatMap wire ++ rest } :: served sts rest

theorem forall_byte {p : UInt8 → Prop} (h : ∀ n : Fin 256, p (UInt8.ofFin n)) (b : UInt8) : p b := h b.toFin

theorem headerProto_bits (proto : UInt8) : let b := (proto &&& ~~~spliceProtoBit) ||| keepAliveProtoBit
    protoOf b = protoOf proto ∧ b &&& spliceProtoBit = 0 ∧ b &&& keepAliveProtoBit ≠ 0 ∧
      b &&& torrentProtoBit = proto &&& torrentProtoBit := by
  revert proto
  refine forall_byte ?_
  decide +kernel

variable (st : SentStream)

theorem fillers_spec : ∃ rs, st.fillers.flatMap fillerRecord = encodes rs ∧ ∀ r ∈ rs, r.Body ∧ r.payload = [] := by
  induction st.fillers with
  | nil => exact ⟨[], rfl, by simp⟩
  | cons d ds ih =>
    obtain ⟨rs, heq, hrs⟩ := ih
    obtain ⟨r, hr, hb, hp⟩ := fillerRecord_encode d
    refine ⟨r :: rs, by rw [flatMap_cons, heq, hr, encodes_cons], ?_⟩
    intro q hq
    rcases mem_cons.mp hq with rfl | hq
    · exact ⟨hb, hp⟩
    · exact hrs q hq

theorem records_spec : ∃ rs pad, st.records = encodes rs ++ (Record.finish pad).encode ∧ (∀ r ∈ rs, r.Body) ∧
    payloads rs = st.payload ∧ (Record.finish pad).Fits := by
  obtain ⟨rs, out, heq, hbytes, hroom, hb, hp⟩ := performs_reliable st.calls ⟨[], fun _ => 0, .eof, false⟩
  obtain ⟨pad, out', err, heq', hw', hf⟩ := FramedConn.endStream_spec
    (c := { inp := ⟨[], fun _ => 0, .eof, false⟩, out }) rfl st.fin
  obtain ⟨rfl, -⟩ := hw'.reliable hroom
  refine ⟨rs, pad, ?_, hb, hp, hf⟩
  unfold records
  rw [heq]
  show (FramedConn.endStream _ _).1.out.bytes = _
  rw [heq', hw'.all rfl, hbytes]
  simp

section
variable {s : Stream} {te : Err} {rest : Bytes} (spliceEnabled : Bool)

theorem readProxyStreamHeader_wire (h : s.Holds (st.wire ++ rest) te) :
    ∃ s', readProxyStreamHeader spliceEnabled s = (some st.header, s') ∧ s'.Holds (st.records ++ rest) te := by
  obtain ⟨rs, hrs, hfill⟩ := st.fillers_spec
  have hcut : st.wire ++ rest = encodes rs ++ (((st.proto &&& ~~~spliceProtoBit) ||| keepAliveProtoBit) ::
      (putUint16 st.addr.length ++ (st.addr ++ putUint16 st.port)) ++ (st.records ++ rest)) := by
    rw [wire, hrs, append_assoc, append_assoc]
    rfl
  rw [hcut] at h
  have hfuel : rs.length ≤ s.bytes.length := by
    have := length_le_encodes rs
    rw [h.1, length_append]
    omega
  obtain ⟨s₁, hs₁, heq₁⟩ := readProxyStreamHeaderLoop_fillers spliceEnabled _ hfill h hfuel
  obtain ⟨s₂, hs₂, heq₂⟩ := readProxyStreamHeaderLoop_header spliceEnabled _ st.addrLen st.portLt hs₁
  obtain ⟨hproto, hsplice, hkeep, htorrent⟩ := headerProto_bits st.proto
  refine ⟨s₂, ?_, hs₂⟩
  rw [readProxyStreamHeader, heq₁, heq₂, hproto, hsplice, htorrent]
  simp [header, hkeep]

theorem runSession_wire {bufs : Nat → Nat → Nat} (hbufs : ∀ i j, 0 < bufs i j) (k : Sink) (rounds : Nat)
    (h : s.Holds (st.wire ++ rest) te) : ∃ s', s'.Holds rest te ∧ runSession spliceEnabled bufs k (rounds + 1) s =
      ({ header := st.header, payload := st.payload, left := rest } ::
          (runSession spliceEnabled (fun i => bufs (i + 1)) k rounds s').1,
        (runSession spliceEnabled (fun i => bufs (i + 1)) k rounds s').2) := by
  obtain ⟨s₁, hhdr, hs₁⟩ := readProxyStreamHeader_wire st spliceEnabled h
  obtain ⟨rs, pad, hrecords, hbody, hpay, hfits⟩ := st.records_spec
  rw [hrecords, append_assoc] at hs₁
  have hexp : FramedConn.Expects ((Record.finish pad).encode ++ rest) te (.ok []) { inp := s₁, out := k }
    st.payload .eof :=
    ⟨rfl, rfl, rs, hbody, hs₁, hpay.symm⟩
  obtain ⟨n, c, hn, hreads, hdone, -, hinp⟩ :=
    reads_yields (FramedConn.yields (ends_finish hfits rest) (Or.inl rfl)) hexp (hbufs 0)
  have hlen : n ≤ s₁.bytes.length + 1 := by
    have := length_payloads_le rs
    rw [← hpay] at hn
    rw [hs₁.1, length_append]
    omega
  refine ⟨c.inp, hinp, ?_⟩
  rw [runSession, hhdr]
  simp only [header, if_true, reads_of_le hreads hlen, hdone, hinp.1]
  rfl

end

end SentStream

/-- Streams are served one after another, each as it was sent and with the connection left behind its end
    mark. -/
theorem session_recovers_streams (spliceEnabled : Bool) (streams : List SentStream) (rest : Bytes)
    (sizes : Nat → Nat) (te : Err) (together : Bool) (k : Sink) (bufs : Nat → Nat → Nat) (rounds : Nat)
    (hbufs : ∀ i j, 0 < bufs i j) :
    ∃ s', s'.bytes = rest ∧
      runSession spliceEnabled bufs k (streams.length + rounds)
          ⟨streams.flatMap SentStream.wire ++ rest, sizes, te, together⟩ =
        (SentStream.served streams rest ++
         (runSession spliceEnabled (fun i => bufs (i + streams.length)) k rounds s').1,
          (runSession spliceEnabled (fun i => bufs (i + streams.length)) k rounds s').2) := by
  suffices hmain : ∀ {s : Stream}, s.Holds (streams.flatMap SentStream.wire ++ rest) te → ∃ s', s'.bytes = rest ∧
      runSession spliceEnabled bufs k (streams.length + rounds) s =
        (SentStream.served streams rest ++
         (runSession spliceEnabled (fun i => bufs (i + streams.length)) k rounds s').1,
          (runSession spliceEnabled (fun i => bufs (i + streams.length)) k rounds s').2) from hmain ⟨rfl, rfl⟩
  induction streams generalizing bufs with
  | nil =>
    intro s h
    exact ⟨s, h.1, by rw [length_nil, zero_add]; rfl⟩
  | cons st streams ih =>
    intro s h
    rw [flatMap_cons, append_assoc] at h
    obtain ⟨s₁, hs₁, heq₁⟩ := st.runSession_wire spliceEnabled hbufs k (streams.length + rounds) h
    obtain ⟨s', hs', heq⟩ := ih (fun i => bufs (i + 1)) (fun i => hbufs (i + 1)) hs₁
    refine ⟨s', hs', ?_⟩
    rw [length_cons, add_right_comm, heq₁, heq]
    simp only [SentStream.served, cons_append, add_assoc]

def torrentStream : SentStream where
  fillers := [emptyFiller]
  proto := 0x46
  addr := [97]
  port := 443
  calls := [.write (fun _ => paddedDraws) [104, 105], .filler emptyFiller]
  fin := paddedDraws
  addrLen := by decide
  portLt := by decide

def datagramStream : SentStream where
  fillers := []
  proto := 0x11
  addr := [98]
  port := 53
  calls := [.write (fun _ => paddedDraws) [0, 1, 7]]
  fin := paddedDraws
  addrLen := by decide
  portLt := by decide

theorem session_recovers_torrent_and_datagrams : ∃ s', s'.bytes = [1] ∧
      runSession true (fun _ _ => 2) ⟨[], none⟩ 2
          ⟨[torrentStream, datagramStream].flatMap SentStream.wire ++ [1], fun _ => 0, .eof, true⟩ =
        ([{ header := ⟨0x06, false, true, true, [97], 443⟩, payload := [104, 105], left := datagramStream.wire ++ [1] },
          { header := ⟨0x11, false, true, false, [98], 53⟩, payload := [0, 1, 7], left := [1] }], s') := by
  obtain ⟨s', hs', heq⟩ := session_recovers_streams true [torrentStream, datagramStream] [1] (fun _ => 0) .eof true
    ⟨[], none⟩ (fun _ _ => 2) 0 (fun _ _ => by decide)
  have htorrent : torrentStream.header = ⟨0x06, false, true, true, [97], 443⟩ := by decide
  have hdatagrams : datagramStream.header = ⟨0x11, false, true, false, [98], 53⟩ := by decide
  have hpay : torrentStream.payload = [104, 105] ∧ datagramStream.payload = [0, 1, 7] := ⟨rfl, rfl⟩
  refine ⟨s', hs', heq.trans ?_⟩
  simp [SentStream.served, runSession, htorrent, hdatagrams, hpay]

end Whispera
