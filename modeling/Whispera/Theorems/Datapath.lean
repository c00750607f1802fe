import Whispera.Datapath
import Whispera.Theorems.Session

/-! A refusal of the server is recognised only by a first read that takes all of it, which no read of a framed
stream does. The splice bit of the header agrees with the way the stream is read, unless the header had to be
sent again. -/

namespace Whispera
open List hiding get
open BigEndian Reader

section
variable {msg rest : Bytes}

theorem writeDenial_eq (hlen : msg.length ≤ 512) : writeDenial msg = denialMagic ++ (putUint16 msg.length ++ msg) := by
  have hfits : ¬denialMaxLen < msg.length := not_lt.mpr hlen
  simp only [writeDenial, hfits, if_false]

theorem parseDenial_short {b : Bytes} (h : b.length < 6) : parseDenial b = none := if_pos (.inl h)

theorem parseDenial_take (hne : msg ≠ []) (hlen : msg.length ≤ 512) (k : Nat) :
    parseDenial ((writeDenial msg ++ rest).take k) = if 6 + msg.length ≤ k then some msg else none := by
  have hpos := length_pos_iff.mpr hne
  by_cases hk : k < 6
  · rw [parseDenial_short (lt_of_le_of_lt (length_take_le _ _) hk), if_neg (by omega)]
  · obtain ⟨j, rfl⟩ : ∃ j, k = 6 + j := ⟨k - 6, by omega⟩
    have hhead : (denialMagic ++ putUint16 msg.length).length = 6 := by simp [denialMagic]
    have hcut : (writeDenial msg ++ rest).take (6 + j) = denialMagic ++
        (putUint16 msg.length ++ (msg ++ rest).take j) := by
      rw [writeDenial_eq hlen, ← append_assoc, ← append_assoc, append_assoc _ msg, ← hhead,
        take_length_add_append, append_assoc]
    have hget : get (putUint16 msg.length) = msg.length := get_putUint16 (by omega)
    have hbody : ((msg ++ rest).take j).length < msg.length ↔ ¬msg.length ≤ j := by
      rw [length_take, length_append]
      omega
    have hmagic : denialMagic.length = 4 := rfl
    simp only [hcut, parseDenial, take_left, drop_left]
    rw [if_neg]
    · have hdrop : (denialMagic ++ (putUint16 msg.length ++ (msg ++ rest).take j)).drop (denialMagic.length + 2) =
          (msg ++ rest).take j := by
        rw [← append_assoc]
        exact drop_left' (by simp)
      rw [hdrop, take_left' (length_putUint16 _), hget]
      by_cases hj : msg.length ≤ j
      · rw [if_neg (by rw [hbody]; omega), if_pos (by omega), take_take, min_eq_left hj, take_left' rfl]
      · rw [if_pos (.inr (hbody.mpr hj)), if_neg (by omega)]
    · rw [not_or]
      refine ⟨?_, fun h => h rfl⟩
      rw [length_append, length_append, length_putUint16, hmagic]
      omega

theorem errDenied_eq_bad : errDenied msg = errFramedBadRecord ↔ msg = Strings.bytes "bad framed record" := by
  constructor
  · intro h
    have htext : "whispera: " ++ Strings.ofBytes msg = "whispera: " ++ "bad framed record" := Err.text.inj h
    have hchars := congrArg String.toList htext
    rw [String.toList_append, String.toList_append] at hchars
    have hmsg : Strings.ofBytes msg = "bad framed record" := String.toList_inj.mp (append_cancel_left hchars)
    rw [← hmsg, Strings.bytes_ofBytes]
  · rintro rfl
    decide

theorem firstRead_plain (n : Nat) {s : Stream} (hs : s.bytes ≠ []) :
    (firstRead .plain n s).2 = match parseDenial (s.bytes.take (min n (s.sizes 0 + 1))) with
      | some msg => some (errDenied msg)
      | none => if s.together = true ∧ s.bytes.drop (min n (s.sizes 0 + 1)) = [] then some s.fin else none := by
  simp only [firstRead, DecoyLeaveConn.read, Stream.read, if_neg hs, Bool.false_eq_true, if_false]
  cases parseDenial (s.bytes.take (min n (s.sizes 0 + 1))) <;> rfl

theorem decoyLeaveConn_readFull (d : DecoyLeaveConn) :
    ∃ d', readFull DecoyLeaveConn.read 5 d =
    ((readFull Stream.read 5 d.conn).1, (readFull Stream.read 5 d.conn).2.1, d') ∧
      d'.conn = (readFull Stream.read 5 d.conn).2.2 := by
  refine readFull_comap (f := DecoyLeaveConn.conn) (fun n hn d => ?_) d
  have hshort : (d.conn.read n).1.length < 6 := by
    unfold Stream.read
    split
    · exact Nat.zero_lt_succ _
    · exact lt_of_le_of_lt (length_take_le _ _) (lt_of_le_of_lt (min_le_left _ _) (Nat.lt_succ_of_le hn))
  rcases hread : d.conn.read n with ⟨data, err, conn⟩
  rw [hread] at hshort
  simp only [DecoyLeaveConn.read, hread, parseDenial_short hshort]
  split
  · exact ⟨_, rfl, rfl⟩
  · exact ⟨_, rfl, rfl⟩

theorem firstRead_keepAlive (n : Nat) {s : Stream} (hlen : msg.length ≤ 512) (hs : s.bytes = writeDenial msg ++ rest) :
    (firstRead .keepAlive n s).2 = some errFramedBadRecord := by
  have hcut : s.bytes = (denialMagic ++ (putUint16 msg.length).take 1) ++
      ((putUint16 msg.length).drop 1 ++ (msg ++ rest)) := by
    rw [hs, writeDenial_eq hlen]
    simp only [append_assoc]
    rw [← append_assoc ((putUint16 msg.length).take 1), take_append_drop]
  obtain ⟨s', hread, -⟩ := Stream.readFull_append (s := s) (e := s.fin) ⟨hcut, rfl⟩
  have h5 : (denialMagic ++ (putUint16 msg.length).take 1).length = 5 := by simp [denialMagic]
  rw [h5] at hread
  obtain ⟨d', hfull, -⟩ := decoyLeaveConn_readFull { conn := s }
  rw [hread] at hfull
  have hnot : (denialMagic ++ (putUint16 msg.length).take 1).take 1 ≠ [0x17] := by
    intro h
    have : (0xFF : UInt8) = 0x17 := (List.cons.inj h).1
    exact absurd this (by decide)
  simp only [firstRead, readRecordFrom, hfull]
  rw [if_pos hnot]

end

/-- The client learns why it was refused exactly if the stream is not framed and its first read takes all of
    the refusal. -/
theorem refusal_reaches_client_iff (msg rest : Bytes) (hne : msg ≠ []) (hlen : msg.length ≤ 512) (s : Stream)
    (hs : s.bytes = writeDenial msg ++ rest) (mode : StreamMode) (n : Nat) :
    (firstRead mode n s).2 = some (errDenied msg) ↔
      (mode = .plain ∧ 6 + msg.length ≤ min n (s.sizes 0 + 1)) ∨
        (mode = .keepAlive ∧ msg = Strings.bytes "bad framed record") := by
  cases mode with
  | keepAlive =>
    rw [firstRead_keepAlive n hlen hs, Option.some_inj]
    simp only [reduceCtorEq, false_and, true_and, false_or]
    rw [eq_comm]
    exact errDenied_eq_bad
  | plain =>
    have hbytes : s.bytes ≠ [] := by
      rw [hs, writeDenial_eq hlen]
      exact cons_ne_nil _ _
    rw [firstRead_plain n hbytes, hs, parseDenial_take hne hlen]
    simp only [reduceCtorEq, false_and, true_and, or_false]
    by_cases hk : 6 + msg.length ≤ min n (s.sizes 0 + 1)
    · simp only [hk, if_true]
    · -- What is left is a part of the refusal, so that the transport has more to give.
      have hmore : (writeDenial msg ++ rest).drop (min n (s.sizes 0 + 1)) ≠ [] := by
        rw [Ne, drop_eq_nil_iff, writeDenial_eq hlen]
        simp [denialMagic]
        omega
      simp only [hk, if_false, hmore, and_false, reduceCtorEq]

def refused (msg : Bytes) (size : Nat) : Stream := ⟨writeDenial msg, fun _ => size - 1, .eof, false⟩

theorem refusal_reaches_client_at_once : (firstRead .plain 4096 (refused (Strings.bytes "Try again later.") 100)).2 =
      some (errDenied (Strings.bytes "Try again later.")) :=
  (refusal_reaches_client_iff _ [] (by decide) (by decide) (refused (Strings.bytes "Try again later.") 100)
    (append_nil _).symm .plain 4096).mpr (.inl ⟨rfl, by decide⟩)

/-- A framed stream reports a bad record where the message is, and a first read of one byte finds nothing. -/
theorem refusal_is_lost :
    (firstRead .keepAlive 4096 (refused (Strings.bytes "Try again later.") 100)).2 = some errFramedBadRecord ∧
      (firstRead .plain 4096 (refused (Strings.bytes "Try again later.") 1)).2 = none ∧
      errDenied (Strings.bytes "Try again later.") ≠ errFramedBadRecord := by
  decide +kernel

def carriesSplice (header : Bytes) : Bool := header.headD 0 &&& spliceProtoBit ≠ 0

theorem carriesSplice_streamHeader (proto : UInt8) (keepAlive splice : Bool) (addr : Bytes) (port : Nat) :
    carriesSplice (streamHeader proto keepAlive splice addr port) = splice := by
  have hbits : ∀ keepAlive splice : Bool, ∀ proto : UInt8,
      let b := if keepAlive then proto &&& ~~~spliceProtoBit ||| keepAliveProtoBit else proto &&& ~~~spliceProtoBit
      decide ((if splice then b ||| spliceProtoBit else b) &&& spliceProtoBit ≠ 0) = splice := by
    intro keepAlive splice
    refine SentStream.forall_byte ?_
    cases keepAlive <;> cases splice <;> decide +kernel
  exact hbits keepAlive splice proto

/-- The header that was last written to `c`. -/
def lastHeader (writes : List (DialledConn × Bytes)) (c : DialledConn) : Option Bytes :=
  ((writes.filter fun w => w.1 = c).map Prod.snd).getLast?

theorem lastHeader_one (c : DialledConn) (header : Bytes) : lastHeader [(c, header)] c = some header := by
  simp [lastHeader]

theorem lastHeader_two (a c : DialledConn) (header : Bytes) :
    lastHeader [(a, header), (c, header)] c = some header := by
  by_cases h : a = c <;> simp [lastHeader, h]

namespace OpenChoices
variable {c : OpenChoices} {p p' : ShapePads} {proto : UInt8} {addr : Bytes} {port : Nat} {st : OpenedStream}
  {writes : List (DialledConn × Bytes)}

theorem finish_keepAlive {conn : BaseConn} {reused splice : Bool}
    (h : c.finish p conn reused splice = (.keepAlive st, p')) :
    c.keepAlive = true ∧ st.base.conn = conn.conn ∧ st.downRaw = splice := by
  unfold finish at h
  split at h
  · cases h
  · rename_i hk
    refine ⟨by simpa using hk, ?_⟩
    cases reused <;> cases h <;> exact ⟨rfl, rfl⟩

theorem sendHeader_keepAlive {conn : BaseConn} {reused : Bool}
    (h : c.sendHeader p proto addr port conn reused = (.ok (.keepAlive st), writes, p')) :
    let header := streamHeader proto c.keepAlive (c.first.splice proto conn.conn) addr port
    (c.write = true ∧ writes = [(conn.conn, header)] ∧
      c.finish p conn reused (c.first.splice proto conn.conn) = (.keepAlive st, p')) ∨
    (∃ fresh, c.write = false ∧ reused = true ∧ c.redial = some fresh ∧
     writes = [(conn.conn, header), (fresh, header)] ∧
      c.finish p (.dialled fresh) false (c.second.splice proto fresh) = (.keepAlive st, p')) := by
  simp only [sendHeader] at h
  split at h
  · rename_i hw
    refine .inl ⟨hw, ?_⟩
    rcases hf : c.finish p conn reused (c.first.splice proto conn.conn) with ⟨opened, p₁⟩
    rw [hf] at h
    cases h
    exact ⟨rfl, rfl⟩
  · rename_i hw
    split at h
    · cases h
    · rename_i hreused
      split at h
      · cases h
      · rename_i fresh hfresh
        split at h
        · refine .inr ⟨fresh, by simpa using hw, by simpa using hreused, hfresh, ?_⟩
          rcases hf : c.finish p (.dialled fresh) false (c.second.splice proto fresh) with ⟨opened, p₁⟩
          rw [hf] at h
          cases h
          exact ⟨rfl, rfl⟩
        · cases h

theorem open_cases {result : Except OpenError Opened × List (DialledConn × Bytes) × ShapePads}
    (h : openStreamPerFlow c p proto addr port = result) :
    (∃ e, result = (.error e, [], p)) ∨
    (∃ conn, c.keepAlive = true ∧ c.taken = some conn ∧ c.sendHeader p proto addr port conn true = result) ∨
    (∃ conn, c.dial = some conn ∧ c.sendHeader p proto addr port (.dialled conn) false = result) := by
  unfold openStreamPerFlow at h
  split at h
  · exact .inl ⟨_, h.symm⟩
  · split at h
    · rename_i conn hconn
      split at hconn
      · exact .inr (.inl ⟨conn, ‹_›, hconn, h⟩)
      · cases hconn
    · split at h
      · exact .inl ⟨_, h.symm⟩
      · rename_i conn hconn
        exact .inr (.inr ⟨conn, hconn, h⟩)

/-- The decision to splice comes out the same on both connections, if there is a second one. -/
def Settled (c : OpenChoices) (proto : UInt8) : Prop :=
  c.write = true ∨ proto &&& spliceProtoBit = 0 ∨ ∀ pooled ∈ c.taken, ∀ fresh ∈ c.redial,
    ((c.first.spliceEnabled = true ∧ pooled.conn.raw = true ∧ c.first.fullFrame = false) ↔
      (c.second.spliceEnabled = true ∧ fresh.raw = true ∧ c.second.fullFrame = false))

theorem splice_eq_iff {e f : SpliceSettings} {a b : DialledConn} : e.splice proto a = f.splice proto b ↔
    (proto &&& spliceProtoBit = 0 ∨ ((e.spliceEnabled = true ∧ a.raw = true ∧ e.fullFrame = false) ↔
      (f.spliceEnabled = true ∧ b.raw = true ∧ f.fullFrame = false))) := by
  simp only [SpliceSettings.splice, decide_eq_decide, Bool.not_eq_true]
  by_cases hp : proto &&& spliceProtoBit = 0
  · simp only [hp, ne_eq, not_true, false_and, true_or]
  · simp only [hp, ne_eq, not_false_iff, true_and, false_or]

/-- The header carries the decision for the first connection, and the stream is read by that for the last one.
    -/
theorem header_and_mode (h : openStreamPerFlow c p proto addr port = (.ok (.keepAlive st), writes, p')) :
    ∃ header, lastHeader writes st.base.conn = some header ∧ (carriesSplice header = st.downRaw ↔ c.Settled proto) := by
  rcases open_cases h with ⟨e, he⟩ | ⟨conn, -, htaken, hsend⟩ | ⟨conn, -, hsend⟩
  · cases he
  · rcases sendHeader_keepAlive hsend with ⟨hw, rfl, hf⟩ | ⟨fresh, hw, -, hfresh, rfl, hf⟩
    · obtain ⟨-, hbase, hdown⟩ := finish_keepAlive hf
      rw [hbase]
      refine ⟨_, lastHeader_one _ _, ?_⟩
      rw [carriesSplice_streamHeader, hdown]
      exact iff_of_true rfl (.inl hw)
    · obtain ⟨-, hbase, hdown⟩ := finish_keepAlive hf
      rw [hbase]
      refine ⟨_, lastHeader_two _ _ _, ?_⟩
      rw [carriesSplice_streamHeader, hdown, splice_eq_iff]
      simp only [Settled, hw, htaken, hfresh, Bool.false_eq_true, false_or, Option.mem_def, Option.some.injEq,
        forall_eq']
  · rcases sendHeader_keepAlive hsend with ⟨hw, rfl, hf⟩ | ⟨fresh, -, hreused, -⟩
    · obtain ⟨-, hbase, hdown⟩ := finish_keepAlive hf
      rw [hbase]
      refine ⟨_, lastHeader_one _ _, ?_⟩
      rw [carriesSplice_streamHeader, hdown]
      exact iff_of_true rfl (.inl hw)
    · cases hreused

end OpenChoices

/-- The last header on the connection of a stream asks the server to splice exactly if the client reads the
    stream raw, unless a connection from the pool did not take the header and the decision came out
    differently for the new one. -/
theorem header_agrees_with_mode_iff (c : OpenChoices) (p p' : ShapePads) (proto : UInt8) (addr : Bytes) (port : Nat)
    (st : OpenedStream) (writes : List (DialledConn × Bytes))
    (h : openStreamPerFlow c p proto addr port = (.ok (.keepAlive st), writes, p')) :
    (∃ header, lastHeader writes st.base.conn = some header ∧ carriesSplice header = st.downRaw) ↔ c.Settled proto := by
  obtain ⟨header, hlast, hiff⟩ := OpenChoices.header_and_mode h
  constructor
  · rintro ⟨header', hlast', heq⟩
    rw [hlast] at hlast'
    cases hlast'
    exact hiff.mp heq
  · intro hs
    exact ⟨header, hlast, hiff.mpr hs⟩

/-- The connection from the pool is dead, and splicing is switched off before the new one if the argument says
    so. -/
def retried (off : Bool) : OpenChoices where
  dialer := true
  keepAlive := true
  taken := some (.decoy ⟨0, true⟩ 0)
  dial := none
  first := { spliceEnabled := true, fullFrame := false }
  write := false
  redial := some ⟨1, true⟩
  second := { spliceEnabled := !off, fullFrame := false }
  rewrite := true

def freshPads : ShapePads := (Datapath.new []).shape

theorem header_agrees_on_retry : ∃ st writes p', openStreamPerFlow (retried false) freshPads 0x86 [97] 443 =
    (.ok (.keepAlive st), writes, p') ∧ st.downRaw = true ∧
    ∃ header, lastHeader writes st.base.conn = some header ∧ carriesSplice header = st.downRaw := by
  refine ⟨⟨.decoy ⟨1, true⟩ 0, 0, true⟩, _, _, rfl, rfl, ?_⟩
  refine (header_agrees_with_mode_iff (retried false) freshPads _ 0x86 [97] 443 _ _ rfl).mpr (.inr (.inr ?_))
  simp [retried, BaseConn.conn]

/-- The header asks for a splice, and the client reads the stream inside TLS. -/
theorem header_of_the_dead_connection : ∃ st writes p', openStreamPerFlow (retried true) freshPads 0x86 [97] 443 =
    (.ok (.keepAlive st), writes, p') ∧ st.downRaw = false ∧
    ∃ header, lastHeader writes st.base.conn = some header ∧ carriesSplice header = true :=
  ⟨⟨.decoy ⟨1, true⟩ 0, 0, false⟩, _, _, rfl, rfl, _, rfl, by decide⟩

end Whispera
