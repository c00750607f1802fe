import Whispera.PeekHello

/-! A part of a record that could not be read whole is not recorded; such a connection is closed. Every other
one goes on with all its bytes. -/

namespace Whispera
open List Exec BigEndian Reader

namespace PeekConn
variable {c : PeekConn}

theorem read_spec (c : PeekConn) {n : Nat} (hn : 0 < n) :
    (c.read n).1 ++ (c.read n).2.2.stream.bytes = c.stream.bytes ∧ (c.read n).2.2.stream.fin = c.stream.fin ∧
      (c.read n).1.length ≤ n ∧ ((c.read n).2.1 = none → (c.read n).1 ≠ []) := by
  unfold read
  cases c.deadline 0 with
  | some e => exact ⟨rfl, rfl, Nat.zero_le _, nofun⟩
  | none =>
    obtain ⟨data, err, s', xs', hread, hle, hxs, hcase⟩ :=
      Stream.yields n (show c.stream.Holds c.stream.bytes c.stream.fin from ⟨rfl, rfl⟩) hn
    rw [hread]
    rcases hcase with ⟨rfl, hne, hbytes, hfin⟩ | ⟨rfl, rfl, hbytes, hfin⟩
    · exact ⟨by rw [hbytes, hxs], hfin, hle, fun _ => hne⟩
    · exact ⟨by rw [hbytes, hxs], hfin, hle, nofun⟩

theorem returns_readFullIdle (c : PeekConn) (want : Nat) :
    Returns (c.readFullIdle want) fun r => r.1 ++ r.2.2.stream.bytes = c.stream.bytes ∧
    r.2.2.stream.fin = c.stream.fin ∧
      r.1.length ≤ want ∧ (r.2.1 = none → r.1.length = want) := by
  refine returns_loop (I := fun s => s.1 ++ s.2.stream.bytes = c.stream.bytes ∧ s.2.stream.fin = c.stream.fin ∧
    s.1.length ≤ want) (m := fun s => want - s.1.length) (fun s hs => ?_) _ ([], c) ⟨rfl, rfl, Nat.zero_le _⟩ (by simp)
  obtain ⟨hbytes, hfin, hle⟩ := hs
  unfold readRound
  by_cases hmore : s.1.length < want
  · rw [if_pos hmore]
    obtain ⟨hread, hfin', hlen, hne⟩ := s.2.read_spec (n := want - s.1.length) (by omega)
    rcases h : s.2.read (want - s.1.length) with ⟨data, _ | e, c'⟩
    · rw [h] at hread hfin' hlen hne
      have hpos := length_pos_iff.mpr (hne rfl)
      refine returns_ret.mpr ⟨?_, nofun⟩
      rintro t ⟨⟩
      dsimp only at hread hfin' hlen hpos ⊢
      rw [length_append, append_assoc, hread]
      exact ⟨⟨hbytes, hfin'.trans hfin, by omega⟩, by omega⟩
    · rw [h] at hread hfin' hlen
      refine returns_ret.mpr ⟨nofun, ?_⟩
      rintro r ⟨⟩
      dsimp only at hread hfin' hlen ⊢
      rw [length_append, append_assoc, hread]
      exact ⟨hbytes, hfin'.trans hfin, by omega, nofun⟩
  · rw [if_neg hmore]
    refine returns_ret.mpr ⟨nofun, ?_⟩
    rintro r ⟨⟩
    exact ⟨hbytes, hfin, hle, fun _ => le_antisymm hle (Nat.le_of_not_lt hmore)⟩

end PeekConn

section
variable {unmarshal : Bytes → Option ClientHelloMsg}
variable {hs : Bytes} {raw : Bytes} {conn : PeekConn}

theorem length_of_judgeHello_none (h : judgeHello unmarshal hs = none) : hs.length ≤ camoMaxHandshake := by
  by_contra hlong
  unfold judgeHello at h
  rw [if_pos (by omega)] at h
  cases h

theorem not_incomplete_of_judgeHello {r : Except PeekError ClientHelloMsg}
    (h : judgeHello unmarshal hs = some r) : isIncomplete (peekResult raw conn r).error = false := by
  unfold judgeHello at h
  split at h
  · cases h
    rfl
  · split at h
    · split at h
      · cases h
        rfl
      · dsimp only at h
        split at h
        · cases h
        · split at h <;> cases h
          · rfl
          · rfl
    · cases h

/-- What the loop keeps: the records are recorded, and the first byte of the first one is that of a handshake.
    -/
structure Peek.Recorded (orig : Stream) (p : Peek) : Prop where
  exact : p.raw ++ p.conn.stream.bytes = orig.bytes
  fin : p.conn.stream.fin = orig.fin
  bound : p.raw.length ≤ 6 * p.hs.length
  limit : p.hs.length ≤ camoMaxHandshake
  handshake : p.raw = [] ∨ p.raw.head? = some 0x16

/-- What was read is recorded unless the hello is incomplete, and then nothing is recorded or what starts as a
    handshake. -/
structure PeekResult.Kept (orig : Stream) (r : PeekResult) : Prop where
  fin : r.conn.stream.fin = orig.fin
  bound : ∃ bytes, bytes ++ r.conn.stream.bytes = orig.bytes ∧ bytes.length ≤ 65541
  exact : isIncomplete r.error = false → r.hello.raw ++ r.conn.stream.bytes = orig.bytes
  incomplete : isIncomplete r.error = true → r.hello.raw = [] ∨ r.hello.raw.head? = some 0x16

theorem peekResult_raw (raw : Bytes) (conn : PeekConn) (r : Except PeekError ClientHelloMsg) :
    (peekResult raw conn r).hello.raw = raw ∧ (peekResult raw conn r).conn = conn := by
  cases r <;> exact ⟨rfl, rfl⟩

theorem kept_of_exact {orig : Stream} {r : Except PeekError ClientHelloMsg}
    (hexact : raw ++ conn.stream.bytes = orig.bytes) (hfin : conn.stream.fin = orig.fin) (hbound : raw.length ≤ 65541)
    (hcomplete : isIncomplete (peekResult raw conn r).error = false) : (peekResult raw conn r).Kept orig := by
  obtain ⟨hraw, hconn⟩ := peekResult_raw raw conn r
  refine ⟨by rw [hconn, hfin], ⟨raw, by rw [hconn, hexact], hbound⟩, fun _ => by rw [hraw, hconn, hexact], fun h => ?_⟩
  rw [hcomplete] at h
  cases h

theorem kept_of_incomplete {orig : Stream} {raw got : Bytes} (e : Err)
    (hexact : raw ++ (got ++ conn.stream.bytes) = orig.bytes) (hfin : conn.stream.fin = orig.fin)
    (hbound : raw.length + got.length ≤ 65541) (hhandshake : raw = [] ∨ raw.head? = some 0x16) :
    (peekResult raw conn (.error (.incomplete e))).Kept orig where
  fin := hfin
  bound := ⟨raw ++ got, by rw [append_assoc]; exact hexact, by rw [length_append]; exact hbound⟩
  exact := nofun
  incomplete := fun _ => hhandshake

theorem returns_peekRound {orig : Stream} {p : Peek} (h : p.Recorded orig) : Returns (peekRound unmarshal p) fun r =>
      (∀ q, r = .inl q → q.Recorded orig ∧ camoMaxHandshake - q.hs.length < camoMaxHandshake - p.hs.length) ∧
      ∀ a, r = .inr a → a.Kept orig := by
  obtain ⟨hexact, hfin, hbound, hlimit, hhandshake⟩ := h
  rw [camoMaxHandshake] at hlimit
  refine (p.conn.returns_readFullIdle 5).bind fun ⟨hdr, e, conn⟩ ⟨hbytes, hfin1, hle, hfull⟩ => ?_
  dsimp only at hbytes hfin1 hle hfull
  cases e with
  | some e =>
    refine returns_ret.mpr ⟨nofun, ?_⟩
    rintro _ ⟨⟩
    exact kept_of_incomplete e (by rw [hbytes, hexact]) (hfin1.trans hfin) (by omega) hhandshake
  | none =>
    have hhdr := hfull rfl
    have hexact1 : (p.raw ++ hdr) ++ conn.stream.bytes = orig.bytes := by rw [append_assoc, hbytes, hexact]
    have hlen1 : (p.raw ++ hdr).length ≤ 6 * p.hs.length + 5 := by
      rw [length_append]
      omega
    refine (returns_index (by omega) (by omega)).bind fun typ htyp => ?_
    split
    · refine returns_ret.mpr ⟨nofun, ?_⟩
      rintro _ ⟨⟩
      exact kept_of_exact hexact1 (hfin1.trans hfin) (by omega) rfl
    rename_i hrecord
    have hhandshake1 : (p.raw ++ hdr).head? = some 0x16 := by
      have hhead : hdr.head? = some 0x16 := by
        rw [head?_eq_getElem?, ← not_not.mp hrecord]
        exact htyp
      rcases hhandshake with hnil | hraw
      · rw [hnil, nil_append, hhead]
      · rw [head?_append, hraw, Option.some_or]
    refine (returns_index (by omega) (by omega)).bind fun hi _ => ?_
    refine (returns_index (by omega) (by omega)).bind fun lo _ => ?_
    dsimp only
    split
    · refine returns_ret.mpr ⟨nofun, ?_⟩
      rintro _ ⟨⟩
      exact kept_of_exact hexact1 (hfin1.trans hfin) (by omega) rfl
    rename_i hrecLen
    refine (conn.returns_readFullIdle _).bind fun ⟨body, e, conn2⟩ ⟨hbytes2, hfin2, hle2, hfull2⟩ => ?_
    dsimp only at hbytes2 hfin2 hle2 hfull2
    cases e with
    | some e =>
      refine returns_ret.mpr ⟨nofun, ?_⟩
      rintro _ ⟨⟩
      exact kept_of_incomplete e (by rw [hbytes2, hexact1]) (hfin2.trans (hfin1.trans hfin)) (by omega)
        (.inr hhandshake1)
    | none =>
      have hbody := hfull2 rfl
      have hexact2 : (p.raw ++ hdr ++ body) ++ conn2.stream.bytes = orig.bytes := by
        rw [append_assoc, hbytes2, hexact1]
      have hlen2 : (p.raw ++ hdr ++ body).length ≤ 6 * p.hs.length + 5 + body.length := by
        rw [length_append]
        omega
      dsimp only
      split
      · rename_i hjudge
        have hlimit2 := length_of_judgeHello_none hjudge
        refine returns_ret.mpr ⟨?_, nofun⟩
        rintro _ ⟨⟩
        refine ⟨⟨hexact2, hfin2.trans (hfin1.trans hfin), ?_, hlimit2, .inr ?_⟩, ?_⟩
        · have hhs : (p.hs ++ body).length = p.hs.length + body.length := length_append
          dsimp only
          omega
        · rw [head?_append, hhandshake1, Option.some_or]
        · rw [length_append] at hlimit2 ⊢
          omega
      · rename_i r hjudge
        refine returns_ret.mpr ⟨nofun, ?_⟩
        rintro _ ⟨⟩
        exact kept_of_exact hexact2 (hfin2.trans (hfin1.trans hfin)) (by omega) (not_incomplete_of_judgeHello hjudge)

theorem returns_peekClientHello (unmarshal : Bytes → Option ClientHelloMsg) (conn : PeekConn) :
    Returns (peekClientHello unmarshal conn) (·.Kept conn.stream) :=
  returns_loop (fun _ => returns_peekRound) _ { conn } ⟨rfl, rfl, Nat.zero_le _, Nat.zero_le _, .inl rfl⟩
    (Nat.lt_succ_self camoMaxHandshake)

def PrefixConn.Holds (c : PrefixConn) (xs : Bytes) (e : Err) : Prop :=
  ∃ rest, c.conn.Holds rest e ∧ xs = c.pre.drop c.off ++ rest

theorem PrefixConn.yields : Yields PrefixConn.read PrefixConn.Holds fun c e => c.conn.Spent e := by
  rintro c xs e n ⟨rest, hrest, rfl⟩ hn
  unfold PrefixConn.read
  by_cases hpre : c.off < c.pre.length
  · rw [if_pos hpre]
    have hne : (c.pre.drop c.off).take n ≠ [] := by
      rw [Ne, take_eq_nil_iff, drop_eq_nil_iff]
      omega
    have hdrop : c.pre.drop (c.off + ((c.pre.drop c.off).take n).length) = (c.pre.drop c.off).drop n := by
      rw [← drop_drop, length_take]
      rcases Nat.le_total n (c.pre.drop c.off).length with hle | hle
      · rw [min_eq_left hle]
      · rw [min_eq_right hle, drop_length, drop_eq_nil_of_le hle]
    refine ⟨_, _, _, (c.pre.drop c.off).drop n ++ rest, rfl, length_take_le _ _, ?_, .inl ⟨rfl, hne, rest, hrest, ?_⟩⟩
    · rw [← append_assoc, take_append_drop]
    · rw [hdrop]
  · rw [if_neg hpre, drop_eq_nil_of_le (Nat.le_of_not_lt hpre), nil_append]
    obtain ⟨data, err, conn, rest', hread, hle, hxs, hcase⟩ := Stream.yields n hrest hn
    rw [hread]
    refine ⟨data, err, { c with conn }, rest', rfl, hle, hxs, ?_⟩
    rcases hcase with ⟨herr, hne, hholds⟩ | hend
    · exact .inl ⟨herr, hne, rest', hholds, by rw [drop_eq_nil_of_le (Nat.le_of_not_lt hpre), nil_append]⟩
    · exact .inr hend

theorem relayUpstream_eq (raw : Bytes) (conn : Stream) {fuel : Nat} (h : conn.bytes.length < fuel) :
    (relayUpstream raw conn fuel ⟨[], none⟩).2.2.bytes = raw ++ conn.bytes := by
  have hwrite : (if raw.length > 0 then Sink.write raw ⟨[], none⟩ else (none, ⟨[], none⟩)) =
      ((none, ⟨raw, none⟩) : Option Err × Sink) := by
    split
    · rfl
    · rename_i hnil
      rw [length_eq_zero_iff.mp (Nat.eq_zero_of_not_pos hnil)]
  obtain ⟨s', hcopy, -⟩ := copy_yields Stream.yields (show 0 < 32768 by decide) fuel raw
    (show conn.Holds conn.bytes conn.fin from ⟨rfl, rfl⟩) h
  rw [relayUpstream, hwrite]
  dsimp only
  rw [hcopy]

/-- Whoever reads a connection that is not closed gets the stream of the client; and so does an origin that
    takes all. -/
def Handled.LosesNothing (orig : Stream) : Handled → Prop
  | closed => True
  | handedOver c => c.pre ++ c.conn.bytes = orig.bytes ∧
      ∀ bufs : Nat → Nat, (∀ i, 0 < bufs i) → ∃ k c', reads PrefixConn.read bufs k c = (orig.bytes, some orig.fin, c')
  | relayed _ raw rest => raw ++ rest.bytes = orig.bytes ∧
      ∀ fuel, rest.bytes.length < fuel → (relayUpstream raw rest fuel ⟨[], none⟩).2.2.bytes = orig.bytes

namespace CamoListener
variable (l : CamoListener) {orig : Stream} {r : PeekResult}

theorem handOver_losesNothing (h : r.Kept orig) (hcomplete : isIncomplete r.error = false) (userID : String)
    (psk : Bytes)
    (decoy : Bool) : (l.handOver r userID psk decoy).LosesNothing orig := by
  unfold handOver
  split
  · trivial
  · have hexact := h.exact hcomplete
    refine ⟨hexact, fun bufs hbufs => ?_⟩
    have hholds : PrefixConn.Holds
        { conn := r.conn.stream, pre := r.hello.raw, knownUser := userID, knownPSK := psk, decoy }
        orig.bytes orig.fin := ⟨r.conn.stream.bytes, ⟨rfl, h.fin⟩, hexact.symm⟩
    obtain ⟨k, c', -, hreads, -⟩ := reads_yields PrefixConn.yields hholds hbufs
    exact ⟨k, c', hreads⟩

theorem dispatch_losesNothing (crypto : Crypto) (h : r.Kept orig) : (l.dispatch crypto r).LosesNothing orig := by
  unfold dispatch
  split
  · rename_i userID psk hselected
    -- The selector is only asked about a hello that was read whole.
    have hcomplete : isIncomplete r.error = false := by
      unfold selected at hselected
      split at hselected
      · rename_i herr _
        rw [herr]
        rfl
      · cases hselected
    exact l.handOver_losesNothing h hcomplete userID psk false
  · split
    · rename_i hmarker
      exact l.handOver_losesNothing h (by rw [hmarker.1]; rfl) "" [] false
    · split
      · trivial
      · split
        · trivial
        · rename_i hraw hpartial
          have hcomplete : isIncomplete r.error = false := by
            by_contra hinc
            have hinc := Bool.eq_true_of_not_eq_false hinc
            rcases h.incomplete hinc with hnil | hhead
            · exact hraw hnil
            · exact hpartial ⟨hinc, by rw [headD_eq_head?_getD, hhead]; rfl⟩
          split
          · trivial
          · dsimp only
            split
            · have hexact := h.exact hcomplete
              exact ⟨hexact, fun fuel hfuel => by rw [relayUpstream_eq _ _ hfuel, hexact]⟩
            · exact l.handOver_losesNothing h hcomplete "" [] true

end CamoListener

/-- The peek comes to an end after a bounded number of bytes, and a connection that is not closed loses none.
    -/
theorem peek_losesNothing (unmarshal : Bytes → Option ClientHelloMsg) (crypto : Crypto) (l : CamoListener)
    (conn : PeekConn) :
    Returns (peekClientHello unmarshal conn) (fun r =>
      ∃ bytes, bytes ++ r.conn.stream.bytes = conn.stream.bytes ∧ bytes.length ≤ 65541) ∧
    Returns (l.handle unmarshal crypto conn) (·.LosesNothing conn.stream) := by
  have hpeek := returns_peekClientHello unmarshal conn
  refine ⟨hpeek.mono fun r hr => hr.bound, ?_⟩
  exact hpeek.bind fun r hr => returns_ret.mpr (l.dispatch_losesNothing crypto hr)

end

end Whispera
