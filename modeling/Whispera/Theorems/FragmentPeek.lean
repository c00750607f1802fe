import Whispera.Theorems.Fragment
import Whispera.Theorems.PeekHello

/-! The peek depends on the bytes of the stream only, and several records lead to the same judgement as the
one with their payload. -/

namespace Whispera
open List hiding get
open Exec BigEndian Reader

section
variable (unmarshal : Bytes → Option ClientHelloMsg)

/-- A record off a stream that holds `xs` and ends with `e`: the rest and the handshake bytes, or the
    judgement. -/
def peekBytes (e : Err) (s : Bytes × Bytes) : Bytes × Bytes ⊕ Except PeekError ClientHelloMsg :=
  match s.1 with
  | typ :: _ :: _ :: hi :: lo :: rest =>
    if typ ≠ 0x16 then .inr (.error (.text "whispera: not a TLS handshake record"))
    else if get [hi, lo] ≤ 0 ∨ get [hi, lo] > 16384 then .inr (.error (.text "whispera: invalid TLS record length"))
    else if rest.length < get [hi, lo] then .inr (.error (.incomplete e))
    else
      match judgeHello unmarshal (s.2 ++ rest.take (get [hi, lo])) with
      | none => .inl (rest.drop (get [hi, lo]), s.2 ++ rest.take (get [hi, lo]))
      | some r => .inr r
  | _ => .inr (.error (.incomplete e))

def judgeBytes (e : Err) (n : Nat) (s : Bytes × Bytes) : Exec (Except PeekError ClientHelloMsg) :=
  loop (fun s => ret (peekBytes unmarshal e s)) n s

end

variable {c : PeekConn} {xs : Bytes}

namespace PeekConn

/-- A connection with `xs` and then `e` to come, and no timeouts. -/
structure Calm (c : PeekConn) (xs : Bytes) (e : Err) : Prop where
  holds : c.stream.Holds xs e
  apart : c.stream.together = false
  deadlines : ∀ i, c.deadline i = none

theorem Calm.read_nil {e : Err} (h : c.Calm [] e) (n : Nat) : ∃ c', c.read n = ([], some e, c') := by
  obtain ⟨⟨hbytes, hfin⟩, -, hdead⟩ := h
  rw [read, hdead 0]
  rw [Stream.read, if_pos hbytes, hfin]
  exact ⟨_, rfl⟩

theorem Calm.read_cons {e : Err} (h : c.Calm xs e) (hne : xs ≠ []) {n : Nat} (hn : 0 < n) :
    ∃ data ys c', c.read n = (data, none, c') ∧ xs = data ++ ys ∧ data ≠ [] ∧ data.length ≤ n ∧ c'.Calm ys e := by
  obtain ⟨⟨rfl, rfl⟩, happart, hdead⟩ := h
  rw [read, hdead 0]
  rw [Stream.read, if_neg hne]
  dsimp only
  rw [if_neg (by rw [happart]; rintro ⟨h, -⟩; cases h)]
  refine ⟨_, _, _, rfl, (take_append_drop _ _).symm, ?_, ?_, ⟨rfl, rfl⟩, happart, fun i => hdead (i + 1)⟩
  · rw [Ne, take_eq_nil_iff, not_or]
    exact ⟨by omega, hne⟩
  · rw [length_take]
    omega

theorem Calm.readFullIdle_append {ys : Bytes} {e : Err} (h : c.Calm (xs ++ ys) e) :
    ∃ c', c.readFullIdle xs.length = ret (xs, none, c') ∧ c'.Calm ys e := by
  have hreturns : Returns (c.readFullIdle xs.length) fun r => r.1 = xs ∧ r.2.1 = none ∧ r.2.2.Calm ys e := by
    refine returns_loop (I := fun s => ∃ zs, s.1 ++ zs = xs ∧ s.2.Calm (zs ++ ys) e)
      (m := fun s => xs.length - s.1.length)
      (fun s hs => ?_) _ ([], c) ⟨xs, rfl, h⟩ (by simp)
    obtain ⟨zs, hxs, hcalm⟩ := hs
    have hlen : s.1.length + zs.length = xs.length := by rw [← hxs, length_append]
    unfold readRound
    by_cases hmore : s.1.length < xs.length
    · rw [if_pos hmore]
      have hzs : zs ≠ [] := length_pos_iff.mp (by omega)
      obtain ⟨data, rest, c', hread, hcat, hne, hle, hcalm'⟩ :=
        hcalm.read_cons (append_ne_nil_of_left_ne_nil hzs ys) (n := xs.length - s.1.length) (by omega)
      -- The read is not longer than what the buffer still takes.
      obtain ⟨zs', rfl⟩ : data <+: zs := prefix_of_prefix_length_le ⟨rest, hcat.symm⟩ (prefix_append zs ys) (by omega)
      obtain rfl : zs' ++ ys = rest := by simpa using hcat
      rw [hread]
      refine returns_ret.mpr ⟨?_, nofun⟩
      rintro t ⟨⟩
      have hpos := length_pos_iff.mpr hne
      refine ⟨⟨zs', by rw [append_assoc, hxs], hcalm'⟩, ?_⟩
      rw [length_append] at hlen ⊢
      omega
    · rw [if_neg hmore]
      obtain rfl : zs = [] := length_eq_zero_iff.mp (by omega)
      refine returns_ret.mpr ⟨nofun, ?_⟩
      rintro r ⟨⟩
      exact ⟨by rw [← hxs, append_nil], rfl, hcalm⟩
  obtain ⟨⟨got, err, c'⟩, hread, rfl, rfl, hcalm⟩ := hreturns
  exact ⟨c', hread, hcalm⟩

theorem Calm.readFullIdle_short {e : Err} (h : c.Calm xs e) {want : Nat}
    (hlen : xs.length < want) : ∃ c', c.readFullIdle want = ret (xs, some e, c') := by
  have hreturns : Returns (c.readFullIdle want) fun r => r.1 = xs ∧ r.2.1 = some e := by
    refine returns_loop (I := fun s => ∃ zs, s.1 ++ zs = xs ∧ s.2.Calm zs e) (m := fun s => want - s.1.length)
      (fun s hs => ?_) _ ([], c) ⟨xs, rfl, h⟩ (by simp)
    obtain ⟨zs, hxs, hcalm⟩ := hs
    have hlens : s.1.length + zs.length = xs.length := by rw [← hxs, length_append]
    unfold readRound
    rw [if_pos (by omega)]
    by_cases hzs : zs = []
    · subst hzs
      obtain ⟨c', hread⟩ := hcalm.read_nil (want - s.1.length)
      rw [hread]
      refine returns_ret.mpr ⟨nofun, ?_⟩
      rintro r ⟨⟩
      exact ⟨hxs, rfl⟩
    · obtain ⟨data, rest, c', hread, rfl, hne, -, hcalm'⟩ := hcalm.read_cons hzs (n := want - s.1.length) (by omega)
      rw [hread]
      refine returns_ret.mpr ⟨?_, nofun⟩
      rintro t ⟨⟩
      have hpos := length_pos_iff.mpr hne
      refine ⟨⟨rest, by rw [append_assoc, hxs], hcalm'⟩, ?_⟩
      rw [length_append] at hlens ⊢
      omega
  obtain ⟨⟨got, err, c'⟩, hread, rfl, rfl⟩ := hreturns
  exact ⟨c', hread⟩

end PeekConn

section
variable {unmarshal : Bytes → Option ClientHelloMsg} {e : Err}

theorem peekBytes_short (h : xs.length < 5) (hs : Bytes) :
    peekBytes unmarshal e (xs, hs) = .inr (.error (.incomplete e)) := by
  match xs, h with
  | [], _ => rfl
  | [_], _ => rfl
  | [_, _], _ => rfl
  | [_, _, _], _ => rfl
  | [_, _, _, _], _ => rfl

theorem exists_five (h : 5 ≤ xs.length) : ∃ a b c d f rest, xs = [a, b, c, d, f] ++ rest := by
  match xs, h with
  | a :: b :: c :: d :: f :: rest, _ => exact ⟨a, b, c, d, f, rest, rfl⟩

theorem peekRound_refines (unmarshal : Bytes → Option ClientHelloMsg) {p : Peek} {hs : Bytes}
    (hcalm : p.conn.Calm xs e) (hhs : p.hs = hs) :
    (∃ p' xs' hs', peekRound unmarshal p = ret (.inl p') ∧ peekBytes unmarshal e (xs, hs) = .inl (xs', hs') ∧
      p'.conn.Calm xs' e ∧ p'.hs = hs') ∨
    ∃ raw conn r, peekRound unmarshal p = ret (.inr (peekResult raw conn r)) ∧
    peekBytes unmarshal e (xs, hs) = .inr r := by
  subst hhs
  by_cases hshort : xs.length < 5
  · obtain ⟨c', hread⟩ := hcalm.readFullIdle_short hshort
    exact .inr ⟨p.raw, c', _, by rw [peekRound, hread, ret_bind], peekBytes_short hshort _⟩
  · obtain ⟨typ, v1, v2, hi, lo, rest, rfl⟩ := exists_five (Nat.le_of_not_lt hshort)
    obtain ⟨c1, hread, hcalm1⟩ := hcalm.readFullIdle_append
    rw [show [typ, v1, v2, hi, lo].length = 5 from rfl] at hread
    by_cases htyp : typ ≠ 0x16
    · refine .inr ⟨p.raw ++ [typ, v1, v2, hi, lo], c1, _, ?_, if_pos htyp⟩
      rw [peekRound, hread, ret_bind]
      exact if_pos htyp
    by_cases hlen : get [hi, lo] ≤ 0 ∨ get [hi, lo] > 16384
    · refine .inr ⟨p.raw ++ [typ, v1, v2, hi, lo], c1, _, ?_, (if_neg htyp).trans (if_pos hlen)⟩
      rw [peekRound, hread, ret_bind]
      exact (if_neg htyp).trans (if_pos hlen)
    by_cases hbody : rest.length < get [hi, lo]
    · obtain ⟨c2, hread2⟩ := hcalm1.readFullIdle_short hbody
      refine .inr ⟨p.raw ++ [typ, v1, v2, hi, lo], c2, _, ?_, (if_neg htyp).trans ((if_neg hlen).trans (if_pos hbody))⟩
      rw [peekRound, hread, ret_bind]
      refine (if_neg htyp).trans ((if_neg hlen).trans ?_)
      rw [hread2, ret_bind]
    · have hcalm1' : c1.Calm (rest.take (get [hi, lo]) ++ rest.drop (get [hi, lo])) e := by rwa [take_append_drop]
      obtain ⟨c2, hread2, hcalm2⟩ := hcalm1'.readFullIdle_append
      rw [length_take, min_eq_left (Nat.le_of_not_lt hbody)] at hread2
      cases hjudge : judgeHello unmarshal (p.hs ++ rest.take (get [hi, lo])) with
      | none =>
        refine .inl ⟨⟨c2, p.raw ++ [typ, v1, v2, hi, lo] ++ rest.take (get [hi, lo]), p.hs ++ rest.take (get [hi, lo])⟩,
          rest.drop (get [hi, lo]), p.hs ++ rest.take (get [hi, lo]), ?_,
          (if_neg htyp).trans ((if_neg hlen).trans ((if_neg hbody).trans ?_)), hcalm2, rfl⟩
        · rw [peekRound, hread, ret_bind]
          refine (if_neg htyp).trans ((if_neg hlen).trans ?_)
          rw [hread2, ret_bind]
          dsimp only
          rw [hjudge]
        · dsimp only [append_eq, nil_append]
          rw [hjudge]
      | some r =>
        refine .inr ⟨p.raw ++ [typ, v1, v2, hi, lo] ++ rest.take (get [hi, lo]), c2, r, ?_,
          (if_neg htyp).trans ((if_neg hlen).trans ((if_neg hbody).trans ?_))⟩
        · rw [peekRound, hread, ret_bind]
          refine (if_neg htyp).trans ((if_neg hlen).trans ?_)
          rw [hread2, ret_bind]
          dsimp only
          rw [hjudge]
        · dsimp only [append_eq, nil_append]
          rw [hjudge]

theorem peekClientHello_refines (unmarshal : Bytes → Option ClientHelloMsg) (hcalm : c.Calm xs e) :
    ∃ raw conn r, peekClientHello unmarshal c = ret (peekResult raw conn r) ∧
      judgeBytes unmarshal e (camoMaxHandshake + 1) (xs, []) = ret r := by
  obtain ⟨a, hpeek, -⟩ := returns_peekClientHello unmarshal c
  have hround : ∀ (p : Peek) (t : Bytes × Bytes), p.conn.Calm t.1 e ∧ p.hs = t.2 →
      (∃ p' t', peekRound unmarshal p = ret (.inl p') ∧ ret (peekBytes unmarshal e t) = ret (.inl t') ∧
        p'.conn.Calm t'.1 e ∧ p'.hs = t'.2) ∨
      ∃ a r, peekRound unmarshal p = ret (.inr a) ∧ ret (peekBytes unmarshal e t) = ret (.inr r) ∧
        ∃ raw conn, a = peekResult raw conn r := by
    rintro p t ⟨hcalm, hhs⟩
    rcases peekRound_refines unmarshal hcalm hhs with
      ⟨p', xs', hs', hround, hbytes, hR⟩ | ⟨raw, conn, r, hround, hbytes⟩
    · exact .inl ⟨p', (xs', hs'), hround, congrArg ret hbytes, hR⟩
    · exact .inr ⟨_, r, hround, congrArg ret hbytes, raw, conn, rfl⟩
  obtain ⟨r, hjudge, raw, conn, rfl⟩ := loop_refines hround (t := (xs, [])) ⟨hcalm, rfl⟩ hpeek
  exact ⟨raw, conn, r, hpeek, hjudge⟩

theorem judgeHello_append {hs more : Bytes} {r : Except PeekError ClientHelloMsg} (h : judgeHello unmarshal hs = some r)
    (hlimit : (hs ++ more).length ≤ camoMaxHandshake) : judgeHello unmarshal (hs ++ more) = some r := by
  rw [length_append] at hlimit
  unfold judgeHello at h ⊢
  rw [if_neg (by omega)] at h
  rw [if_neg (by rw [length_append]; omega)]
  match hs, h with
  | typ :: b1 :: b2 :: b3 :: rest, h =>
    dsimp only [cons_append] at h ⊢
    by_cases htyp : typ ≠ 0x01
    · rw [if_pos htyp] at h ⊢
      exact h
    · rw [if_neg htyp] at h ⊢
      by_cases hwant : (typ :: b1 :: b2 :: b3 :: rest).length < 4 + get [b1, b2, b3]
      · rw [if_pos hwant] at h
        cases h
      · rw [if_neg hwant] at h
        have htake : (typ :: b1 :: b2 :: b3 :: (rest ++ more)).take (4 + get [b1, b2, b3]) =
            (typ :: b1 :: b2 :: b3 :: rest).take (4 + get [b1, b2, b3]) := by
          rw [← take_append_of_le_length (Nat.le_of_not_lt hwant)]
          rfl
        rw [if_neg (by simp only [length_cons, length_append] at hwant ⊢; omega), htake]
        exact h

theorem peekBytes_record (unmarshal : Bytes → Option ClientHelloMsg) (e : Err) (major minor : UInt8)
    {body : Bytes} (h0 : body ≠ []) (hlen : body.length ≤ 16384)
    (rest hs : Bytes) :
    peekBytes unmarshal e (tlsRecord [0x16, major, minor] body ++ rest, hs) =
      match judgeHello unmarshal (hs ++ body) with
      | none => .inl (rest, hs ++ body)
      | some r => .inr r := by
  have hpos := length_pos_iff.mpr h0
  have hget : get [UInt8.ofNat (body.length >>> 8), UInt8.ofNat body.length] = body.length := by
    have := get_putUint16 (n := body.length) (by omega)
    simpa [putUint16, put, Nat.shiftRight_eq_div_pow] using this
  have hshape : tlsRecord [0x16, major, minor] body ++ rest =
      0x16 :: major :: minor :: UInt8.ofNat (body.length >>> 8) :: UInt8.ofNat body.length :: (body ++ rest) := by
    simp [tlsRecord]
  rw [hshape, peekBytes]
  dsimp only
  rw [hget, if_neg (by simp), if_neg (by omega), if_neg (by simp), take_left, drop_left]

theorem judgeBytes_records (unmarshal : Bytes → Option ClientHelloMsg) (e : Err) (major minor : UInt8) (rest : Bytes)
    (n : Nat) : ∀ (bodies : List Bytes) {hs : Bytes}, (∀ b ∈ bodies, b ≠ []) → judgeHello unmarshal hs = none →
      (hs ++ bodies.flatten).length ≤ camoMaxHandshake →
      judgeBytes unmarshal e (n + bodies.length) ((bodies.map (tlsRecord [0x16, major, minor])).flatten ++ rest, hs) =
        match judgeHello unmarshal (hs ++ bodies.flatten) with
        | none => judgeBytes unmarshal e n (rest, hs ++ bodies.flatten)
        | some r => ret r := by
  intro bodies
  induction bodies with
  | nil =>
    intro hs _ hnone _
    rw [flatten_nil, append_nil, hnone]
    rfl
  | cons b bodies ih =>
    intro hs hne hnone hlimit
    rw [flatten_cons, ← append_assoc] at hlimit
    have hb := hne b mem_cons_self
    have hblen : b.length ≤ 16384 := by
      rw [length_append, length_append, camoMaxHandshake] at hlimit
      omega
    have hround := peekBytes_record unmarshal e major minor hb hblen
      ((bodies.map (tlsRecord [0x16, major, minor])).flatten ++ rest) hs
    rw [map_cons, flatten_cons, flatten_cons, append_assoc, length_cons, ← add_assoc,
      ← append_assoc hs]
    cases hjudge : judgeHello unmarshal (hs ++ b) with
    | none =>
      rw [hjudge] at hround
      rw [judgeBytes, loop_next _ (congrArg ret hround)]
      exact ih (fun c hc => hne c (mem_cons_of_mem _ hc)) hjudge hlimit
    | some r =>
      rw [hjudge] at hround
      rw [judgeHello_append hjudge hlimit]
      exact loop_end _ (congrArg ret hround)

end

def PeekResult.extracted (r : PeekResult) : Option PeekError × Bytes × String × Bytes :=
  (r.error, r.hello.random, r.hello.sni, r.hello.keyShare)

def tcpConn (bytes : Bytes) (sizes : Nat → Nat) (fin : Err) : PeekConn where
  stream := { bytes, sizes, fin, together := false }

theorem tcpConn_calm (bytes : Bytes) (sizes : Nat → Nat) (fin : Err) : (tcpConn bytes sizes fin).Calm bytes fin :=
  ⟨⟨rfl, rfl⟩, rfl, fun _ => rfl⟩

/-- The server takes the same from the fragments as from the record, however the two streams are cut into
    reads. -/
theorem peek_fragments (unmarshal : Bytes → Option ClientHelloMsg) {major minor : UInt8} {payload : Bytes}
    {bodies : List Bytes} (h0 : payload ≠ []) (hlen : payload.length ≤ camoMaxHandshake)
    (hne : ∀ b ∈ bodies, b ≠ []) (hflat : bodies.flatten = payload) (rest : Bytes) (sizes sizes' : Nat → Nat)
    (fin : Err) :
    ∃ r r', peekClientHello unmarshal (tcpConn (helloRecord major minor payload ++ rest) sizes fin) = ret r ∧
      peekClientHello unmarshal
        (tcpConn ((bodies.map (tlsRecord [0x16, major, minor])).flatten ++ rest) sizes' fin) = ret r' ∧
      r'.extracted = r.extracted := by
  have hone : [payload].flatten = payload := flatten_singleton
  have hrecord : (([payload].map (tlsRecord [0x16, major, minor])).flatten ++ rest) =
      helloRecord major minor payload ++ rest := by
    rw [map_singleton, flatten_singleton, helloRecord]
  have hnil : judgeHello unmarshal [] = none := rfl
  have hwhole := judgeBytes_records unmarshal fin major minor rest (camoMaxHandshake + 1) [payload]
    (fun b hb => by rwa [mem_singleton.mp hb]) hnil
    (by rw [hone]; exact hlen)
  have hparts := judgeBytes_records unmarshal fin major minor rest (camoMaxHandshake + 1) bodies hne hnil
    (by rw [hflat]; exact hlen)
  rw [hone, hrecord] at hwhole
  rw [hflat] at hparts
  obtain ⟨raw, conn, r, hpeek, hjudge⟩ := peekClientHello_refines unmarshal
    (tcpConn_calm (helloRecord major minor payload ++ rest) sizes fin)
  obtain ⟨raw', conn', r', hpeek', hjudge'⟩ := peekClientHello_refines unmarshal
    (tcpConn_calm ((bodies.map (tlsRecord [0x16, major, minor])).flatten ++ rest) sizes' fin)
  have hsame : ret r' = ret r := by
    rw [← loop_of_le hjudge' (Nat.le_add_right _ bodies.length),
      ← loop_of_le hjudge (Nat.le_add_right _ [payload].length)]
    exact hparts.trans hwhole.symm
  cases hsame
  refine ⟨_, _, hpeek, hpeek', ?_⟩
  cases r <;> rfl

/-- Whatever is drawn, the records are as many as allowed, none is empty, each announces its length, and
    together they carry the payload; and the server takes the same from them. -/
def Transparent (plan : FragmentPlan) : Prop :=
  ∀ major minor payload draws, 1 ≤ payload.length → payload.length ≤ 16384 →
    Returns (writeFragmentedTLSRecord plan draws (fun _ => none) (helloRecord major minor payload)) fun records =>
      records.length ≤ plan.allowed ∧
      (∃ bodies : List Bytes, records = bodies.map (fun b => [0x16, major, minor] ++ putUint16 b.length ++ b) ∧
        (∀ b ∈ bodies, b ≠ [] ∧ get (putUint16 b.length) = b.length) ∧ bodies.flatten = payload) ∧
      (payload.length ≤ camoMaxHandshake → ∀ unmarshal rest sizes sizes' fin,
        ∃ r r', peekClientHello unmarshal (tcpConn (helloRecord major minor payload ++ rest) sizes fin) = ret r ∧
          peekClientHello unmarshal (tcpConn (records.flatten ++ rest) sizes' fin) = ret r' ∧
          r'.extracted = r.extracted)

/-- Fragmentation is transparent just if nothing in the plan overflows. -/
theorem transparent_iff_safe (plan : FragmentPlan) : Transparent plan ↔ plan.Safe := by
  constructor
  · intro h
    by_contra hsafe
    obtain ⟨hfits, hone⟩ := not_or.mp hsafe
    obtain ⟨draws, hpanic⟩ := shortNameHello_panics hfits fun h => not_not.mp fun hne => hone ⟨h, hne⟩
    obtain ⟨hlen, -⟩ := shortNameHello_split
    obtain ⟨records, hret, -⟩ := h 3 1 shortNameHello draws (by omega) (by omega)
    rw [hpanic] at hret
    cases hret
  · intro hsafe major minor payload draws h1 hlen
    obtain ⟨s, hs, -⟩ := returns_sniSplitOffset payload
    rw [writeFragmentedTLSRecord_eq plan draws _ major minor h1 hs]
    refine (returns_fragments draws [0x16, major, minor] (hsafe.works _ h1 hlen)).mono fun records hrecords => ?_
    obtain ⟨bodies, rfl, hne, hflat, hbudget, -⟩ := hrecords
    have hbody : ∀ b ∈ bodies, b.length ≤ payload.length := fun b hb => hflat ▸ (sublist_flatten_of_mem hb).length_le
    refine ⟨by rw [length_map]; exact hbudget, ⟨bodies, ?_, fun b hb => ⟨hne b hb, ?_⟩, hflat⟩, fun hmax => ?_⟩
    · exact map_congr_left fun b _ => tlsRecord_eq _ b
    · exact get_putUint16 (by have := hbody b hb; omega)
    · intro unmarshal rest sizes sizes' fin
      exact peek_fragments unmarshal (length_pos_iff.mp h1) hmax hne hflat rest sizes sizes' fin

def overflowPlan : FragmentPlan where
  size := 7000000000000000000
  maxRecords := 4
  delayMin := 0
  delayMax := 0
  fits := by decide

/-- A draw of seven quintillions makes the chunk negative, and a hello of one byte is not written. -/
theorem overflowPlan_panics :
    writeFragmentedTLSRecord overflowPlan ⟨fun _ => 7000000000000000000, fun _ => 0⟩ (fun _ => none)
      (helloRecord 3 1 [0x01]) =
      panic := by
  decide +kernel

end Whispera
