import Mathlib.Data.List.TakeWhile
import Whispera.UdpFrames

/-! A frame of length zero ends the loop of the reader, an empty datagram is not framed, and a reply without
room for its header is not sent. -/

namespace Whispera
open List hiding get
open BigEndian Reader Net

theorem get_frameSize {n : Nat} (h : n < 65536) : get [UInt8.ofNat (n >>> 8), UInt8.ofNat n] = n := by
  have hput : [UInt8.ofNat (n >>> 8), UInt8.ofNat n] = putUint16 n := by
    rw [Nat.shiftRight_eq_div_pow]
    simp [putUint16, put]
  rw [hput, get_putUint16 h]

theorem sendStream_eq (payload : Bytes) :
    sendStream payload = [UInt8.ofNat (payload.length >>> 8), UInt8.ofNat payload.length] ++ payload := rfl

variable {payloads : List Bytes} {datagrams : List Bytes}

theorem relayUp_frames {fuel : Nat} {s : Stream} {e : Err}
    (hs : s.Holds (payloads.flatMap sendStream) e) (hlen : ∀ p ∈ payloads, p.length ≤ udpCopyBufData)
    (hfuel : payloads.length < fuel) :
    ∃ e', relayUp fuel s = some (payloads.takeWhile (· ≠ []), e') := by
  induction payloads generalizing fuel s with
  | nil =>
    obtain ⟨fuel, rfl⟩ := Nat.exists_eq_succ_of_ne_zero (Nat.ne_of_gt hfuel)
    obtain ⟨s', hread, -⟩ := Stream.readFull_short hs (by decide : _ < 2)
    rw [relayUp, hread]
    exact ⟨_, rfl⟩
  | cons p payloads ih =>
    obtain ⟨fuel, rfl⟩ := Nat.exists_eq_succ_of_ne_zero (Nat.ne_of_gt (lt_of_lt_of_le (Nat.succ_pos _) hfuel))
    obtain ⟨hp, hlen⟩ := forall_mem_cons.mp hlen
    rw [flatMap_cons, sendStream_eq, append_assoc] at hs
    obtain ⟨s₁, hsize, hs₁⟩ := Stream.readFull_append hs
    have hget := get_frameSize (n := p.length) (Nat.lt_succ_of_le hp)
    rw [relayUp, show 2 = [UInt8.ofNat (p.length >>> 8), UInt8.ofNat p.length].length from rfl, hsize]
    simp only [hget]
    by_cases hnil : p = []
    · subst hnil
      rw [if_pos (Or.inl length_nil), takeWhile_cons_of_neg (by simp)]
      exact ⟨_, rfl⟩
    · obtain ⟨s₂, hdata, hs₂⟩ := Stream.readFull_append hs₁
      obtain ⟨e', hrest⟩ := ih hs₂ hlen (Nat.lt_of_succ_lt_succ hfuel)
      have hpos := length_pos_of_ne_nil hnil
      rw [if_neg (by omega), hdata, takeWhile_cons_of_pos (by simpa using hnil)]
      simp only [hrest]
      exact ⟨e', rfl⟩

theorem relayDown_eq (hlen : ∀ d ∈ datagrams, d.length ≤ udpCopyBufData) :
    relayDown datagrams = (datagrams.filter (· ≠ [])).flatMap fun d => putUint16 d.length ++ d := by
  induction datagrams with
  | nil => rfl
  | cons d datagrams ih =>
    obtain ⟨hd, hlen⟩ := forall_mem_cons.mp hlen
    have hrest : relayDown datagrams = (datagrams.filter (· ≠ [])).flatMap fun d => putUint16 d.length ++ d := ih hlen
    rw [relayDown, flatMap_cons, ← relayDown, hrest]
    simp only [take_of_length_le hd]
    by_cases hnil : d = []
    · subst hnil
      rfl
    · rw [if_pos (length_pos_of_ne_nil hnil), filter_cons_of_pos (by simpa using hnil), flatMap_cons]

theorem pump_frames {limit fuel : Nat} {hdr : Bytes} {s : Stream} {e : Err}
    (hs : s.Holds (datagrams.flatMap fun d => putUint16 d.length ++ d) e) (hne : ∀ d ∈ datagrams, d ≠ [])
    (hlen : ∀ d ∈ datagrams, d.length ≤ udpCopyBufData) (hfuel : datagrams.length < fuel) :
    pumpUDPStreamReplies limit hdr fuel s = some (datagrams.flatMap (sendUDPReply limit hdr)) := by
  induction datagrams generalizing fuel s with
  | nil =>
    obtain ⟨fuel, rfl⟩ := Nat.exists_eq_succ_of_ne_zero (Nat.ne_of_gt hfuel)
    obtain ⟨s', hread, -⟩ := Stream.readFull_short hs (by decide : _ < 2)
    rw [pumpUDPStreamReplies, hread]
    rfl
  | cons d datagrams ih =>
    obtain ⟨fuel, rfl⟩ := Nat.exists_eq_succ_of_ne_zero (Nat.ne_of_gt (lt_of_lt_of_le (Nat.succ_pos _) hfuel))
    obtain ⟨hd, hlen⟩ := forall_mem_cons.mp hlen
    obtain ⟨hdne, hne⟩ := forall_mem_cons.mp hne
    rw [flatMap_cons, append_assoc] at hs
    obtain ⟨s₁, hsize, hs₁⟩ := Stream.readFull_append hs
    obtain ⟨s₂, hdata, hs₂⟩ := Stream.readFull_append hs₁
    rw [length_putUint16] at hsize
    have hget : get (putUint16 d.length) = d.length := get_putUint16 (Nat.lt_succ_of_le hd)
    rw [pumpUDPStreamReplies, hsize]
    simp only [hget]
    rw [if_neg (Nat.ne_of_gt (length_pos_of_ne_nil hdne)), hdata]
    simp only [ih hs₂ hne hlen (Nat.lt_of_succ_lt_succ hfuel)]
    rfl

theorem flatMap_sendUDPReply (limit : Nat) (hdr : Bytes) (datagrams : List Bytes) :
    datagrams.flatMap (sendUDPReply limit hdr) =
      (datagrams.filter fun d => (hdr ++ d).length ≤ limit).map (hdr ++ ·) := by
  induction datagrams with
  | nil => rfl
  | cons d datagrams ih =>
    rw [flatMap_cons, ih, sendUDPReply]
    by_cases hd : (hdr ++ d).length ≤ limit
    · rw [if_pos hd, filter_cons_of_pos (by simpa using hd)]
      rfl
    · rw [if_neg hd, filter_cons_of_neg (by simpa using hd)]
      rfl

theorem length_le_bytes {frame : Bytes → Bytes} (h : ∀ p, frame p ≠ []) :
    payloads.length ≤ (payloads.flatMap frame).length := by
  induction payloads with
  | nil => exact Nat.zero_le _
  | cons p payloads ih =>
    have := length_pos_of_ne_nil (h p)
    rw [flatMap_cons, length_append, length_cons]
    omega

/-- With payloads of at most 65507 bytes, all of them arrive and nothing else does exactly if none is empty
    and no payload of the target is too long for a reply. -/
theorem udp_over_stream_iff (host : Bytes) (port : UInt16) (limit : Nat) (ups downs : List Bytes) (up down : Stream)
    (hups : ∀ p ∈ ups, p.length ≤ 65507) (hdowns : ∀ p ∈ downs, p.length ≤ 65507)
    (hup : up.bytes = ups.flatMap sendStream)
    (hdown : down.bytes = relayDown downs) :
    ((relayUp (up.bytes.length + 1) up).map Prod.fst = some ups ∧
        pumpUDPStreamReplies limit (replyHeader host port) (down.bytes.length + 1) down =
          some (downs.map (replyHeader host port ++ ·))) ↔
      (∀ p ∈ ups, p ≠ []) ∧ ∀ p ∈ downs, p ≠ [] ∧ (replyHeader host port ++ p).length ≤ limit := by
  have hups' : ∀ p ∈ ups, p.length ≤ udpCopyBufData := fun p hp => le_trans (hups p hp) (by decide)
  have hdowns' : ∀ p ∈ downs, p.length ≤ udpCopyBufData := fun p hp => le_trans (hdowns p hp) (by decide)
  generalize replyHeader host port = hdr
  obtain ⟨e', hrelay⟩ : ∃ e', relayUp (up.bytes.length + 1) up = some (ups.takeWhile (· ≠ []), e') := by
    refine relayUp_frames ⟨hup, rfl⟩ hups' (Nat.lt_succ_of_le ?_)
    rw [hup]
    exact length_le_bytes fun p => cons_ne_nil _ _
  have hpump : pumpUDPStreamReplies limit hdr (down.bytes.length + 1) down =
      some ((downs.filter fun p => p ≠ [] ∧ (hdr ++ p).length ≤ limit).map (hdr ++ ·)) := by
    rw [relayDown_eq hdowns'] at hdown
    have hfuel : (downs.filter (· ≠ [])).length < down.bytes.length + 1 := by
      rw [hdown]
      exact Nat.lt_succ_of_le (length_le_bytes fun p => append_ne_nil_of_left_ne_nil (by simp [putUint16, put]) _)
    rw [pump_frames ⟨hdown, rfl⟩ (fun p hp => by simpa using (mem_filter.mp hp).2)
      (fun p hp => hdowns' p (mem_filter.mp hp).1) hfuel, flatMap_sendUDPReply, filter_filter]
    simp [and_comm]
  rw [hrelay, hpump, Option.map_some, Option.some.injEq, Option.some.injEq]
  refine and_congr ?_ ?_
  · rw [takeWhile_eq_self_iff]
    simp
  · constructor
    · intro heq
      have hlen := congrArg List.length heq
      rw [length_map, length_map, length_filter_eq_length_iff] at hlen
      simpa using hlen
    · intro hall
      rw [filter_eq_self.mpr (by simpa using hall)]

def byteByByte (bytes : Bytes) : Stream := { bytes, sizes := fun _ => 0, fin := .eof, together := false }

theorem udp_over_stream_both_ways :
    (relayUp 8 (byteByByte ([[1], [2, 3]].flatMap sendStream))).map Prod.fst = some [[1], [2, 3]] ∧
      pumpUDPStreamReplies 65507 (replyHeader [49, 46, 49, 46, 49, 46, 49] 53) 8
        (byteByByte (relayDown [[4, 5], [6]])) =
        some ([[4, 5], [6]].map (replyHeader [49, 46, 49, 46, 49, 46, 49] 53 ++ ·)) :=
  (udp_over_stream_iff [49, 46, 49, 46, 49, 46, 49] 53 65507 [[1], [2, 3]] [[4, 5], [6]]
   (byteByByte ([[1], [2, 3]].flatMap sendStream))
    (byteByByte (relayDown [[4, 5], [6]])) (by decide) (by decide) rfl rfl).mpr (by decide)

/-- The server ends the relay at the client's empty payload, and the payload after it is lost. -/
theorem empty_payload_ends_relay :
    relayUp 6 (byteByByte ([[], [1]].flatMap sendStream)) = some ([], .text "invalid UDP frame size 0") ∧
      relayDown [[], [1]] = relayDown [[1]] := by
  decide

end Whispera
