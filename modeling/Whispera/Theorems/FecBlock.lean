import Whispera.Theorems.FecReceiver

/-! A block that starts where the receiver says comes back from any ten of its packets. One that starts
elsewhere is torn apart. -/

namespace Whispera
open List BigEndian ErasureCode

theorem sendBlock_cons (rs : ReedSolomon) (s : FecSender) (p : Bytes) (now : Int) (sends : List (Bytes × Int)) :
    sendBlock rs s ((p, now) :: sends) = (s.place rs p now).1 ++ sendBlock rs (s.place rs p now).2 sends := rfl

theorem sendBlock_eq (rs : ReedSolomon) {b : Nat} : ∀ (sends : List (Bytes × Int)) {s : FecSender}
    {cur : List Bytes}, s.Sending b cur → cur.length < fecK → 0 < (cur ++ sends.map Prod.fst).length →
    (cur ++ sends.map Prod.fst).length ≤ fecK →
    packetsFrom b 0 (cur.map rsShard) ++ sendBlock rs s sends =
      packetsFrom b 0 (sentShards rs (fillUp (cur ++ sends.map Prod.fst)))
  | [], s, cur, h, hcur, hpos, _ => by
    rw [map_nil, append_nil] at hpos ⊢
    exact (h.flushLocked rs hpos hcur).1
  | (p, now) :: sends, s, cur, h, hcur, _, hle => by
    rw [map_cons, append_cons] at hle ⊢
    rw [sendBlock_cons]
    by_cases hlen : (cur ++ [p]).length = fecK
    · -- the block is full, so nothing follows
      obtain ⟨hpackets, hdone, -⟩ := h.place_last rs p now hlen
      have hnil : sends = [] := by
        rw [length_append, hlen, length_map] at hle
        exact eq_nil_of_length_eq_zero (Nat.le_zero.mp (Nat.le_of_add_le_add_left hle))
      subst hnil
      have hflush : ((s.place rs p now).2.flushLocked rs).1 = [] := by
        unfold FecSender.flushLocked
        rw [hdone.cnt]
        rfl
      rw [sendBlock, hflush, append_nil, hpackets, map_nil, append_nil, fillUp, hlen]
      simp
    · obtain ⟨hpacket, hnext, -⟩ := h.place_next rs p now hlen
      have hlt : (cur ++ [p]).length < fecK := by
        refine Nat.lt_of_le_of_ne ?_ hlen
        rw [length_append]
        exact hcur
      have ih := sendBlock_eq rs sends hnext hlt (by simp) hle
      rw [map_append, packetsFrom_append, length_map, zero_add, append_assoc] at ih
      rw [hpacket]
      exact ih

def FecReceiver.Clear (b : Nat) (r : FecReceiver) : Prop :=
  ∀ i < fecK + fecM, r.received.lookup (seqAt b i) = none ∧ r.dec.packetBuffer.lookup (seqAt b i) = none

section Arrivals

variable {rs : ReedSolomon} {block : List Bytes} {b : Nat}

theorem FecReceiver.lookup_ingestAll (hb : AlignedStart b) (hblock : block.length = fecK)
    (hp : ∀ p ∈ block, p.length ≤ datagramMaxProtected) {packets : List Bytes}
    (hpackets : packets = packetsFrom b 0 (sentShards rs block)) :
    ∀ (arrivals : List (Nat × Int)), (∀ a ∈ arrivals, a.1 < fecK + fecM) → ∀ r : FecReceiver,
      (∀ i < fecK, (r.ingestAll (arrivals.map fun a => (packets[a.1]?.getD [], a.2))).received.lookup (seqAt b i) =
        if i ∈ arrivals.map Prod.fst then block[i]? else r.received.lookup (seqAt b i)) ∧
      ∀ i < fecK + fecM,
        (r.ingestAll (arrivals.map fun a => (packets[a.1]?.getD [], a.2))).dec.packetBuffer.lookup (seqAt b i) =
          if i ∈ arrivals.map Prod.fst then (sentShards rs block)[i]? else r.dec.packetBuffer.lookup (seqAt b i)
  | [], _, r => by simp [ingestAll]
  | (j, now) :: arrivals, hlt, r => by
    obtain ⟨hj, hlt⟩ := forall_mem_cons.mp hlt
    obtain ⟨s, hs⟩ : ∃ s, (sentShards rs block)[j]? = some s :=
      ⟨_, getElem?_eq_getElem (by rwa [length_sentShards rs hblock])⟩
    have hpacket : packets[j]?.getD [] = fecHeader (seqAt b j) ++ s := by
      rw [hpackets, packetsFrom, getElem?_mapIdx, hs, zero_add]
      rfl
    have hall : r.ingestAll (((j, now) :: arrivals).map fun a => (packets[a.1]?.getD [], a.2)) =
        (r.ingest (fecHeader (seqAt b j) ++ s) now).ingestAll (arrivals.map fun a => (packets[a.1]?.getD [], a.2)) := by
      rw [← hpacket]
      rfl
    obtain ⟨hreceived, hbuffer⟩ := lookup_ingestAll hb hblock hp hpackets arrivals hlt
      (r.ingest (fecHeader (seqAt b j) ++ s) now)
    rw [hall]
    refine ⟨fun i hi => ?_, fun i hi => ?_⟩
    · rw [hreceived i hi, ingest, received_ingestShard, lookup_ingestPayload hb hblock hp hj hs]
      simp only [seqAt_eq_iff (Nat.lt_add_right _ hi) hj, map_cons, mem_cons]
      by_cases hij : i = j
      · subst hij
        simp [hi]
      · rw [if_congr (or_iff_right hij) rfl rfl, if_neg (fun h => hij h.1 : ¬(i = j ∧ j < fecK))]
    · rw [hbuffer i hi, ingest, lookup_ingestShard hblock hs, dec_ingestPayload]
      simp only [seqAt_eq_iff hi hj, map_cons, mem_cons]
      by_cases hij : i = j
      · subst hij
        simp [hs]
      · rw [if_neg hij, if_congr (or_iff_right hij) rfl rfl]

end Arrivals
/-- Every block that starts at `b` is delivered as it was sent, from any ten of its packets. -/
def RecoversBlock (b : Nat) : Prop :=
  ∀ (rs : ReedSolomon) (sends : List (Bytes × Int)) (r : FecReceiver) (arrivals : List (Nat × Int)),
    0 < sends.length → sends.length ≤ fecK → (∀ x ∈ sends, x.1 ≠ [] ∧ x.1.length ≤ datagramMaxProtected) →
    rs.Recovers (codeData (fillUp (sends.map Prod.fst))) → r.Clear b →
    (arrivals.map Prod.fst).Nodup → (∀ a ∈ arrivals, a.1 < fecK + fecM) → fecK ≤ arrivals.length →
    ∀ a ∈ arrivals,
      ((r.ingestAll (arrivals.map fun x =>
       ((sendBlock rs { blockStart := b } sends)[x.1]?.getD [], x.2))).deliverBlock rs
        (blockStartOf (seqAt b a.1))).1 = sends.map Prod.fst

theorem filter_fillUp {payloads : List Bytes} (h : ∀ p ∈ payloads, p ≠ []) :
    (fillUp payloads).filter (fun p => p ≠ []) = payloads := by
  rw [fillUp, filter_append, filter_eq_self.mpr (by simpa using h), filter_replicate]
  simp

theorem sendBlock_start (rs : ReedSolomon) (b : Nat) {sends : List (Bytes × Int)} (hpos : 0 < sends.length)
    (hle : sends.length ≤ fecK) :
    sendBlock rs { blockStart := b } sends = packetsFrom b 0 (sentShards rs (fillUp (sends.map Prod.fst))) := by
  have hstart : ({ blockStart := b } : FecSender).Sending b [] := ⟨rfl, rfl, rfl, rfl⟩
  refine sendBlock_eq rs sends hstart (by decide) ?_ ?_
  · simpa using hpos
  · simpa using hle

theorem recoversBlock_of_aligned {b : Nat} (hb : AlignedStart b) : RecoversBlock b := by
  intro rs sends r arrivals hpos hle hsends hrec hclear hnodup hlt hcount a ha
  have hblock : (fillUp (sends.map Prod.fst)).length = fecK := length_fillUp (by simpa using hle)
  have hp : ∀ p ∈ fillUp (sends.map Prod.fst), p.length ≤ datagramMaxProtected := by
    refine short_fillUp fun p hp => ?_
    obtain ⟨x, hx, rfl⟩ := mem_map.mp hp
    exact (hsends x hx).2
  obtain ⟨hreceived, hbuffer⟩ :=
    FecReceiver.lookup_ingestAll hb hblock hp (sendBlock_start rs b hpos hle) arrivals hlt r
  rw [hb.blockStartOf (hlt a ha), FecReceiver.deliverBlock_of_agree hblock hp hrec]
  · refine filter_fillUp fun p hp => ?_
    obtain ⟨x, hx, rfl⟩ := mem_map.mp hp
    exact (hsends x hx).1
  · intro i hi s hs
    rw [hbuffer i hi, (hclear i hi).2] at hs
    split at hs
    · exact hs
    · cases hs
  · intro i hi p hp
    rw [hreceived i hi, (hclear i (Nat.lt_add_right _ hi)).1] at hp
    split at hp
    · exact hp
    · cases hp
  · intro i hi
    have hlt : i < fecK + fecM := Nat.lt_add_right _ hi
    rw [hreceived i hi, hbuffer i hlt, (hclear i hlt).1, (hclear i hlt).2, sentShards_data hblock hi]
    split
    · exact Option.map_eq_none_iff.symm
    · exact Iff.rfl
  · refine le_trans hcount ?_
    rw [FECDecoder.present, countP_map, countP_eq_length_filter, ← length_map (f := Prod.fst)]
    refine (subperm_of_subset hnodup fun i hi => ?_).length_le
    obtain ⟨x, hx, rfl⟩ := mem_map.mp hi
    refine mem_filter.mpr ⟨mem_range.mpr (hlt x hx), ?_⟩
    rw [Function.comp_apply, hbuffer x.1 (hlt x hx), if_pos hi, getElem?_eq_getElem]
    · rfl
    · rw [length_sentShards rs hblock]
      exact hlt x hx

variable {r : FecReceiver} {packet : Bytes} {q : Nat}

theorem FecReceiver.received_ingest {now : Int}
    (h : ((r.ingest packet now).received.lookup q).isSome) : (r.received.lookup q).isSome ∨ seqOf packet = q := by
  unfold FecReceiver.ingest at h
  rw [received_ingestShard] at h
  unfold FecReceiver.ingestPayload at h
  split at h
  · exact .inl h
  · simp only at h
    split at h
    · rw [lookup_insert_if] at h
      split at h
      · rename_i heq
        exact .inr heq.symm
      · exact .inl h
    · exact .inl h

theorem FecReceiver.packetBuffer_ingest {now : Int} (h : ((r.ingest packet now).dec.packetBuffer.lookup q).isSome) :
    (r.dec.packetBuffer.lookup q).isSome ∨ seqOf packet = q := by
  unfold FecReceiver.ingest FecReceiver.ingestShard FECDecoder.decodeFEC at h
  split at h
  · rw [dec_ingestPayload] at h
    exact .inl h
  · simp only [dec_ingestPayload] at h
    split at h
    · exact .inl h
    · rw [lookup_insert_if] at h
      split at h
      · rename_i heq
        exact .inr heq.symm
      · exact .inl h

theorem FecReceiver.lookup_of_none : ∀ {packets : List (Bytes × Int)} {r : FecReceiver},
    (∀ e ∈ packets, seqOf e.1 ≠ q) → r.received.lookup q = none → r.dec.packetBuffer.lookup q = none →
    (r.ingestAll packets).received.lookup q = none ∧ (r.ingestAll packets).dec.packetBuffer.lookup q = none
  | [], _, _, hreceived, hbuffer => ⟨hreceived, hbuffer⟩
  | e :: packets, r, h, hreceived, hbuffer => by
    obtain ⟨he, h⟩ := forall_mem_cons.mp h
    refine lookup_of_none (r := r.ingest e.1 e.2) h ?_ ?_
    · rw [← Option.not_isSome_iff_eq_none] at hreceived ⊢
      exact fun hsome => (received_ingest hsome).elim hreceived he
    · rw [← Option.not_isSome_iff_eq_none] at hbuffer ⊢
      exact fun hsome => (packetBuffer_ingest hsome).elim hbuffer he

theorem FecReceiver.deliverBlock_few {rs : ReedSolomon} {c : Nat}
    (hmissing : r.received.lookup (seqAt c 0) = none) (hfew : (r.dec.present c).countP Option.isSome < fecK) :
    (r.deliverBlock rs c).1.length < fecK := by
  have hfill : r.fill c (r.dec.reconstruct rs c) = r := by
    rw [FECDecoder.reconstruct_few hfew, FecReceiver.fill, fillLoop_nil]
  unfold FecReceiver.deliverBlock
  simp only [hfill, ite_self]
  rw [length_map, FecReceiver.payloads, show fecK = 9 + 1 from rfl, range_succ_eq_map,
    filterMap_cons_none (by rw [hmissing])]
  refine Nat.lt_succ_of_le (le_trans (length_filterMap_le _ _) ?_)
  rw [length_map, length_range]

def firstAndLast : List Nat := [0, 5, 6, 7, 8, 9, 10, 11, 12, 13]

def sampleSends : List (Bytes × Int) := replicate 10 ([7], 0)

theorem recovers_sampleSends : sampleCode.Recovers (codeData (fillUp (sampleSends.map Prod.fst))) := by
  have hdata : codeData (fillUp (sampleSends.map Prod.fst)) = replicate 10 [0, 1, 7] := by decide
  exact recovers_ofWord rfl (by decide)

theorem seqOf_packetsFrom {b j : Nat} {shards : List Bytes} (h : j < shards.length) :
    seqOf ((packetsFrom b 0 shards)[j]?.getD []) = seqAt b j := by
  rw [packetsFrom, getElem?_mapIdx, getElem?_eq_getElem h, zero_add]
  exact seqOf_packet b j _

def sampleReceiver (b : Nat) : FecReceiver :=
  FecReceiver.ingestAll {} (firstAndLast.map fun j =>
    ((sendBlock sampleCode { blockStart := b } sampleSends)[j]?.getD [], 0))

theorem lookup_sampleReceiver {b q : Nat} (h : ∀ j ∈ firstAndLast, seqAt b j ≠ q) :
    (sampleReceiver b).received.lookup q = none ∧ (sampleReceiver b).dec.packetBuffer.lookup q = none := by
  unfold sampleReceiver
  refine FecReceiver.lookup_of_none (fun e he => ?_) (AList.lookup_empty q) (AList.lookup_empty q)
  obtain ⟨j, hj, rfl⟩ := mem_map.mp he
  have hlt : ∀ j ∈ firstAndLast, j < fecK + fecM := by decide
  rw [sendBlock_start sampleCode b (by decide) (by decide), seqOf_packetsFrom]
  · exact h j hj
  · rw [length_sentShards _ (by decide)]
    exact hlt j hj

theorem not_recoversBlock {b a : Nat} (ha : a ∈ firstAndLast)
    (hfirst : ∀ j ∈ firstAndLast, seqAt b j ≠ seqAt (blockStartOf (seqAt b a)) 0)
    (hfew : (range (fecK + fecM)).countP
      (fun i => ∃ j ∈ firstAndLast, seqAt b j = seqAt (blockStartOf (seqAt b a)) i) < fecK) : ¬RecoversBlock b := by
  intro h
  have hdelivered := h sampleCode sampleSends {} (firstAndLast.map fun j => (j, 0)) (by decide) (by decide) (by decide)
    recovers_sampleSends (fun i _ => ⟨rfl, rfl⟩) (by decide) (by decide) (by decide) (a, 0) (mem_map_of_mem ha)
  have hlen : ((sampleReceiver b).deliverBlock sampleCode (blockStartOf (seqAt b a))).1.length = fecK :=
    congrArg length hdelivered
  refine absurd hlen (ne_of_lt ?_)
  refine FecReceiver.deliverBlock_few (lookup_sampleReceiver hfirst).1 (lt_of_le_of_lt ?_ hfew)
  rw [FECDecoder.present, countP_map]
  refine countP_mono_left fun i _ hi => ?_
  rw [decide_eq_true_eq]
  by_contra hno
  have hnone := (lookup_sampleReceiver (q := seqAt (blockStartOf (seqAt b a)) i) fun j hj heq => hno ⟨j, hj, heq⟩).2
  rw [Function.comp_apply, hnone] at hi
  cases hi

theorem not_recoversBlock_of_mod {b : Nat} (hb : b < seqLimit) (hmod : b % (fecK + fecM) ≠ 0) : ¬RecoversBlock b := by
  have hstart : blockStartOf (seqAt b 0) + b % (fecK + fecM) = b := by
    rw [seqAt, add_zero, Nat.mod_eq_of_lt hb, blockStartOf, mul_comm]
    exact Nat.div_add_mod b _
  have hlt : b % (fecK + fecM) < fecK + fecM := Nat.mod_lt b (by decide)
  have hseq : ∀ j ∈ firstAndLast, ∀ i < fecK + fecM, seqAt b j = seqAt (blockStartOf (seqAt b 0)) i →
      b % (fecK + fecM) + j = i := by
    intro j hj i hi heq
    have hbound : ∀ j ∈ firstAndLast, j < fecK + fecM := by decide
    have hshift : seqAt b j = seqAt (blockStartOf (seqAt b 0)) (b % (fecK + fecM) + j) := by
      rw [seqAt, seqAt, ← add_assoc, hstart]
    rw [hshift] at heq
    refine seqAt_inj ?_ (lt_seqLimit hi) heq
    exact lt_trans (Nat.add_lt_add hlt (hbound j hj)) (by decide)
  refine not_recoversBlock (a := 0) (by decide) (fun j hj heq => ?_) ?_
  · exact hmod (Nat.eq_zero_of_add_eq_zero_right (hseq j hj 0 (by decide) heq))
  · have hfew : ∀ d < fecK + fecM, d ≠ 0 →
        (range (fecK + fecM)).countP (fun i => ∃ j ∈ firstAndLast, d + j = i) < fecK := by decide
    refine lt_of_le_of_lt (countP_mono_left fun i hi hex => ?_) (hfew _ hlt hmod)
    rw [decide_eq_true_eq] at hex ⊢
    obtain ⟨j, hj, heq⟩ := hex
    exact ⟨j, hj, hseq j hj i (mem_range.mp hi) heq⟩

theorem not_recoversBlock_at_wrap {b : Nat} (hb : b < seqLimit) (hmod : b % (fecK + fecM) = 0)
    (hwrap : seqLimit < b + (fecK + fecM)) : ¬RecoversBlock b := by
  have hlast : b = 4294967292 := by
    simp only [fecK, fecM, seqLimit] at hb hmod hwrap
    omega
  subst hlast
  exact not_recoversBlock (a := 5) (by decide) (by decide) (by decide)

/-- Blocks come back just if the receiver computes their start and they do not wrap around. -/
theorem recoversBlock_iff (b : UInt32) :
    RecoversBlock b.toNat ↔ b.toNat % (fecK + fecM) = 0 ∧ b.toNat + (fecK + fecM) ≤ seqLimit := by
  refine ⟨fun h => ?_, fun ⟨hmod, hle⟩ => recoversBlock_of_aligned ⟨hmod, hle⟩⟩
  have hb : b.toNat < seqLimit := b.toNat_lt
  have hmod : b.toNat % (fecK + fecM) = 0 := by
    by_contra hne
    exact not_recoversBlock_of_mod hb hne h
  exact ⟨hmod, Nat.le_of_not_lt fun hwrap => not_recoversBlock_at_wrap hb hmod hwrap h⟩

/-- Ten packets of a block that wraps around have come, and nine payloads are delivered. -/
theorem wrapped_block_is_torn : blockStartOf (seqAt 4294967292 5) = 0 ∧
      ((sampleReceiver 4294967292).deliverBlock sampleCode 0).1 = replicate 9 [7] := by
  decide +kernel

end Whispera
