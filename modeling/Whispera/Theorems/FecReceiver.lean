import Mathlib.Data.Nat.ModEq
import Whispera.Theorems.FecSender

/-! A recovered payload goes to the right position as long as payloads and shards agree on what is missing. -/

namespace Whispera
open List hiding get
open BigEndian ErasureCode

theorem lookup_insert_if {β : Type} (m : AList fun _ : Nat => β) (a q : Nat) (v : β) :
    (m.insert a v).lookup q = if q = a then some v else m.lookup q := by
  split
  · rename_i heq
    rw [heq, AList.lookup_insert]
  · rename_i hne
    rw [AList.lookup_insert_ne hne]

theorem lookup_foldl_erase {β : Type} (f : Nat → Nat) (q : Nat) : ∀ (is : List Nat) (m : AList fun _ : Nat => β),
    (is.foldl (fun m i => m.erase (f i)) m).lookup q = if q ∈ is.map f then none else m.lookup q
  | [], m => by simp
  | i :: is, m => by
    rw [foldl_cons, lookup_foldl_erase f q is, map_cons]
    by_cases hq : q = f i
    · subst hq
      simp [AList.lookup_erase]
    · simp [hq, AList.lookup_erase_ne hq]

theorem shardSize_le {n : Nat} : ∀ {shards : List Bytes}, shardSize shards ≤ n ↔ ∀ s ∈ shards, s.length ≤ n := by
  have hfold : ∀ (shards : List Bytes) (m : Nat),
      shards.foldl (fun n s => max n s.length) m ≤ n ↔ m ≤ n ∧ ∀ s ∈ shards, s.length ≤ n := by
    intro shards
    induction shards with
    | nil => simp
    | cons s shards ih =>
      intro m
      rw [foldl_cons, ih, Nat.max_le, forall_mem_cons, and_assoc]
  intro shards
  rw [shardSize, hfold]
  exact and_iff_right (Nat.zero_le n)

variable {s : Bytes}

theorem length_le_shardSize {shards : List Bytes} (h : s ∈ shards) : s.length ≤ shardSize shards :=
  shardSize_le.mp (le_rfl) s h

theorem maxLen_eq (shards : List (Option Bytes)) :
    FECDecoder.maxLen shards = shardSize (shards.map fun s => s.getD []) := by
  rw [FECDecoder.maxLen, shardSize, foldl_map]

section Block

variable {rs : ReedSolomon} {block : List Bytes}

section
variable (hblock : block.length = fecK)
include hblock

theorem length_parity_shard (h : s ∈ rs.parity (codeData block)) : s.length = shardSize (block.map rsShard) := by
  refine rs.length_shard (codeData block) _ ?_ ?_ s h
  · exact ne_nil_of_length_pos (by simp [codeData, hblock, fecK])
  · intro d hd
    obtain ⟨x, hx, rfl⟩ := mem_map.mp hd
    exact length_pad (length_le_shardSize hx)

theorem length_sent_le (h : s ∈ sentShards rs block) : s.length ≤ shardSize (block.map rsShard) := by
  rcases mem_append.mp h with h | h
  · exact length_le_shardSize h
  · exact le_of_eq (length_parity_shard hblock h)

theorem word_codeData : rs.word (codeData block) = (sentShards rs block).map (pad (shardSize (block.map rsShard))) := by
  have hparity : (rs.parity (codeData block)).map (pad (shardSize (block.map rsShard))) =
      rs.parity (codeData block) := by
    refine (map_congr_left fun s hs => ?_).trans (map_id _)
    exact pad_of_length_le (le_of_eq (length_parity_shard hblock hs).symm)
  rw [sentShards, map_append, hparity]
  rfl

end

theorem shardPayload_pad {n : Nat} {p : Bytes} (hp : p.length ≤ datagramMaxProtected) :
    shardPayload (pad n (rsShard p)) = some p := by
  have hget : get (((pad n (rsShard p))).take 2) = p.length := by
    exact get_putUint16 (lt_of_le_of_lt hp (by decide))
  have hlen : p.length + 2 ≤ (pad n (rsShard p)).length := by
    rw [pad, rsShard, length_append, length_append, length_putUint16]
    omega
  have hdrop : (pad n (rsShard p)).drop 2 = p ++ replicate (n - (rsShard p).length) 0 := by
    rw [pad, rsShard, append_assoc, drop_left' (length_putUint16 _)]
  unfold shardPayload
  rw [if_neg (by omega)]
  simp only [hget, hdrop]
  rw [if_neg (by omega), take_left' rfl]

def FECDecoder.ShardsOf (rs : ReedSolomon) (block : List Bytes) (b : Nat) (fd : FECDecoder) : Prop :=
  ∀ i < fecK + fecM, ∀ s, fd.packetBuffer.lookup (seqAt b i) = some s → (sentShards rs block)[i]? = some s

variable {b : Nat} {fd : FECDecoder}

theorem FECDecoder.length_present (fd : FECDecoder) (b : Nat) : (fd.present b).length = fecK + fecM := by
  rw [present, length_map, length_range]

theorem FECDecoder.ShardsOf.part (hblock : block.length = fecK) (h : fd.ShardsOf rs block b) :
    PartOf (sentShards rs block) (fd.present b) := by
  refine List.forall₂_iff_get.mpr ⟨?_, fun i hi hi' => ?_⟩
  · rw [length_sentShards rs hblock, fd.length_present]
  · have hlt : i < fecK + fecM := length_sentShards rs hblock ▸ hi
    have hget : (fd.present b).get ⟨i, hi'⟩ = fd.packetBuffer.lookup (seqAt b i) := by
      have hpresent : (fd.present b)[i]? = some (fd.packetBuffer.lookup (seqAt b i)) := by
        rw [present, getElem?_map, getElem?_range hlt]
        rfl
      rw [getElem?_eq_getElem hi'] at hpresent
      exact Option.some.inj hpresent
    rw [hget, get_eq_getElem]
    cases hlookup : fd.packetBuffer.lookup (seqAt b i) with
    | none => exact Or.inl rfl
    | some s =>
      have := h i hlt s hlookup
      rw [getElem?_eq_getElem hi] at this
      exact Or.inr this.symm

variable {i : Nat} {shard : Bytes}

theorem FECDecoder.ShardsOf.mem_sent (h : fd.ShardsOf rs block b) (hi : i < fecK + fecM)
    (hs : fd.packetBuffer.lookup (seqAt b i) = some s) : s ∈ sentShards rs block :=
  mem_of_getElem? (h i hi s hs)

theorem FECDecoder.mem_present :
    some s ∈ fd.present b ↔ ∃ i < fecK + fecM, fd.packetBuffer.lookup (seqAt b i) = some s := by
  simp only [present, mem_map, mem_range]

theorem FECDecoder.parity_or_data (h : fecK ≤ (fd.present b).countP Option.isSome) :
    (∃ i, fecK ≤ i ∧ i < fecK + fecM ∧ (fd.packetBuffer.lookup (seqAt b i)).isSome) ∨
      ∀ i < fecK, (fd.packetBuffer.lookup (seqAt b i)).isSome := by
  by_contra hno
  rw [not_or] at hno
  obtain ⟨hparity, hdata⟩ := hno
  have hsplit : range (fecK + fecM) = range fecK ++ (range fecM).map (fecK + ·) := range_add
  have hzero : ((range fecM).map (fecK + ·)).countP (fun i => (fd.packetBuffer.lookup (seqAt b i)).isSome) = 0 := by
    refine countP_eq_zero.mpr fun i hi hsome => hparity ?_
    obtain ⟨j, hj, rfl⟩ := mem_map.mp hi
    exact ⟨fecK + j, Nat.le_add_right _ _, Nat.add_lt_add_left (mem_range.mp hj) _, hsome⟩
  have hall : (range fecK).countP (fun i => (fd.packetBuffer.lookup (seqAt b i)).isSome) = (range fecK).length := by
    refine le_antisymm countP_le_length ?_
    rw [present, countP_map, hsplit, countP_append] at h
    exact le_trans h (le_of_eq (congrArg _ hzero))
  exact hdata fun i hi => countP_eq_length.mp hall i (mem_range.mpr hi)

theorem FECDecoder.ShardsOf.maxLen (hblock : block.length = fecK) (h : fd.ShardsOf rs block b)
    (hcount : fecK ≤ (fd.present b).countP Option.isSome) :
    FECDecoder.maxLen (fd.present b) = shardSize (block.map rsShard) := by
  have hle : ∀ {i}, i < fecK + fecM → ∀ {s}, fd.packetBuffer.lookup (seqAt b i) = some s →
      s.length ≤ FECDecoder.maxLen (fd.present b) := by
    intro i hi s hs
    rw [maxLen_eq]
    exact length_le_shardSize (mem_map.mpr ⟨some s, mem_present.mpr ⟨i, hi, hs⟩, rfl⟩)
  refine le_antisymm ?_ ?_
  · rw [maxLen_eq, shardSize_le]
    intro s hs
    obtain ⟨x, hx, rfl⟩ := mem_map.mp hs
    cases x with
    | none => exact Nat.zero_le _
    | some s =>
      obtain ⟨i, hi, hs⟩ := mem_present.mp hx
      exact length_sent_le hblock (h.mem_sent hi hs)
  · rcases parity_or_data hcount with ⟨i, hfrom, hi, hsome⟩ | hdata
    · obtain ⟨s, hs⟩ := Option.isSome_iff_exists.mp hsome
      have hmem : s ∈ rs.parity (codeData block) := by
        have hsent := h i hi s hs
        rw [sentShards, getElem?_append_right (by rwa [length_map, hblock])] at hsent
        exact mem_of_getElem? hsent
      exact length_parity_shard hblock hmem ▸ hle hi hs
    · refine shardSize_le.mpr fun s hs => ?_
      obtain ⟨i, hi, rfl⟩ := getElem_of_mem hs
      have hlt : i < fecK := by rwa [length_map, hblock] at hi
      obtain ⟨x, hx⟩ := Option.isSome_iff_exists.mp (hdata i hlt)
      have hsent := h i (Nat.lt_add_right _ hlt) x hx
      rw [sentShards, getElem?_append_left hi, getElem?_eq_getElem hi] at hsent
      exact Option.some.inj hsent ▸ hle (Nat.lt_add_right _ hlt) hx

def missingPayloads (block : List Bytes) (b : Nat) (m : AList fun _ : Nat => Bytes) (is : List Nat) :
    List Bytes :=
  is.filterMap fun i => if m.lookup (seqAt b i) = none then block[i]? else none

theorem FECDecoder.ShardsOf.reconstruct (hblock : block.length = fecK)
    (hp : ∀ p ∈ block, p.length ≤ datagramMaxProtected)
    (hrec : rs.Recovers (codeData block)) (h : fd.ShardsOf rs block b)
    (hcount : fecK ≤ (fd.present b).countP Option.isSome) :
    fd.reconstruct rs b = missingPayloads block b fd.packetBuffer (range fecK) := by
  have hpart := PartOf.map (pad (shardSize (block.map rsShard))) (h.part hblock)
  rw [← word_codeData hblock] at hpart
  have hpresent : fecK ≤
      ((fd.present b).map (Option.map (pad (shardSize (block.map rsShard))))).countP Option.isSome := by
    simpa [Function.comp_def] using hcount
  have hword := hrec _ hpart hpresent
  unfold FECDecoder.reconstruct
  simp only [h.maxLen hblock hcount, hword, word_codeData hblock]
  rw [if_neg (not_lt.mpr hcount)]
  refine filterMap_congr fun i hi => ?_
  have hi : i < block.length := by rw [hblock]; exact mem_range.mp hi
  split
  · rw [sentShards, getElem?_map, getElem?_append_left (by simpa using hi), getElem?_map,
      getElem?_eq_getElem hi]
    exact shardPayload_pad (hp _ (getElem_mem hi))
  · rfl

theorem FECDecoder.reconstruct_few (h : (fd.present b).countP Option.isSome < fecK) : fd.reconstruct rs b = [] := by
  exact if_pos h

theorem seqAt_inj {j : Nat} (hi : i < seqLimit) (hj : j < seqLimit) (h : seqAt b i = seqAt b j) : i = j := by
  have hmod : Nat.ModEq seqLimit i j := Nat.ModEq.add_left_cancel' b h
  rw [Nat.ModEq, Nat.mod_eq_of_lt hi, Nat.mod_eq_of_lt hj] at hmod
  exact hmod

theorem lt_seqLimit (h : i < fecK + fecM) : i < seqLimit := lt_trans h (by decide)

theorem seqAt_eq_iff {j : Nat} (hi : i < fecK + fecM) (hj : j < fecK + fecM) : seqAt b i = seqAt b j ↔ i = j :=
  ⟨seqAt_inj (lt_seqLimit hi) (lt_seqLimit hj), fun h => h ▸ rfl⟩

def FecReceiver.PayloadsOf (block : List Bytes) (b : Nat) (r : FecReceiver) : Prop :=
  ∀ i < fecK, ∀ p, r.received.lookup (seqAt b i) = some p → block[i]? = some p

theorem fillLoop_nil (b : Nat) : ∀ (is : List Nat) (m : AList fun _ : Nat => Bytes), FecReceiver.fillLoop b is m [] = m
  | [], _ => rfl
  | i :: is, m => by
    rw [FecReceiver.fillLoop]
    · exact fillLoop_nil b is m
    · intro p recovered _ h
      cases h

theorem lookup_fillLoop (b : Nat) :
    ∀ {is : List Nat}, is.Nodup → (∀ i ∈ is, i < fecK + fecM) → (∀ i ∈ is, i < block.length) →
    ∀ m : AList fun _ : Nat => Bytes,
      (∀ i ∈ is, (FecReceiver.fillLoop b is m (missingPayloads block b m is)).lookup (seqAt b i) =
        (m.lookup (seqAt b i)).or block[i]?) ∧
      ∀ q ∉ is.map (seqAt b), (FecReceiver.fillLoop b is m (missingPayloads block b m is)).lookup q = m.lookup q
  | [], _, _, _, m => ⟨by simp, fun q _ => rfl⟩
  | i :: is, hnodup, hlt, hlen, m => by
    obtain ⟨hi, hnodup⟩ := nodup_cons.mp hnodup
    have hother : ∀ j ∈ is, seqAt b j ≠ seqAt b i := by
      intro j hj heq
      have := seqAt_inj (lt_seqLimit (hlt j (mem_cons_of_mem _ hj))) (lt_seqLimit (hlt i mem_cons_self)) heq
      exact hi (this ▸ hj)
    obtain ⟨p, hget⟩ : ∃ p, block[i]? = some p := ⟨_, getElem?_eq_getElem (hlen i mem_cons_self)⟩
    have ih := lookup_fillLoop b hnodup (fun j hj => hlt j (mem_cons_of_mem _ hj))
      (fun j hj => hlen j (mem_cons_of_mem _ hj))
    cases hlookup : m.lookup (seqAt b i) with
    | some p =>
      have hmissing : missingPayloads block b m (i :: is) = missingPayloads block b m is := by
        simp [missingPayloads, hlookup]
      have hloop : ∀ recovered, FecReceiver.fillLoop b (i :: is) m recovered =
          FecReceiver.fillLoop b is m recovered := by
        intro recovered
        simp only [FecReceiver.fillLoop, hlookup]
      obtain ⟨hin, hout⟩ := ih m
      rw [hmissing, hloop]
      refine ⟨forall_mem_cons.mpr ⟨?_, hin⟩, fun q hq => hout q fun h => hq (mem_cons_of_mem _ h)⟩
      rw [hout _ fun h => ?_, hlookup]
      · rfl
      · obtain ⟨j, hj, heq⟩ := mem_map.mp h
        exact hother j hj heq
    | none =>
      have hmissing : missingPayloads block b m (i :: is) =
          p :: missingPayloads block b (m.insert (seqAt b i) p) is := by
        rw [missingPayloads, filterMap_cons_some (by rw [if_pos hlookup, hget])]
        refine congrArg _ (filterMap_congr fun j hj => ?_)
        rw [AList.lookup_insert_ne (hother j hj)]
      obtain ⟨hin, hout⟩ := ih (m.insert (seqAt b i) p)
      rw [hmissing]
      simp only [FecReceiver.fillLoop, hlookup]
      refine ⟨forall_mem_cons.mpr ⟨?_, fun j hj => ?_⟩, fun q hq => ?_⟩
      · rw [hout _ fun h => ?_, AList.lookup_insert, hlookup, hget]
        · rfl
        · obtain ⟨j, hj, heq⟩ := mem_map.mp h
          exact hother j hj heq
      · rw [hin j hj, AList.lookup_insert_ne (hother j hj)]
      · have hne : q ≠ seqAt b i := fun h => hq (h ▸ mem_cons_self)
        rw [hout q fun h => hq (mem_cons_of_mem _ h), AList.lookup_insert_ne hne]

theorem FecReceiver.PayloadsOf.lookup_fill {r : FecReceiver} (hblock : block.length = fecK) (h : r.PayloadsOf block b)
    (hi : i < fecK) :
    (r.fill b (missingPayloads block b r.received (range fecK))).received.lookup (seqAt b i) = block[i]? := by
  have hlt : ∀ j ∈ range fecK, j < fecK := fun j hj => mem_range.mp hj
  have hfill := lookup_fillLoop b nodup_range (fun j hj => Nat.lt_add_right _ (hlt j hj))
    (fun j hj => hblock ▸ hlt j hj) r.received
  rw [FecReceiver.fill, hfill.1 i (mem_range.mpr hi)]
  cases hlookup : r.received.lookup (seqAt b i) with
  | none => rfl
  | some p => exact (h i hi p hlookup).symm

theorem FecReceiver.lookup_fill_other {r : FecReceiver} {recovered : List Bytes} {q : Nat}
    (h : ∀ i < fecK, q ≠ seqAt b i) : (r.fill b recovered).received.lookup q = r.received.lookup q := by
  have hloop : ∀ (is : List Nat) (m : AList fun _ : Nat => Bytes) (recovered : List Bytes),
      (∀ i ∈ is, q ≠ seqAt b i) → (FecReceiver.fillLoop b is m recovered).lookup q = m.lookup q := by
    intro is
    induction is with
    | nil => exact fun m recovered _ => rfl
    | cons i is ih =>
      intro m recovered hq
      obtain ⟨hi, hq⟩ := forall_mem_cons.mp hq
      rw [FecReceiver.fillLoop.eq_def]
      simp only
      split
      · rw [ih _ _ hq, AList.lookup_insert_ne hi]
      · exact ih _ _ hq
  exact hloop _ _ _ fun i hi => h i (mem_range.mp hi)

theorem filterMap_range_sublist {α : Type} : ∀ {l : List α} {n : Nat} {g : Nat → Option α},
    (∀ i < n, ∀ x, g i = some x → l[i]? = some x) → ((range n).filterMap g).Sublist l
  | l, 0, _, _ => nil_sublist l
  | [], n + 1, g, h => by
    have hnone : (range (n + 1)).filterMap g = [] := by
      refine filterMap_eq_nil_iff.mpr fun i hi => Option.eq_none_iff_forall_ne_some.mpr fun x hx => ?_
      cases h i (mem_range.mp hi) x hx
    rw [hnone]
  | y :: l, n + 1, g, h => by
    have ih := filterMap_range_sublist fun i hi x hx => h (i + 1) (Nat.succ_lt_succ hi) x hx
    rw [range_succ_eq_map, filterMap_cons, filterMap_map]
    cases hg : g 0 with
    | none => exact ih.cons y
    | some x =>
      cases h 0 (Nat.succ_pos n) x hg
      exact ih.cons_cons y

theorem filterMap_range_getElem? {α β : Type} (f : α → Option β) (l : List α) :
    (range l.length).filterMap (fun i => l[i]?.bind f) = l.filterMap f := by
  induction l with
  | nil => rfl
  | cons x l ih =>
    rw [length_cons, range_succ_eq_map, filterMap_cons, filterMap_map, filterMap_cons]
    have hrest : (range l.length).filterMap ((fun i => (x :: l)[i]?.bind f) ∘ Nat.succ) = l.filterMap f := ih
    rw [hrest]
    rfl

variable {r : FecReceiver}

theorem FecReceiver.payloads_of_full (hblock : block.length = fecK)
    (h : ∀ i < fecK, r.received.lookup (seqAt b i) = block[i]?) :
    (r.payloads b).map Prod.snd = block.filter fun p => p ≠ [] := by
  have hall : (r.payloads b).map Prod.snd =
      (range fecK).filterMap fun i => block[i]?.bind fun p => if p = [] then none else some p := by
    rw [FecReceiver.payloads, map_filterMap]
    refine filterMap_congr fun i hi => ?_
    rw [h i (mem_range.mp hi)]
    cases block[i]? with
    | none => rfl
    | some p =>
      by_cases hp : p = []
      · simp [hp]
      · simp [hp]
  rw [hall, ← hblock, filterMap_range_getElem?, ← filterMap_eq_filter]
  refine filterMap_congr fun p _ => ?_
  by_cases hp : p = []
  · simp [hp, Option.guard]
  · simp [hp, Option.guard]

theorem FecReceiver.deliverBlock_of_agree (hblock : block.length = fecK)
    (hp : ∀ p ∈ block, p.length ≤ datagramMaxProtected)
    (hrec : rs.Recovers (codeData block)) (hshards : r.dec.ShardsOf rs block b) (hpayloads : r.PayloadsOf block b)
    (hagree : ∀ i < fecK, r.received.lookup (seqAt b i) = none ↔ r.dec.packetBuffer.lookup (seqAt b i) = none)
    (hcount : fecK ≤ (r.dec.present b).countP Option.isSome) :
    (r.deliverBlock rs b).1 = block.filter fun p => p ≠ [] := by
  have hmissing : missingPayloads block b r.dec.packetBuffer (range fecK) =
      missingPayloads block b r.received (range fecK) := by
    refine filterMap_congr fun i hi => ?_
    simp only [hagree i (mem_range.mp hi)]
  unfold FecReceiver.deliverBlock
  simp only
  split
  · rw [hshards.reconstruct hblock hp hrec hcount, hmissing]
    exact payloads_of_full hblock fun i hi => hpayloads.lookup_fill hblock hi
  · rename_i hno
    refine payloads_of_full hblock fun i hi => ?_
    cases hlookup : r.received.lookup (seqAt b i) with
    | some p => exact (hpayloads i hi p hlookup).symm
    | none =>
      refine absurd (any_eq_true.mpr ⟨i, mem_range.mpr hi, ?_⟩) hno
      simpa using hlookup

/-- The start of a block that does not wrap around. -/
structure AlignedStart (b : Nat) : Prop where
  mod : b % (fecK + fecM) = 0
  le : b + (fecK + fecM) ≤ seqLimit

theorem AlignedStart.seqAt (hb : AlignedStart b) (hi : i < fecK + fecM) : seqAt b i = b + i :=
  Nat.mod_eq_of_lt (lt_of_lt_of_le (Nat.add_lt_add_left hi b) hb.le)

theorem AlignedStart.blockStartOf (hb : AlignedStart b) (hi : i < fecK + fecM) :
    blockStartOf (Whispera.seqAt b i) = b := by
  obtain ⟨q, rfl⟩ := Nat.dvd_of_mod_eq_zero hb.mod
  rw [hb.seqAt hi, Whispera.blockStartOf, Nat.mul_add_div (by decide), Nat.div_eq_of_lt hi, add_zero, mul_comm]

theorem not_malformed {seq : Nat} (h : 2 ≤ shard.length) : ¬FecReceiver.Malformed (fecHeader seq ++ shard) := by
  rintro (hlen | hmarker)
  · rw [length_append, length_fecHeader] at hlen
    omega
  · exact hmarker rfl

theorem drop_fecHeader (seq : Nat) (shard : Bytes) (n : Nat) :
    (fecHeader seq ++ shard).drop (7 + n) = shard.drop n := by
  rw [← drop_drop, drop_left' (length_fecHeader seq)]

theorem FecReceiver.ingestShard_packet (h : 2 ≤ shard.length) (r : FecReceiver) :
    (r.ingestShard (fecHeader (seqAt b i) ++ shard)).dec.packetBuffer =
    r.dec.packetBuffer.insert (seqAt b i) shard := by
  have hlen : ¬(fecHeader (seqAt b i) ++ shard).length < 7 := by simp
  unfold FecReceiver.ingestShard FECDecoder.decodeFEC
  rw [if_neg (not_malformed h)]
  simp only
  rw [if_neg (not_or.mpr ⟨hlen, fun hmarker => hmarker rfl⟩)]
  simp only [seqOf_packet]
  rw [drop_fecHeader _ _ 0, drop_zero]

theorem FecReceiver.ingestPayload_data (hb : AlignedStart b) (hi : i < fecK) {p : Bytes}
    (hp : p.length ≤ datagramMaxProtected) (r : FecReceiver) (now : Int) :
    (r.ingestPayload (fecHeader (seqAt b i) ++ rsShard p) now).received = r.received.insert (seqAt b i) p := by
  have hlt : i < fecK + fecM := Nat.lt_add_right _ hi
  have hlen : (rsShard p).length = p.length + 2 := by
    rw [rsShard, length_append, length_putUint16, add_comm]
  have hget : get (((fecHeader (seqAt b i) ++ rsShard p).drop 7).take 2) = p.length := by
    exact get_putUint16 (lt_of_le_of_lt hp (by decide))
  have hpayload : (fecHeader (seqAt b i) ++ rsShard p).drop 9 = p := by
    rw [drop_fecHeader _ _ 2, rsShard, drop_left' (length_putUint16 _)]
  unfold FecReceiver.ingestPayload
  rw [if_neg (not_malformed (by rw [hlen]; exact Nat.le_add_left _ _))]
  simp only [seqOf_packet, hget, hpayload, hb.blockStartOf hlt]
  rw [if_pos, take_length]
  refine ⟨by rw [hb.seqAt hlt, Nat.add_sub_cancel_left]; exact hi, ?_⟩
  rw [length_append, length_fecHeader, hlen]
  omega

theorem FecReceiver.ingestPayload_parity (hb : AlignedStart b) (hk : fecK ≤ i) (hi : i < fecK + fecM)
    (r : FecReceiver) (now : Int) :
    (r.ingestPayload (fecHeader (seqAt b i) ++ shard) now).received = r.received := by
  unfold FecReceiver.ingestPayload
  split
  · rfl
  · simp only [seqOf_packet, hb.blockStartOf hi]
    refine if_neg fun h => not_lt.mpr hk ?_
    rw [hb.seqAt hi, Nat.add_sub_cancel_left] at h
    exact h.1

theorem sentShards_data (hblock : block.length = fecK) (hi : i < fecK) :
    (sentShards rs block)[i]? = block[i]?.map rsShard := by
  rw [sentShards, getElem?_append_left (by rwa [length_map, hblock]), getElem?_map]

theorem two_le_length_rsShard (p : Bytes) : 2 ≤ (rsShard p).length := by
  rw [rsShard, length_append, length_putUint16]
  exact Nat.le_add_right _ _

theorem two_le_length_sent (hblock : block.length = fecK) (h : s ∈ sentShards rs block) : 2 ≤ s.length := by
  rcases mem_append.mp h with h | h
  · obtain ⟨p, -, rfl⟩ := mem_map.mp h
    exact two_le_length_rsShard p
  · obtain ⟨p, hp⟩ := exists_mem_of_length_pos (by rw [hblock]; decide : 0 < block.length)
    rw [length_parity_shard hblock h]
    exact le_trans (two_le_length_rsShard p) (length_le_shardSize (mem_map_of_mem hp))

theorem FecReceiver.lookup_ingestPayload (hb : AlignedStart b) (hblock : block.length = fecK)
    (hp : ∀ p ∈ block, p.length ≤ datagramMaxProtected) (hi : i < fecK + fecM)
    (hs : (sentShards rs block)[i]? = some s) (r : FecReceiver) (now : Int) (q : Nat) :
    (r.ingestPayload (fecHeader (seqAt b i) ++ s) now).received.lookup q =
      if q = seqAt b i ∧ i < fecK then block[i]? else r.received.lookup q := by
  rcases lt_or_ge i fecK with hk | hk
  · rw [sentShards_data hblock hk] at hs
    obtain ⟨p, hget, rfl⟩ := Option.map_eq_some_iff.mp hs
    rw [ingestPayload_data hb hk (hp p (mem_of_getElem? hget)), lookup_insert_if, hget]
    simp only [hk, and_true]
  · rw [ingestPayload_parity hb hk hi, if_neg fun h => not_lt.mpr hk h.2]

theorem FecReceiver.lookup_ingestShard (hblock : block.length = fecK)
    (hs : (sentShards rs block)[i]? = some s) (r : FecReceiver) (q : Nat) :
    (r.ingestShard (fecHeader (seqAt b i) ++ s)).dec.packetBuffer.lookup q =
      if q = seqAt b i then some s else r.dec.packetBuffer.lookup q := by
  rw [ingestShard_packet (two_le_length_sent hblock (mem_of_getElem? hs)), lookup_insert_if]

@[simp] theorem FecReceiver.dec_ingestPayload (r : FecReceiver) (packet : Bytes) (now : Int) :
    (r.ingestPayload packet now).dec = r.dec := by
  unfold FecReceiver.ingestPayload
  split <;> rfl

@[simp] theorem FecReceiver.received_ingestShard (r : FecReceiver) (packet : Bytes) :
    (r.ingestShard packet).received = r.received := by
  unfold FecReceiver.ingestShard
  split <;> rfl

end Block

end Whispera
