import Whispera.FecLink
import Whispera.Lib.Transition
import Whispera.Theorems.FecReceiver

/-! A sweep delivers payloads in the places of others only if the two maps differ when it reconstructs a
block, or change before it puts the recovered payloads in place. -/

namespace Whispera
open List BigEndian ErasureCode Transition

def lapBlocks : Nat := seqLimit / (fecK + fecM)

theorem startOf_eq {n : Nat} (hn : n < lapBlocks) : startOf n = (fecK + fecM) * n := by
  rw [startOf, seqAt, zero_add]
  refine Nat.mod_eq_of_lt (lt_of_lt_of_le ((Nat.mul_lt_mul_left (by decide)).mpr hn) ?_)
  exact Nat.mul_div_le seqLimit _

theorem alignedStart_startOf {n : Nat} (hn : n < lapBlocks) : AlignedStart (startOf n) := by
  refine ⟨?_, ?_⟩
  · rw [startOf_eq hn]
    exact Nat.mul_mod_right _ _
  · rw [startOf_eq hn, ← Nat.mul_succ]
    exact le_trans (Nat.mul_le_mul_left _ hn) (Nat.mul_div_le seqLimit _)

theorem seqAt_place {n i : Nat} (hn : n < lapBlocks) (hi : i < fecK + fecM) :
    seqAt (startOf n) i = (fecK + fecM) * n + i := by
  rw [(alignedStart_startOf hn).seqAt hi, startOf_eq hn]

theorem place_inj {n n' i i' : Nat} (hn : n < lapBlocks) (hn' : n' < lapBlocks) (hi : i < fecK + fecM)
    (hi' : i' < fecK + fecM)
    (h : seqAt (startOf n) i = seqAt (startOf n') i') : n = n' ∧ i = i' := by
  rw [seqAt_place hn hi, seqAt_place hn' hi'] at h
  have hdiv := congrArg (· / (fecK + fecM)) h
  have hmod := congrArg (· % (fecK + fecM)) h
  simp only [Nat.mul_add_mod, Nat.mod_eq_of_lt hi, Nat.mod_eq_of_lt hi'] at hmod
  simp only [Nat.mul_add_div (by decide : 0 < fecK + fecM), Nat.div_eq_of_lt hi, Nat.div_eq_of_lt hi'] at hdiv
  exact ⟨hdiv, hmod⟩

theorem startOf_inj {n n' : Nat} (hn : n < lapBlocks) (hn' : n' < lapBlocks) (h : startOf n = startOf n') : n = n' := by
  rw [startOf_eq hn, startOf_eq hn'] at h
  exact Nat.eq_of_mul_eq_mul_left (by decide) h

section Receiver

variable {rs : ReedSolomon} {bs : Blocks}

section
variable (r : FecReceiver) (b : Nat)

@[simp] theorem FecReceiver.received_forget : (r.forget b).received = r.received := by
  simp only [forget]

@[simp] theorem FecReceiver.firstAt_forget : (r.forget b).firstAt = r.firstAt := by
  simp only [forget]

@[simp] theorem FecReceiver.dec_dropPayloads : (r.dropPayloads b).dec = r.dec := by
  simp only [dropPayloads]

@[simp] theorem FecReceiver.firstAt_dropPayloads : (r.dropPayloads b).firstAt = r.firstAt := by
  simp only [dropPayloads]

end

/-- What the receiver holds is what was sent there. -/
structure Blocks.Held (rs : ReedSolomon) (bs : Blocks) (r : FecReceiver) : Prop where
  payloads : ∀ n < lapBlocks, ∀ block, bs.blocks[n]? = some block → r.PayloadsOf block (startOf n)
  shards : ∀ n < lapBlocks, ∀ block, bs.blocks[n]? = some block → r.dec.ShardsOf rs block (startOf n)

namespace Blocks.Held

variable {r : FecReceiver}

theorem empty : bs.Held rs {} where
  payloads := by
    intro n _ block _ i _ p h
    cases h
  shards := by
    intro n _ block _ i _ s h
    cases h

variable {k : Nat}

theorem packet {packet : Bytes} (hk : k < (fecK + fecM) * lapBlocks)
    (h : ((bs.packets rs).map Prod.snd)[k]? = some packet) :
    ∃ block shard, k / (fecK + fecM) < lapBlocks ∧ bs.blocks[k / (fecK + fecM)]? = some block ∧
      (sentShards rs block)[k % (fecK + fecM)]? = some shard ∧
      packet = fecHeader (seqAt (startOf (k / (fecK + fecM))) (k % (fecK + fecM))) ++ shard := by
  rw [getElem?_map] at h
  obtain ⟨e, he, rfl⟩ := Option.map_eq_some_iff.mp h
  obtain ⟨block, shard, hblock, hshard, rfl⟩ := Blocks.packet_at he
  refine ⟨block, shard, ?_, hblock, hshard, ?_⟩
  · exact Nat.div_lt_of_lt_mul hk
  · rw [seqAt_startOf, Nat.div_add_mod]

section
variable (h : bs.Held rs r)
include h

theorem ingestPayload {packet : Bytes} (hk : k < (fecK + fecM) * lapBlocks)
    (hpacket : ((bs.packets rs).map Prod.snd)[k]? = some packet)
    (now : Int) : bs.Held rs (r.ingestPayload packet now) := by
  obtain ⟨block, shard, hn, hblock, hshard, rfl⟩ := Held.packet hk hpacket
  have hmem := mem_of_getElem? hblock
  have hi : k % (fecK + fecM) < fecK + fecM := Nat.mod_lt k (by decide)
  refine ⟨fun n' hn' block' hblock' i' hi' p hp => ?_, fun n' hn' block' hblock' => ?_⟩
  · rw [FecReceiver.lookup_ingestPayload (alignedStart_startOf hn) (bs.length_blocks block hmem)
      (bs.short_blocks block hmem)
      hi hshard] at hp
    split at hp
    · rename_i hplace
      obtain ⟨heq, hpos⟩ := place_inj hn' hn (Nat.lt_add_right _ hi') hi hplace.1
      subst heq hpos
      rw [hblock] at hblock'
      cases hblock'
      exact hp
    · exact h.payloads n' hn' block' hblock' i' hi' p hp
  · rw [FecReceiver.dec_ingestPayload]
    exact h.shards n' hn' block' hblock'

theorem ingestShard {packet : Bytes} (hk : k < (fecK + fecM) * lapBlocks)
    (hpacket : ((bs.packets rs).map Prod.snd)[k]? = some packet) : bs.Held rs (r.ingestShard packet) := by
  obtain ⟨block, shard, hn, hblock, hshard, rfl⟩ := Held.packet hk hpacket
  have hi : k % (fecK + fecM) < fecK + fecM := Nat.mod_lt k (by decide)
  refine ⟨fun n' hn' block' hblock' => ?_, fun n' hn' block' hblock' i' hi' s hs => ?_⟩
  · unfold FecReceiver.PayloadsOf
    rw [FecReceiver.received_ingestShard]
    exact h.payloads n' hn' block' hblock'
  · rw [FecReceiver.lookup_ingestShard (bs.length_blocks block (mem_of_getElem? hblock)) hshard] at hs
    split at hs
    · rename_i hplace
      obtain ⟨heq, hpos⟩ := place_inj hn' hn hi' hi hplace
      subst heq hpos
      rw [hblock] at hblock'
      cases hblock'
      rw [hshard, hs]
    · exact h.shards n' hn' block' hblock' i' hi' s hs

theorem mono {r' : FecReceiver} (hreceived : ∀ q p, r'.received.lookup q = some p → r.received.lookup q = some p)
    (hbuffer : ∀ q s, r'.dec.packetBuffer.lookup q = some s → r.dec.packetBuffer.lookup q = some s) : bs.Held rs r' :=
  ⟨fun n hn block hblock i hi p hp => h.payloads n hn block hblock i hi p (hreceived _ p hp),
    fun n hn block hblock i hi s hs => h.shards n hn block hblock i hi s (hbuffer _ s hs)⟩

theorem dropPayloads (b : Nat) : bs.Held rs (r.dropPayloads b) := by
  refine h.mono (fun q p hp => ?_) fun q s hs => ?_
  · rw [FecReceiver.dropPayloads, lookup_foldl_erase] at hp
    split at hp
    · cases hp
    · exact hp
  · rwa [FecReceiver.dec_dropPayloads] at hs

theorem forget (b : Nat) : bs.Held rs (r.forget b) := by
  refine h.mono (fun q p hp => ?_) fun q s hs => ?_
  · rwa [FecReceiver.received_forget] at hp
  · rw [FecReceiver.forget, FECDecoder.forget, lookup_foldl_erase] at hs
    split at hs
    · cases hs
    · exact hs

theorem fill {n : Nat} (hn : n < lapBlocks) {block : List Bytes} (hblock : bs.blocks[n]? = some block) :
    bs.Held rs (r.fill (startOf n) (missingPayloads block (startOf n) r.received (range fecK))) := by
  have hlen := bs.length_blocks block (mem_of_getElem? hblock)
  refine ⟨fun n' hn' block' hblock' i hi p hp => ?_, h.shards⟩
  by_cases hsame : n' = n
  · subst hsame
    rw [hblock] at hblock'
    cases hblock'
    rwa [(h.payloads n' hn' block hblock).lookup_fill hlen hi] at hp
  · rw [FecReceiver.lookup_fill_other] at hp
    · exact h.payloads n' hn' block' hblock' i hi p hp
    · rintro j hj heq
      exact hsame (place_inj hn' hn (Nat.lt_add_right _ hi) (Nat.lt_add_right _ hj) heq).1

end

end Blocks.Held

def Blocks.Starts (bs : Blocks) (b : Nat) : Prop := ∃ n < lapBlocks, ∃ block, bs.blocks[n]? = some block ∧ b = startOf n

def Blocks.Placed (bs : Blocks) (d : Delivery) : Prop :=
  ∃ n < lapBlocks, ∃ block, bs.blocks[n]? = some block ∧ d.block = startOf n ∧
    (∀ e ∈ d.items, e.1 < fecK ∧ block[e.1]? = some e.2 ∧ e.2 ≠ []) ∧ (d.items.map Prod.snd).Sublist block

variable {r : FecReceiver}

theorem FecReceiver.mem_payloads {b : Nat} {e : Nat × Bytes} (h : e ∈ r.payloads b) :
    e.1 < fecK ∧ r.received.lookup (seqAt b e.1) = some e.2 ∧ e.2 ≠ [] := by
  obtain ⟨i, hi, hmatch⟩ := mem_filterMap.mp h
  split at hmatch
  · cases hmatch
  · rename_i p hlookup
    split at hmatch <;> cases hmatch
    exact ⟨mem_range.mp hi, hlookup, ‹_›⟩

theorem Blocks.Held.placed (h : bs.Held rs r) {b : Nat} (hb : bs.Starts b) (recovered : Bool) :
    bs.Placed { block := b, recovered, items := r.payloads b } := by
  obtain ⟨n, hn, block, hblock, rfl⟩ := hb
  refine ⟨n, hn, block, hblock, rfl, fun e he => ?_, ?_⟩
  · obtain ⟨hi, hlookup, hne⟩ := FecReceiver.mem_payloads he
    exact ⟨hi, h.payloads n hn block hblock e.1 hi e.2 hlookup, hne⟩
  · simp only [FecReceiver.payloads, map_filterMap]
    refine filterMap_range_sublist fun i hi p hp => ?_
    obtain ⟨e, he, rfl⟩ := Option.map_eq_some_iff.mp hp
    split at he
    · cases he
    · rename_i p hlookup
      split at he <;> cases he
      exact h.payloads n hn block hblock i hi p hlookup

variable {packet : Bytes}

theorem Blocks.starts_blockStartOf {k : Nat} (hk : k < (fecK + fecM) * lapBlocks)
    (hpacket : ((bs.packets rs).map Prod.snd)[k]? = some packet) : bs.Starts (blockStartOf (seqOf packet)) := by
  obtain ⟨block, shard, hn, hblock, -, rfl⟩ := Blocks.Held.packet hk hpacket
  refine ⟨_, hn, block, hblock, ?_⟩
  rw [seqOf_packet, (alignedStart_startOf hn).blockStartOf (Nat.mod_lt k (by decide))]

theorem FecReceiver.firstAt_ingestPayload {now : Int} {b : Nat}
    (h : b ∈ (r.ingestPayload packet now).firstAt) : b ∈ r.firstAt ∨ b = blockStartOf (seqOf packet) := by
  unfold FecReceiver.ingestPayload at h
  split at h
  · exact Or.inl h
  · simp only at h
    split at h
    · exact Or.inl h
    · exact (AList.mem_insert _).mp h |>.symm

@[simp] theorem FecReceiver.firstAt_ingestShard (r : FecReceiver) (packet : Bytes) :
    (r.ingestShard packet).firstAt = r.firstAt := by
  unfold FecReceiver.ingestShard
  split <;> rfl

theorem FecReceiver.mem_due {now : Int} {b : Nat} (h : b ∈ r.due now) : b ∈ r.firstAt := by
  obtain ⟨e, he, rfl⟩ := mem_map.mp h
  exact AList.mem_keys.mpr (mem_map_of_mem (mem_filter.mp he).1)

theorem FecReceiver.firstAt_takeDue {blocks : List Nat} {b : Nat} (h : b ∈ (r.takeDue blocks).firstAt) :
    b ∈ r.firstAt := by
  rw [← AList.lookup_isSome] at h ⊢
  rw [FecReceiver.takeDue, lookup_foldl_erase (fun b => b)] at h
  split at h
  · cases h
  · exact h

end Receiver

def SweepPc.blocks : SweepPc → List Nat
  | .idle => []
  | .due blocks => blocks
  | .checked b _ rest | .rebuilt b _ rest | .filled b _ rest => b :: rest
  | .collected d rest => d.block :: rest

/-- No payload of a block is stored after others of it were recovered and before they are put in place. -/
def SweepPc.Spares (k : Nat) : SweepPc → Prop
  | .rebuilt b recovered _ => recovered = [] ∨ blockStartOf k ≠ b ∨ fecK ≤ k % (fecK + fecM)
  | _ => True

/-- A block with ten shards is reconstructed when payloads and shards of the same positions have been stored.
    -/
def SweepPc.Agrees (r : FecReceiver) : SweepPc → Prop
  | .checked b true _ => fecK ≤ (r.dec.present b).countP Option.isSome →
      ∀ i < fecK, (r.received.lookup (seqAt b i)).isSome = (r.dec.packetBuffer.lookup (seqAt b i)).isSome
  | _ => True

namespace FecLink

/-- Blocks do not share sequence numbers, and `ingest` does not come between the two maps and `deliverBlock`.
    -/
def Undisturbed (s : FecLink) : Act → Prop
  | .arrive k _ => k < (fecK + fecM) * lapBlocks ∧ s.sweeper.Spares k
  | .advance => s.sweeper.Agrees s.receiver
  | _ => True

instance (k : Nat) (pc : SweepPc) : Decidable (pc.Spares k) := by
  unfold SweepPc.Spares
  split <;> infer_instance

instance (r : FecReceiver) (pc : SweepPc) : Decidable (pc.Agrees r) := by
  unfold SweepPc.Agrees
  split <;> infer_instance

instance (s : FecLink) (a : Act) : Decidable (s.Undisturbed a) := by
  unfold Undisturbed
  split <;> infer_instance

variable {rs : ReedSolomon} {bs : Blocks} {s t : FecLink}

/-- All payloads, also those on their way out, are at their places. -/
structure InPlace (rs : ReedSolomon) (bs : Blocks) (s : FecLink) : Prop where
  held : bs.Held rs s.receiver
  ingesting : ∀ k ∈ s.ingesting, k < (fecK + fecM) * lapBlocks ∧
    ∃ packet, ((bs.packets rs).map Prod.snd)[k]? = some packet
  waiting : ∀ b ∈ s.receiver.firstAt, bs.Starts b
  sweeping : ∀ b ∈ s.sweeper.blocks, bs.Starts b
  rebuilt : ∀ b recovered rest, s.sweeper = .rebuilt b recovered rest → recovered ≠ [] →
    ∃ n < lapBlocks, ∃ block, bs.blocks[n]? = some block ∧ b = startOf n ∧
      recovered = missingPayloads block b s.receiver.received (range fecK)
  placed : ∀ d ∈ s.deliveries, bs.Placed d

theorem inPlace_start : InPlace rs bs {} where
  held := .empty
  ingesting := by simp
  waiting := by
    intro b hb
    cases hb
  sweeping := by simp [SweepPc.blocks]
  rebuilt := by
    intro b recovered rest h
    cases h
  placed := by simp [deliveries]

variable {packets : List Bytes} {k : Nat} {now : Int} {due : List Nat} {rest : List Nat}

theorem arrive_cases (h : s.step rs packets (.arrive k now) = some t) :
    s.ingesting = none ∧ k ∉ s.arrived ∧ ∃ packet, packets[k]? = some packet ∧
      t = { s with
        receiver := s.receiver.ingestPayload packet now, arrived := k :: s.arrived, ingesting := some k } := by
  simp only [FecLink.step] at h
  split at h
  · rename_i packet hnone hpacket
    split at h <;> cases h
    exact ⟨hnone, ‹_›, packet, hpacket, rfl⟩
  · cases h

theorem shard_cases (h : s.step rs packets .shard = some t) :
    ∃ k ∈ s.ingesting, t = { s with receiver := s.receiver.ingestShard (packets[k]?.getD []), ingesting := none } := by
  simp only [FecLink.step] at h
  split at h <;> cases h
  rename_i k hk
  exact ⟨k, hk, rfl⟩

theorem sweep_cases (h : s.step rs packets (.sweep now due) = some t) :
    s.sweeper = .idle ∧ due.Perm (s.receiver.due now) ∧
      t = { s with receiver := s.receiver.takeDue due, sweeper := .due due } := by
  simp only [FecLink.step] at h
  split at h <;> cases h
  rename_i hidle
  exact ⟨hidle.1, isPerm_iff.mp hidle.2, rfl⟩

/-- How the sweeper goes on. -/
inductive Advances (rs : ReedSolomon) (s : FecLink) : FecLink → Prop
  | finish : s.sweeper = .due [] → Advances rs s { s with sweeper := .idle }
  | check (b : Nat) (rest : List Nat) : s.sweeper = .due (b :: rest) →
      Advances rs s { s with sweeper := .checked b (s.receiver.missing b) rest }
  | rebuild (b : Nat) (rest : List Nat) : s.sweeper = .checked b true rest →
      Advances rs s { s with sweeper := .rebuilt b (s.receiver.dec.reconstruct rs b) rest }
  | skip (b : Nat) (rest : List Nat) : s.sweeper = .checked b false rest →
      Advances rs s { s with sweeper := .filled b false rest }
  | fill (b : Nat) (recovered : List Bytes) (rest : List Nat) : s.sweeper = .rebuilt b recovered rest →
      Advances rs s { s with receiver := s.receiver.fill b recovered, sweeper := .filled b (!recovered.isEmpty) rest }
  | collect (b : Nat) (recovered : Bool) (rest : List Nat) : s.sweeper = .filled b recovered rest →
      Advances rs s { s with
        receiver := s.receiver.dropPayloads b
        sweeper := .collected { block := b, recovered, items := s.receiver.payloads b } rest }
  | forget (d : Delivery) (rest : List Nat) : s.sweeper = .collected d rest →
      Advances rs s { s with
        receiver := s.receiver.forget d.block, sweeper := .due rest, delivered := s.delivered ++ [d] }

theorem advances (h : s.advance rs = some t) : Advances rs s t := by
  unfold FecLink.advance at h
  split at h
  · cases h
  · cases h
    exact .finish ‹_›
  · cases h
    exact .check _ _ ‹_›
  · rename_i missing _ hpc
    cases missing with
    | true =>
      cases h
      exact .rebuild _ _ hpc
    | false =>
      cases h
      exact .skip _ _ hpc
  · cases h
    exact .fill _ _ _ ‹_›
  · cases h
    exact .collect _ _ _ ‹_›
  · cases h
    exact .forget _ _ ‹_›

theorem lookup_arrive {packet : Bytes} (hk : k < (fecK + fecM) * lapBlocks)
    (hpacket : ((bs.packets rs).map Prod.snd)[k]? = some packet) {n i : Nat} (hn : n < lapBlocks) (hi : i < fecK)
    (hother : k ≠ (fecK + fecM) * n + i) (r : FecReceiver) (now : Int) :
    (r.ingestPayload packet now).received.lookup (seqAt (startOf n) i) = r.received.lookup (seqAt (startOf n) i) := by
  obtain ⟨block, shard, hn', hblock, hshard, rfl⟩ := Blocks.Held.packet hk hpacket
  have hmem := mem_of_getElem? hblock
  have hmod : k % (fecK + fecM) < fecK + fecM := Nat.mod_lt k (by decide)
  rw [FecReceiver.lookup_ingestPayload (alignedStart_startOf hn') (bs.length_blocks block hmem)
    (bs.short_blocks block hmem)
    hmod hshard]
  refine if_neg fun hplace => hother ?_
  obtain ⟨rfl, rfl⟩ := place_inj hn hn' (Nat.lt_add_right _ hi) hmod hplace.1
  exact (Nat.div_add_mod k _).symm

theorem blockStartOf_place {n i : Nat} (hn : n < lapBlocks) (hi : i < fecK + fecM) :
    blockStartOf ((fecK + fecM) * n + i) = startOf n := by
  rw [← seqAt_place hn hi, (alignedStart_startOf hn).blockStartOf hi]

theorem InPlace.arrive (h : InPlace rs bs s) (hapt : s.Undisturbed (.arrive k now))
    (hstep : s.step rs ((bs.packets rs).map Prod.snd) (.arrive k now) = some t) : InPlace rs bs t := by
  obtain ⟨-, -, packet, hpacket, rfl⟩ := arrive_cases hstep
  obtain ⟨hk, hspares⟩ := hapt
  refine ⟨h.held.ingestPayload hk hpacket now, ?_, ?_, h.sweeping, ?_, h.placed⟩
  · rintro _ ⟨⟩
    exact ⟨hk, packet, hpacket⟩
  · intro b hb
    rcases FecReceiver.firstAt_ingestPayload hb with hb | rfl
    · exact h.waiting b hb
    · exact Blocks.starts_blockStartOf hk hpacket
  · intro b recovered rest hpc hne
    obtain ⟨n, hn, block, hblock, rfl, heq⟩ := h.rebuilt b recovered rest hpc hne
    refine ⟨n, hn, block, hblock, rfl, heq.trans (filterMap_congr fun i hi => ?_)⟩
    have hi : i < fecK := mem_range.mp hi
    rw [lookup_arrive hk hpacket hn hi]
    rintro rfl
    rw [hpc] at hspares
    rcases hspares with hnil | hblock | hparity
    · exact hne hnil
    · exact hblock (blockStartOf_place hn (Nat.lt_add_right _ hi))
    · rw [Nat.mul_add_mod, Nat.mod_eq_of_lt (Nat.lt_add_right _ hi)] at hparity
      exact not_lt.mpr hparity hi

theorem InPlace.shard (h : InPlace rs bs s) (hstep : s.step rs ((bs.packets rs).map Prod.snd) .shard = some t) :
    InPlace rs bs t := by
  obtain ⟨k, hk, rfl⟩ := shard_cases hstep
  obtain ⟨hlt, packet, hpacket⟩ := h.ingesting k hk
  rw [hpacket, Option.getD_some]
  refine ⟨h.held.ingestShard hlt hpacket, by simp, ?_, h.sweeping, ?_, h.placed⟩
  · rw [FecReceiver.firstAt_ingestShard]
    exact h.waiting
  · rw [FecReceiver.received_ingestShard]
    exact h.rebuilt

theorem InPlace.sweep (h : InPlace rs bs s)
    (hstep : s.step rs ((bs.packets rs).map Prod.snd) (.sweep now due) = some t) : InPlace rs bs t := by
  obtain ⟨hidle, hperm, rfl⟩ := sweep_cases hstep
  refine ⟨h.held.mono (fun q p hp => hp) fun q s hs => hs, h.ingesting, ?_, ?_, ?_, ?_⟩
  · exact fun b hb => h.waiting b (FecReceiver.firstAt_takeDue hb)
  · exact fun b hb => h.waiting b (FecReceiver.mem_due (hperm.mem_iff.mp hb))
  · intro b recovered rest hpc
    cases hpc
  · have := h.placed
    simp only [deliveries, hidle] at this ⊢
    exact this

theorem InPlace.reconstruct (hrec : ∀ block ∈ bs.blocks, rs.Recovers (codeData block)) (h : InPlace rs bs s) {b : Nat}
    (hpc : s.sweeper = .checked b true rest) (hagrees : s.sweeper.Agrees s.receiver)
    (hne : s.receiver.dec.reconstruct rs b ≠ []) :
    ∃ n < lapBlocks, ∃ block, bs.blocks[n]? = some block ∧ b = startOf n ∧
      s.receiver.dec.reconstruct rs b = missingPayloads block b s.receiver.received (range fecK) := by
  obtain ⟨n, hn, block, hblock, rfl⟩ := h.sweeping b (by rw [hpc]; exact mem_cons_self)
  have hmem := mem_of_getElem? hblock
  have hcount : fecK ≤ (s.receiver.dec.present (startOf n)).countP Option.isSome := by
    by_contra hfew
    exact hne (FECDecoder.reconstruct_few (Nat.lt_of_not_le hfew))
  rw [hpc] at hagrees
  refine ⟨n, hn, block, hblock, rfl, ?_⟩
  rw [(h.held.shards n hn block hblock).reconstruct (bs.length_blocks block hmem) (bs.short_blocks block hmem)
    (hrec block hmem) hcount]
  refine filterMap_congr fun i hi => ?_
  have hsame := hagrees hcount i (mem_range.mp hi)
  simp only [← Option.not_isSome_iff_eq_none, hsame]

theorem InPlace.move (h : InPlace rs bs s) {pc : SweepPc} (hblocks : ∀ b ∈ pc.blocks, b ∈ s.sweeper.blocks)
    (hrebuilt : ∀ b recovered rest, pc = .rebuilt b recovered rest → recovered ≠ [] →
      ∃ n < lapBlocks, ∃ block, bs.blocks[n]? = some block ∧ b = startOf n ∧
        recovered = missingPayloads block b s.receiver.received (range fecK))
    (hdeliveries : { s with sweeper := pc }.deliveries = s.deliveries) : InPlace rs bs { s with sweeper := pc } :=
  ⟨h.held, h.ingesting, h.waiting, fun b hb => h.sweeping b (hblocks b hb), hrebuilt, hdeliveries ▸ h.placed⟩

theorem InPlace.fill (h : InPlace rs bs s) {b : Nat} {recovered : List Bytes}
    (hpc : s.sweeper = .rebuilt b recovered rest) : bs.Held rs (s.receiver.fill b recovered) := by
  by_cases hne : recovered = []
  · rw [hne, FecReceiver.fill, fillLoop_nil]
    exact h.held
  · obtain ⟨n, hn, block, hblock, rfl, rfl⟩ := h.rebuilt b recovered rest hpc hne
    exact h.held.fill hn hblock

theorem InPlace.advance (hrec : ∀ block ∈ bs.blocks, rs.Recovers (codeData block)) (h : InPlace rs bs s)
    (hagrees : s.sweeper.Agrees s.receiver) (hstep : s.advance rs = some t) : InPlace rs bs t := by
  have hsweeping := h.sweeping
  cases advances hstep with
  | finish hpc => exact h.move (by simp [SweepPc.blocks]) (by simp) (by simp [deliveries, hpc])
  | check b rest hpc | skip b rest hpc =>
    exact h.move (by simp [SweepPc.blocks, hpc]) (by simp) (by simp [deliveries, hpc])
  | rebuild b rest hpc =>
    refine h.move (by simp [SweepPc.blocks, hpc]) ?_ (by simp [deliveries, hpc])
    rintro _ _ _ ⟨⟩ hne
    exact h.reconstruct hrec hpc hagrees hne
  | fill b recovered rest hpc =>
    rw [hpc] at hsweeping
    refine ⟨h.fill hpc, h.ingesting, h.waiting, hsweeping, by simp, ?_⟩
    have hplaced := h.placed
    simp only [deliveries, hpc] at hplaced ⊢
    exact hplaced
  | collect b recovered rest hpc =>
    rw [hpc] at hsweeping
    refine ⟨h.held.dropPayloads b, h.ingesting, ?_, hsweeping, by simp, ?_⟩
    · rw [FecReceiver.firstAt_dropPayloads]
      exact h.waiting
    have hplaced := h.placed
    simp only [deliveries, hpc, append_nil] at hplaced ⊢
    exact forall_mem_snoc hplaced (h.held.placed (hsweeping b mem_cons_self) recovered)
  | forget d rest hpc =>
    rw [hpc] at hsweeping
    refine ⟨h.held.forget d.block, h.ingesting, ?_, fun b hb => hsweeping b (mem_cons_of_mem _ hb), by simp, ?_⟩
    · rw [FecReceiver.firstAt_forget]
      exact h.waiting
    have hplaced := h.placed
    simp only [deliveries, hpc, append_nil] at hplaced ⊢
    exact hplaced

theorem InPlace.step (hrec : ∀ block ∈ bs.blocks, rs.Recovers (codeData block)) (h : InPlace rs bs s) {a : Act}
    (hapt : s.Undisturbed a) (hstep : s.step rs ((bs.packets rs).map Prod.snd) a = some t) : InPlace rs bs t := by
  cases a with
  | arrive k now => exact h.arrive hapt hstep
  | shard => exact h.shard hstep
  | sweep now due => exact h.sweep hstep
  | advance => exact h.advance hrec hapt hstep

/-- What one call of `deliverBlock` hands over are payloads of its block, in their order and at their
    positions. -/
theorem delivered_in_place (rs : ReedSolomon) (sends : List Send)
    (hrec : ∀ block ∈ (Blocks.ofSends sends).blocks, rs.Recovers (codeData block)) (acts : List Act) (s : FecLink)
    (hrun : Run (step rs ((session rs {} sends).1.map Prod.snd)) Undisturbed {} acts s) :
    ∀ d ∈ s.delivered, ∃ n, ∃ block, (Blocks.ofSends sends).blocks[n]? = some block ∧ d.block = startOf n ∧
      (∀ e ∈ d.items, block[e.1]? = some e.2) ∧ (d.items.map Prod.snd).Sublist block := by
  rw [session_packets] at hrun
  intro d hd
  have hinv := hrun.invariant (fun h hapt hs => InPlace.step hrec h hapt hs) inPlace_start
  obtain ⟨n, -, block, hblock, hstart, hitems, hsub⟩ := hinv.placed d (mem_append_left _ hd)
  exact ⟨n, block, hblock, hstart, fun e he => (hitems e he).2.1, hsub⟩

/-! A block of ten payloads that differ. -/

def tenSends : List Send := (range 10).map fun i => { payload := [UInt8.ofNat (i + 1)] }

def tenCode : ReedSolomon :=
  ofWord ((range 10).map fun i => [0, 1, UInt8.ofNat (i + 1)]) [[0, 1, 69], [0, 1, 242], [0, 1, 18], [0, 1, 118]] rfl
    (by decide)

def tenPackets : List Bytes := (session tenCode {} tenSends).1.map Prod.snd

theorem recovers_tenCode : ∀ block ∈ (Blocks.ofSends tenSends).blocks, tenCode.Recovers (codeData block) := by
  have hblocks : (Blocks.ofSends tenSends).blocks = [tenSends.map Send.payload] := by decide +kernel
  rw [hblocks]
  rintro _ ⟨⟩
  · have hdata : codeData (tenSends.map Send.payload) = (range 10).map fun i => [0, 1, UInt8.ofNat (i + 1)] := by
      decide +kernel
    exact recovers_ofWord rfl (by decide)
  · rename_i h
    cases h

def tenArrivals : List Act := (range 10).flatMap fun i => [.arrive (i + 2) 0, .shard]

def sweepOne (now : Int) (b : Nat) : List Act := .sweep now [b] :: replicate 5 .advance

theorem delivered_in_place_from_ten :
    ∃ s, Run (step tenCode tenPackets) Undisturbed {} (tenArrivals ++ sweepOne fecBlockWait 0) s ∧
    s.delivered = [{ block := 0, recovered := true, items := (range 10).map fun i => (i, [UInt8.ofNat (i + 1)]) }] ∧
    ∀ d ∈ s.delivered, ∃ n, ∃ block, (Blocks.ofSends tenSends).blocks[n]? = some block ∧ d.block = startOf n ∧
      (∀ e ∈ d.items, block[e.1]? = some e.2) ∧ (d.items.map Prod.snd).Sublist block := by
  refine Run.exists_of_exec ?_ fun s hrun hs => ⟨hs, delivered_in_place tenCode tenSends recovers_tenCode _ s hrun⟩
  decide +kernel

/-- A payload has been stored, but not its shard, when the block is delivered: it is recovered and delivered
    in the place of another. -/
theorem recovered_in_another_place : ∃ s, AnyRun (step tenCode tenPackets) {}
    (tenArrivals ++ [.arrive 0 0] ++ sweepOne fecBlockWait 0) s ∧ (s.delivered.map fun d => d.items.map Prod.snd) =
      [[[1], [1], [3], [4], [5], [6], [7], [8], [9], [10]]] :=
  AnyRun.exists_of_exec (by decide +kernel)

end FecLink
end Whispera
