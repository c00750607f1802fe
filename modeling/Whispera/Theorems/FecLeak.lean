import Whispera.FecCalls
import Whispera.Lib.Processes
import Whispera.Theorems.FecOnce

/-! Nothing is kept for good, unless a block is forgotten while a call of `ingest` has a shard of it to store.
-/

namespace Whispera
open List Transition Processes

def InBlock (b q : Nat) : Prop := ∃ i < fecK + fecM, seqAt b i = q

theorem inBlock_seqOf (packet : Bytes) : InBlock (blockStartOf (seqOf packet)) (seqOf packet) := by
  have hlt : seqOf packet < seqLimit := by
    refine lt_of_lt_of_le (BigEndian.get_lt _) ?_
    have hlen : ((packet.drop 1).take 4).length ≤ 4 := length_take_le 4 _
    calc 256 ^ ((packet.drop 1).take 4).length ≤ 256 ^ 4 := Nat.pow_le_pow_right (by decide) hlen
      _ = seqLimit := by decide
  have hsplit := Nat.div_add_mod' (seqOf packet) (fecK + fecM)
  refine ⟨seqOf packet % (fecK + fecM), Nat.mod_lt _ (by decide), ?_⟩
  rw [seqAt, blockStartOf, hsplit, Nat.mod_eq_of_lt hlt]

variable {packet : Bytes} {now : Int}

namespace FecReceiver

variable {r : FecReceiver}

theorem lookup_forget {b q : Nat} (h : ((r.forget b).dec.packetBuffer.lookup q).isSome) :
    (r.dec.packetBuffer.lookup q).isSome ∧ ¬InBlock b q := by
  rw [FecReceiver.forget, FECDecoder.forget, lookup_foldl_erase] at h
  split at h
  · cases h
  · rename_i hnot
    refine ⟨h, ?_⟩
    rintro ⟨i, hi, heq⟩
    exact hnot (mem_map.mpr ⟨i, mem_range.mpr hi, heq⟩)

theorem lookup_fill_isSome {b q : Nat} {recovered : List Bytes}
    (h : ((r.fill b recovered).received.lookup q).isSome) : (r.received.lookup q).isSome ∨ InBlock b q := by
  by_cases hb : InBlock b q
  · exact .inr hb
  · refine .inl ?_
    rwa [lookup_fill_other fun i hi heq => hb ⟨i, lt_of_lt_of_le hi (Nat.le_add_right _ _), heq.symm⟩] at h

theorem lookup_ingestPayload_isSome {q : Nat} (h : ((r.ingestPayload packet now).received.lookup q).isSome) :
    (r.received.lookup q).isSome ∨ (¬Malformed packet ∧ q = seqOf packet) := by
  unfold ingestPayload at h
  split at h
  · exact .inl h
  · rename_i hformed
    simp only at h
    split at h
    · rw [lookup_insert_if] at h
      split at h
      · exact .inr ⟨hformed, ‹_›⟩
      · exact .inl h
    · exact .inl h

theorem lookup_ingestShard_isSome {q : Nat} (h : ((r.ingestShard packet).dec.packetBuffer.lookup q).isSome) :
    (r.dec.packetBuffer.lookup q).isSome ∨ q = seqOf packet := by
  unfold ingestShard at h
  split at h
  · exact .inl h
  · simp only [FECDecoder.decodeFEC] at h
    split at h
    · exact .inl h
    · rw [lookup_insert_if] at h
      split at h
      · exact .inr ‹_›
      · exact .inl h

theorem waits_ingestPayload (now : Int) (hformed : ¬Malformed packet) :
    blockStartOf (seqOf packet) ∈ (r.ingestPayload packet now).firstAt := by
  unfold ingestPayload
  rw [if_neg hformed]
  simp only
  split
  · exact AList.lookup_isSome.mp ‹_›
  · exact (AList.mem_insert _).mpr (.inl rfl)

theorem mem_firstAt_ingestPayload (now : Int) {b : Nat} (h : b ∈ r.firstAt) :
    b ∈ (r.ingestPayload packet now).firstAt := by
  unfold ingestPayload
  split
  · exact h
  · simp only
    split
    · exact h
    · exact (AList.mem_insert _).mpr (.inr h)

theorem mem_takeDue {b : Nat} (due : List Nat) (h : b ∈ r.firstAt) : b ∈ (r.takeDue due).firstAt ∨ b ∈ due := by
  by_cases hb : b ∈ due
  · exact .inr hb
  · refine .inl ?_
    rw [← AList.lookup_isSome] at h ⊢
    rw [takeDue, lookup_foldl_erase (fun b => b), map_id', if_neg hb]
    exact h

end FecReceiver

namespace SweepPc

def toDrop : SweepPc → List Nat
  | .idle => []
  | .due blocks => blocks
  | .checked b _ rest | .rebuilt b _ rest | .filled b _ rest => b :: rest
  | .collected _ rest => rest

end SweepPc

/-- What a step of a sweep keeps: a block that it no longer has is gone from the map it was in. -/
structure SweepStep (r : FecReceiver) (pc : SweepPc) (r' : FecReceiver) (pc' : SweepPc) : Prop where
  firstAt : r'.firstAt = r.firstAt
  received : ∀ q, (r'.received.lookup q).isSome → (r.received.lookup q).isSome ∨ ∃ b ∈ pc'.toDrop, InBlock b q
  buffered : ∀ q, (r'.dec.packetBuffer.lookup q).isSome → (r.dec.packetBuffer.lookup q).isSome
  dropped : ∀ b ∈ pc.toDrop, b ∈ pc'.toDrop ∨ ∀ q, InBlock b q → ¬(r'.received.lookup q).isSome
  forgotten : ∀ b ∈ pc.blocks, b ∈ pc'.blocks ∨
    (∃ d rest, pc = .collected d rest ∧ d.block = b) ∧ ∀ q, InBlock b q → ¬(r'.dec.packetBuffer.lookup q).isSome

theorem SweepStep.move {r : FecReceiver} {pc pc' : SweepPc} (hdrop : pc'.toDrop = pc.toDrop)
    (hblocks : pc'.blocks = pc.blocks) :
    SweepStep r pc r pc' where
  firstAt := rfl
  received _ h := .inl h
  buffered _ h := h
  dropped _ h := .inl (hdrop ▸ h)
  forgotten _ h := .inl (hblocks ▸ h)

theorem sweepStep_advance {rs : ReedSolomon} {s t : FecLink} (h : s.advance rs = some t) :
    SweepStep s.receiver s.sweeper t.receiver t.sweeper := by
  cases FecLink.advances h with
  | finish hpc | check b rest hpc | rebuild b rest hpc | skip b rest hpc =>
    rw [hpc]
    exact .move rfl rfl
  | fill b recovered rest hpc =>
    rw [hpc]
    refine ⟨rfl, fun q hq => ?_, fun _ hq => hq, fun _ hb => .inl hb, fun _ hb => .inl hb⟩
    rcases FecReceiver.lookup_fill_isSome hq with hold | hin
    · exact .inl hold
    · exact .inr ⟨b, mem_cons_self, hin⟩
  | collect b recovered rest hpc =>
    rw [hpc]
    refine ⟨FecReceiver.firstAt_dropPayloads _ b, fun _ hq => .inl (FecLink.lookup_dropPayloads hq).1,
      fun _ hq => ?_, fun b' hb' => ?_,
      fun _ hb' => .inl hb'⟩
    · rwa [FecReceiver.dec_dropPayloads] at hq
    rcases mem_cons.mp hb' with rfl | hrest
    · exact .inr fun q ⟨i, hi, heq⟩ hq => (FecLink.lookup_dropPayloads hq).2 i hi heq
    · exact .inl hrest
  | forget d rest hpc =>
    rw [hpc]
    refine ⟨FecReceiver.firstAt_forget _ d.block, fun _ hq => .inl ?_,
      fun _ hq => (FecReceiver.lookup_forget hq).1, fun _ hb => .inl hb,
      fun b hb => ?_⟩
    · rwa [FecReceiver.received_forget] at hq
    rcases mem_cons.mp hb with rfl | hrest
    · exact .inr ⟨⟨d, rest, rfl, rfl⟩, fun q hin hq => (FecReceiver.lookup_forget hq).2 hin⟩
    · exact .inl hrest

namespace FecCalls

variable {rs : ReedSolomon} {s t : FecCalls}

def Has (list : SweepPc → List Nat) (s : FecCalls) (b : Nat) : Prop :=
  b ∈ s.receiver.firstAt ∨ ∃ pc ∈ s.sweeps, b ∈ list pc

/-- Whatever is held belongs to a block that a sweep will drop. -/
structure Accounted (s : FecCalls) : Prop where
  received : ∀ q, (s.receiver.received.lookup q).isSome → ∃ b, s.Has SweepPc.toDrop b ∧ InBlock b q
  buffered : ∀ q, (s.receiver.dec.packetBuffer.lookup q).isSome → ∃ b, s.Has SweepPc.blocks b ∧ InBlock b q
  pending : ∀ packet, some packet ∈ s.ingests → s.Has SweepPc.blocks (blockStartOf (seqOf packet))

theorem accounted_start : Accounted {} where
  received _ h := by cases h
  buffered _ h := by cases h
  pending _ h := by cases h

theorem Accounted.ingest (h : s.Accounted) (hstep : s.step rs (.ingest packet now) = some t) : t.Accounted := by
  cases hstep
  have hkeep : ∀ {list b}, s.Has list b → Has list
      { s with receiver := s.receiver.ingestPayload packet now, ingests := s.ingests ++ [if
        FecReceiver.Malformed packet then none
        else some packet] } b := fun hb => hb.imp (FecReceiver.mem_firstAt_ingestPayload now) id
  refine ⟨fun q hq => ?_, fun q hq => ?_, fun p hp => ?_⟩
  · rcases FecReceiver.lookup_ingestPayload_isSome hq with hold | ⟨hformed, rfl⟩
    · obtain ⟨b, hb, hin⟩ := h.received q hold
      exact ⟨b, hkeep hb, hin⟩
    · exact ⟨_, .inl (FecReceiver.waits_ingestPayload now hformed), inBlock_seqOf packet⟩
  · rw [FecReceiver.dec_ingestPayload] at hq
    obtain ⟨b, hb, hin⟩ := h.buffered q hq
    exact ⟨b, hkeep hb, hin⟩
  · rcases mem_append.mp hp with hold | hnew
    · exact hkeep (h.pending p hold)
    · have heq := mem_singleton.mp hnew
      split at heq <;> cases heq
      exact .inl (FecReceiver.waits_ingestPayload now ‹_›)

theorem shard_cases {i : Nat} (h : s.step rs (.shard i) = some t) : ∃ packet, s.ingests[i]? = some (some packet) ∧
    t = { s with receiver := s.receiver.ingestShard packet, ingests := s.ingests.set i none } := by
  simp only [step] at h
  split at h <;> cases h
  exact ⟨_, ‹_›, rfl⟩

theorem Accounted.shard (h : s.Accounted) {i : Nat} (hstep : s.step rs (.shard i) = some t) : t.Accounted := by
  obtain ⟨packet, hi, rfl⟩ := shard_cases hstep
  have hkeep : ∀ {list b}, s.Has list b → Has list
      { s with receiver := s.receiver.ingestShard packet, ingests := s.ingests.set i none } b :=
    fun hb => hb.imp (fun hwait => (FecReceiver.firstAt_ingestShard _ packet).symm ▸ hwait) id
  refine ⟨fun q hq => ?_, fun q hq => ?_, fun p hp => ?_⟩
  · rw [FecReceiver.received_ingestShard] at hq
    obtain ⟨b, hb, hin⟩ := h.received q hq
    exact ⟨b, hkeep hb, hin⟩
  · rcases FecReceiver.lookup_ingestShard_isSome hq with hold | rfl
    · obtain ⟨b, hb, hin⟩ := h.buffered q hold
      exact ⟨b, hkeep hb, hin⟩
    · exact ⟨_, hkeep (h.pending packet (mem_of_getElem? hi)), inBlock_seqOf packet⟩
  · rcases mem_or_eq_of_mem_set hp with hold | hnone
    · exact hkeep (h.pending p hold)
    · cases hnone

theorem sweep_cases {due : List Nat} (h : s.step rs (.sweep now due) = some t) :
    t = { s with receiver := s.receiver.takeDue due, sweeps := s.sweeps ++ [.due due] } := by
  simp only [step] at h
  split at h
  · exact (Option.some.inj h).symm
  · cases h

theorem Accounted.sweep (h : s.Accounted) {due : List Nat} (hstep : s.step rs (.sweep now due) = some t) :
    t.Accounted := by
  obtain rfl := sweep_cases hstep
  -- A block that waits no longer is on the list of the new sweep.
  have hkeep : ∀ {list : SweepPc → List Nat} {b}, list (.due due) = due → s.Has list b →
      Has list { s with receiver := s.receiver.takeDue due, sweeps := s.sweeps ++ [.due due] } b := by
    intro list b hlist hb
    rcases hb with hwait | ⟨pc, hpc, hb⟩
    · rcases FecReceiver.mem_takeDue due hwait with hwait | hdue
      · exact .inl hwait
      · exact .inr ⟨.due due, mem_append_right _ (mem_singleton_self _), hlist.symm ▸ hdue⟩
    · exact .inr ⟨pc, mem_append_left _ hpc, hb⟩
  refine ⟨fun q hq => ?_, fun q hq => ?_, fun p hp => hkeep rfl (h.pending p hp)⟩
  · obtain ⟨b, hb, hin⟩ := h.received q hq
    exact ⟨b, hkeep rfl hb, hin⟩
  · obtain ⟨b, hb, hin⟩ := h.buffered q hq
    exact ⟨b, hkeep rfl hb, hin⟩

theorem advance_cases {j : Nat} (h : s.step rs (.advance j) = some t) : ∃ pc r' pc', s.sweeps[j]? = some pc ∧
    SweepStep s.receiver pc r' pc' ∧ t = { s with receiver := r', sweeps := s.sweeps.set j pc' } := by
  simp only [step] at h
  split at h
  · rename_i pc hpc
    obtain ⟨l, hl, rfl⟩ := Option.map_eq_some_iff.mp h
    exact ⟨pc, l.receiver, l.sweeper, hpc, sweepStep_advance hl, rfl⟩
  · cases h

theorem Accounted.advance (h : s.Accounted) {j : Nat} (hguard : s.Guarded (.advance j))
    (hstep : s.step rs (.advance j) = some t) : t.Accounted := by
  obtain ⟨pc, r', pc', hj, hsweep, rfl⟩ := advance_cases hstep
  -- A block stays with whoever has it, unless the sweep that moved had it and has let it go.
  have hkeep : ∀ {list : SweepPc → List Nat} {b}, s.Has list b →
      Has list { s with receiver := r', sweeps := s.sweeps.set j pc' } b ∨ (b ∈ list pc ∧ b ∉ list pc') := by
    intro list b hb
    rcases hb with hwait | ⟨pc₀, hpc₀, hb⟩
    · exact .inl (.inl (hsweep.firstAt.symm ▸ hwait))
    · rcases mem_set_of_mem hj hpc₀ pc' with rfl | hpc₀
      · by_cases hb' : b ∈ list pc'
        · exact .inl (.inr ⟨pc', mem_set_self hj pc', hb'⟩)
        · exact .inr ⟨hb, hb'⟩
      · exact .inl (.inr ⟨pc₀, hpc₀, hb⟩)
  refine ⟨fun q hq => ?_, fun q hq => ?_, fun p hp => ?_⟩
  · rcases hsweep.received q hq with hold | ⟨b, hb, hin⟩
    · obtain ⟨b, hb, hin⟩ := h.received q hold
      rcases hkeep hb with hb | ⟨hb, hgone⟩
      · exact ⟨b, hb, hin⟩
      · exact absurd hq (((hsweep.dropped b hb).resolve_left hgone) q hin)
    · exact ⟨b, .inr ⟨pc', mem_set_self hj pc', hb⟩, hin⟩
  · obtain ⟨b, hb, hin⟩ := h.buffered q (hsweep.buffered q hq)
    rcases hkeep hb with hb | ⟨hb, hgone⟩
    · exact ⟨b, hb, hin⟩
    · exact absurd hq (((hsweep.forgotten b hb).resolve_left hgone).2 q hin)
  · rcases hkeep (h.pending p hp) with hb | ⟨hb, hgone⟩
    · exact hb
    · obtain ⟨⟨d, rest, rfl, hd⟩, -⟩ := (hsweep.forgotten _ hb).resolve_left hgone
      have hwait := hguard d.block (by simp only [forgets, hj, Option.mem_some_iff]) p
        (mem_filterMap.mpr ⟨some p, hp, rfl⟩) hd.symm
      rw [hd] at hwait
      exact .inl (hsweep.firstAt.symm ▸ AList.lookup_isSome.mp hwait)

theorem Accounted.step (h : s.Accounted) {a : Act} (hguard : s.Guarded a) (hstep : s.step rs a = some t) :
    t.Accounted := by
  cases a with
  | ingest packet now => exact h.ingest hstep
  | shard i => exact h.shard hstep
  | sweep now due => exact h.sweep hstep
  | advance j => exact h.advance hguard hstep

theorem Quiet.not_has (h : s.Quiet) {list : SweepPc → List Nat} (hidle : list .idle = []) (b : Nat) :
    ¬s.Has list b := by
  rintro (hwait | ⟨pc, hpc, hb⟩)
  · rw [h.firstAt] at hwait
    exact AList.notMem_empty b hwait
  · rw [h.sweeps pc hpc, hidle] at hb
    cases hb

theorem eq_empty_of_lookup {β : Type} {m : AList fun _ : Nat => β} (h : ∀ q, ¬(m.lookup q).isSome) : m = ∅ := by
  refine AList.ext (eq_nil_iff_forall_not_mem.mpr fun e he => ?_)
  exact h e.1 (AList.lookup_isSome.mpr (AList.mem_keys.mpr (mem_map_of_mem he)))

theorem nothing_kept (rs : ReedSolomon) (acts : List Act) (s : FecCalls)
    (hrun : Run (step rs) Guarded {} acts s) (h : s.Quiet) :
    s.receiver.received = ∅ ∧ s.receiver.dec.packetBuffer = ∅ := by
  have hacc := hrun.invariant (fun h hguard hs => Accounted.step h hguard hs) accounted_start
  constructor
  · refine eq_empty_of_lookup fun q hq => ?_
    obtain ⟨b, hb, -⟩ := hacc.received q hq
    exact h.not_has rfl b hb
  · refine eq_empty_of_lookup fun q hq => ?_
    obtain ⟨b, hb, -⟩ := hacc.buffered q hq
    exact h.not_has rfl b hb

theorem quiet_of_eq {m n : Nat} (h : (s.ingests, s.sweeps, s.receiver.firstAt.keys) =
    (replicate m none, replicate n .idle, [])) : s.Quiet := by
  simp only [Prod.mk.injEq] at h
  refine ⟨fun x hx => ?_, fun pc hpc => ?_, AList.ext (map_eq_nil_iff.mp h.2.2)⟩
  · rw [h.1] at hx
    exact eq_of_mem_replicate hx
  · rw [h.2.1] at hpc
    exact eq_of_mem_replicate hpc

def latePacket : Bytes := fecHeader 3 ++ rsShard [7, 8]

def callsInTurn : List Act :=
  [.ingest [255, 0] 0, .ingest latePacket 0, .shard 1, .sweep fecBlockWait [0]] ++ replicate 6 (.advance 0)

theorem nothing_kept_in_turn : ∃ s, Run (step FecLink.tenCode) Guarded {} callsInTurn s ∧ s.Quiet ∧
    s.receiver.received = ∅ ∧ s.receiver.dec.packetBuffer = ∅ := by
  refine Run.exists_of_exec ?_ fun s hrun hs =>
    ⟨quiet_of_eq (m := 2) (n := 1) hs,
     nothing_kept FecLink.tenCode callsInTurn s hrun (quiet_of_eq (m := 2) (n := 1) hs)⟩
  decide +kernel

/-- A sweep forgets the block between the two steps of `ingest`. The shard that is then stored stays. -/
theorem shard_stays : ∃ s, AnyRun (step FecLink.tenCode) {}
    ([.ingest latePacket 0, .sweep fecBlockWait [0]] ++ replicate 6 (.advance 0) ++ [.shard 0]) s ∧
    s.Quiet ∧ s.receiver.dec.packetBuffer.keys = [3] := by
  refine Run.exists_of_exec (Q := fun s => (s.ingests, s.sweeps, s.receiver.firstAt.keys) = ([none], [.idle], []) ∧
    s.receiver.dec.packetBuffer.keys = [3]) (by decide +kernel) fun s _ hs => ⟨quiet_of_eq (m := 1) (n := 1) hs.1, hs.2⟩

end FecCalls
end Whispera
