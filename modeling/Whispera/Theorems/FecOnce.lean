import Whispera.Theorems.FecLink

/-! A payload is delivered twice only if its packet comes late, or it is recovered after it was delivered. -/

namespace Whispera
open List BigEndian ErasureCode Transition

def places (ds : List Delivery) : List (Nat × Nat) := ds.flatMap fun d => d.items.map fun e => (d.block, e.1)

theorem mem_places {ds : List Delivery} {b i : Nat} :
    (b, i) ∈ places ds ↔ ∃ d ∈ ds, d.block = b ∧ ∃ e ∈ d.items, e.1 = i := by
  simp only [places, mem_flatMap, mem_map, Prod.mk.injEq]
  constructor
  · rintro ⟨d, hd, e, he, hb, hi⟩
    exact ⟨d, hd, hb, e, he, hi⟩
  · rintro ⟨d, hd, hb, e, he, hi⟩
    exact ⟨d, hd, e, he, hb, hi⟩

theorem places_append (ds ds' : List Delivery) : places (ds ++ ds') = places ds ++ places ds' := flatMap_append

/-- Nothing of the block has been delivered when ten of its packets are there. -/
def SweepPc.First (r : FecReceiver) (ds : List Delivery) : SweepPc → Prop
  | .checked b true _ => fecK ≤ (r.dec.present b).countP Option.isSome → ∀ d ∈ ds, d.block = b → d.items = []
  | _ => True

namespace FecLink

/-- A data packet comes before payloads of its block are recovered, which is before payloads of it are
    delivered. -/
def Timely (s : FecLink) : Act → Prop
  | .arrive k _ => k % (fecK + fecM) < fecK → ∀ d ∈ s.deliveries, d.block = blockStartOf k → d.recovered = false
  | .advance => s.sweeper.First s.receiver s.deliveries
  | _ => True

instance (r : FecReceiver) (ds : List Delivery) : (pc : SweepPc) → Decidable (pc.First r ds)
  | .checked _ true _ => inferInstanceAs (Decidable (_ → ∀ d ∈ ds, _))
  | .idle | .due _ | .checked _ false _ | .rebuilt _ _ _ | .filled _ _ _ | .collected _ _ => isTrue trivial

instance (s : FecLink) : (a : Act) → Decidable (s.Timely a)
  | .arrive _ _ => inferInstanceAs (Decidable (_ → ∀ d ∈ s.deliveries, _))
  | .advance => inferInstanceAs (Decidable (s.sweeper.First s.receiver s.deliveries))
  | .shard | .sweep _ _ => isTrue trivial

variable {rs : ReedSolomon} {bs : Blocks} {s t : FecLink}

/-- No place has been delivered twice, nor can be. -/
structure Once (s : FecLink) : Prop where
  nodup : (places s.deliveries).Nodup
  /-- What the receiver holds has not been delivered. -/
  fresh : ∀ n < lapBlocks, ∀ i < fecK, (s.receiver.received.lookup (seqAt (startOf n) i)).isSome →
    (startOf n, i) ∉ places s.deliveries
  /-- What was not recovered has come. -/
  came : ∀ d ∈ s.deliveries, d.recovered = false → ∀ e ∈ d.items, d.block + e.1 ∈ s.arrived
  held : ∀ n < lapBlocks, ∀ i < fecK, (s.receiver.received.lookup (seqAt (startOf n) i)).isSome →
    (fecK + fecM) * n + i ∈ s.arrived ∨ ∃ rest, s.sweeper = .filled (startOf n) true rest
  rebuilt : ∀ b recovered rest, s.sweeper = .rebuilt b recovered rest → recovered ≠ [] →
    ∀ d ∈ s.deliveries, d.block = b → d.items = []

theorem once_start : Once {} where
  nodup := nodup_nil
  fresh := by
    intro n _ i _ h
    cases h
  came := by simp [deliveries]
  held := by
    intro n _ i _ h
    cases h
  rebuilt := by simp

theorem Once.arrive (h : Once s) {k : Nat} {now : Int} (hapt : s.Undisturbed (.arrive k now))
    (htimely : s.Timely (.arrive k now))
    (hstep : s.step rs ((bs.packets rs).map Prod.snd) (.arrive k now) = some t) : Once t := by
  obtain ⟨-, hnew, packet, hpacket, rfl⟩ := arrive_cases hstep
  -- a place that now holds a payload held one before, or is that of the packet
  have hlookup : ∀ n < lapBlocks, ∀ i < fecK,
      ((s.receiver.ingestPayload packet now).received.lookup (seqAt (startOf n) i)).isSome →
      (s.receiver.received.lookup (seqAt (startOf n) i)).isSome ∨ k = (fecK + fecM) * n + i := by
    intro n hn i hi hsome
    by_cases hk : k = (fecK + fecM) * n + i
    · exact .inr hk
    · rw [lookup_arrive hapt.1 hpacket hn hi hk] at hsome
      exact .inl hsome
  refine ⟨h.nodup, fun n hn i hi hsome => ?_, fun d hd hno e he => mem_cons_of_mem _ (h.came d hd hno e he),
    fun n hn i hi hsome => ?_, h.rebuilt⟩
  · rcases hlookup n hn i hi hsome with hold | hk
    · exact h.fresh n hn i hi hold
    · intro hplace
      obtain ⟨d, hd, hb, e, he, rfl⟩ := mem_places.mp hplace
      have hlt : e.1 < fecK + fecM := Nat.lt_add_right _ hi
      have hno : d.recovered = false := by
        refine htimely ?_ d hd ?_
        · rwa [hk, Nat.mul_add_mod, Nat.mod_eq_of_lt hlt]
        · rw [hb, hk, blockStartOf_place hn hlt]
      have hcame := h.came d hd hno e he
      rw [hb, startOf_eq hn, ← hk] at hcame
      exact hnew hcame
  · rcases hlookup n hn i hi hsome with hold | rfl
    · exact (h.held n hn i hi hold).imp_left (mem_cons_of_mem _)
    · exact .inl mem_cons_self

theorem Once.shard (h : Once s) (hstep : s.step rs ((bs.packets rs).map Prod.snd) .shard = some t) : Once t := by
  obtain ⟨k, -, rfl⟩ := shard_cases hstep
  refine ⟨h.nodup, ?_, h.came, ?_, h.rebuilt⟩
  · rw [FecReceiver.received_ingestShard]
    exact h.fresh
  · rw [FecReceiver.received_ingestShard]
    exact h.held

theorem Once.move (h : Once s) (hreceived : t.receiver.received = s.receiver.received)
    (harrived : t.arrived = s.arrived)
    (hfilled : ∀ b rest, s.sweeper ≠ .filled b true rest)
    (hrebuilt : ∀ b recovered rest, t.sweeper = .rebuilt b recovered rest → recovered ≠ [] →
      ∀ d ∈ s.deliveries, d.block = b → d.items = [])
    (hdeliveries : t.deliveries = s.deliveries) : Once t := by
  refine ⟨?_, ?_, ?_, ?_, ?_⟩
  · rw [hdeliveries]
    exact h.nodup
  · rw [hdeliveries, hreceived]
    exact h.fresh
  · rw [hdeliveries, harrived]
    exact h.came
  · rw [hreceived, harrived]
    intro n hn i hi hsome
    rcases h.held n hn i hi hsome with hcame | ⟨rest, hpc⟩
    · exact .inl hcame
    · exact absurd hpc (hfilled _ rest)
  · rw [hdeliveries]
    exact hrebuilt

theorem Once.sweep (h : Once s) {now : Int} {due : List Nat}
    (hstep : s.step rs ((bs.packets rs).map Prod.snd) (.sweep now due) = some t) : Once t := by
  obtain ⟨hidle, -, rfl⟩ := sweep_cases hstep
  exact h.move rfl rfl (by simp [hidle]) (by simp) (by simp [deliveries, hidle])

variable {b : Nat} {rest : List Nat} {r : FecReceiver} {recovered : Bool} (ds : List Delivery)

theorem Once.fill (h : Once s) (hplace : InPlace rs bs s) {recovered : List Bytes}
    (hpc : s.sweeper = .rebuilt b recovered rest) :
    Once { s with receiver := s.receiver.fill b recovered, sweeper := .filled b (!recovered.isEmpty) rest } := by
  have hdeliveries : { s with
    receiver := s.receiver.fill b recovered, sweeper := .filled b (!recovered.isEmpty) rest }.deliveries =
      s.deliveries := by simp [deliveries, hpc]
  by_cases hnil : recovered = []
  · subst hnil
    refine h.move ?_ rfl (by simp [hpc]) (by simp) hdeliveries
    rw [FecReceiver.fill, fillLoop_nil]
  · obtain ⟨n, hn, block, hblock, rfl, -⟩ := hplace.rebuilt b recovered rest hpc hnil
    have hnone := h.rebuilt _ recovered rest hpc hnil
    -- a place of another block is as it was
    have hother : ∀ m < lapBlocks, ∀ i < fecK, m ≠ n →
        (s.receiver.fill (startOf n) recovered).received.lookup (seqAt (startOf m) i) =
          s.receiver.received.lookup (seqAt (startOf m) i) := by
      intro m hm i hi hne
      refine FecReceiver.lookup_fill_other fun j hj heq => hne ?_
      exact (place_inj hm hn (Nat.lt_add_right _ hi) (Nat.lt_add_right _ hj) heq).1
    refine ⟨hdeliveries ▸ h.nodup, ?_, hdeliveries ▸ h.came, ?_, by simp⟩
    · rw [hdeliveries]
      intro m hm i hi hsome
      by_cases hm' : m = n
      · subst hm'
        intro hmem
        obtain ⟨d, hd, hb, e, he, -⟩ := mem_places.mp hmem
        rw [hnone d hd hb] at he
        cases he
      · rw [hother m hm i hi hm'] at hsome
        exact h.fresh m hm i hi hsome
    · intro m hm i hi hsome
      by_cases hm' : m = n
      · subst hm'
        refine .inr ⟨rest, ?_⟩
        cases recovered with
        | nil => exact absurd rfl hnil
        | cons p recovered => rfl
      · rw [hother m hm i hi hm'] at hsome
        rcases h.held m hm i hi hsome with hcame | ⟨rest', hpc'⟩
        · exact .inl hcame
        · rw [hpc] at hpc'
          cases hpc'

theorem nodup_payloads (r : FecReceiver) (b : Nat) : ((r.payloads b).map Prod.fst).Nodup := by
  refine (nodup_range : (range fecK).Nodup).sublist ?_
  rw [FecReceiver.payloads, map_filterMap]
  refine filterMap_range_sublist fun i hi x hx => ?_
  obtain ⟨e, he, rfl⟩ := Option.map_eq_some_iff.mp hx
  rw [getElem?_range hi]
  split at he
  · cases he
  · split at he <;> cases he
    rfl

theorem mem_places_payloads {x : Nat × Nat} (h : x ∈ places [{ block := b, recovered, items := r.payloads b }]) :
    x.1 = b ∧ x.2 < fecK ∧ (r.received.lookup (seqAt b x.2)).isSome := by
  obtain ⟨d, hd, hb, e, he, hi⟩ := mem_places.mp h
  cases mem_singleton.mp hd
  obtain ⟨hlt, hlookup, -⟩ := FecReceiver.mem_payloads he
  refine ⟨hb.symm, hi ▸ hlt, ?_⟩
  rw [← hi, hlookup]
  rfl

theorem lookup_dropPayloads {b q : Nat} (h : ((r.dropPayloads b).received.lookup q).isSome) :
    (r.received.lookup q).isSome ∧ ∀ i < fecK + fecM, seqAt b i ≠ q := by
  rw [FecReceiver.dropPayloads, lookup_foldl_erase] at h
  split at h
  · cases h
  · rename_i hnot
    exact ⟨h, fun i hi heq => hnot (mem_map.mpr ⟨i, mem_range.mpr hi, heq⟩)⟩

theorem Once.collect (h : Once s) (hplace : InPlace rs bs s) (hpc : s.sweeper = .filled b recovered rest) :
    Once { s with
      receiver := s.receiver.dropPayloads b
      sweeper := .collected { block := b, recovered, items := s.receiver.payloads b } rest } := by
  obtain ⟨n, hn, block, hblock, rfl⟩ := hplace.sweeping b (by rw [hpc]; exact mem_cons_self)
  have hold : s.deliveries = s.delivered := by simp [deliveries, hpc]
  have hnodup := h.nodup
  have hfresh := h.fresh
  have hcame := h.came
  rw [hold] at hnodup hfresh hcame
  refine ⟨?_, ?_, ?_, ?_, by simp⟩
  · simp only [deliveries, places_append]
    refine Nodup.append hnodup ?_ fun x hx hx' => ?_
    · have hmap := (nodup_payloads s.receiver (startOf n)).map (f := Prod.mk (startOf n)) fun i j hij =>
        (Prod.mk.inj hij).2
      simpa [places, Function.comp_def] using hmap
    · obtain ⟨hb, hi, hsome⟩ := mem_places_payloads hx'
      exact hfresh n hn x.2 hi hsome (hb ▸ hx)
  · intro m hm i hi hsome
    obtain ⟨hsome, hdropped⟩ := lookup_dropPayloads hsome
    simp only [deliveries, places_append, mem_append, not_or]
    refine ⟨hfresh m hm i hi hsome, fun hmem => ?_⟩
    obtain ⟨hb, -, -⟩ := mem_places_payloads hmem
    rw [startOf_inj hm hn hb] at hdropped
    exact hdropped i (Nat.lt_add_right _ hi) rfl
  · simp only [deliveries]
    refine forall_mem_snoc hcame fun hno e he => ?_
    obtain ⟨hi, hlookup, -⟩ := FecReceiver.mem_payloads he
    rcases h.held n hn e.1 hi (by rw [hlookup]; rfl) with hin | ⟨rest', hpc'⟩
    · rwa [startOf_eq hn]
    · rw [hpc] at hpc'
      cases hpc'
      cases hno
  · intro m hm i hi hsome
    obtain ⟨hsome, hdropped⟩ := lookup_dropPayloads hsome
    rcases h.held m hm i hi hsome with hin | ⟨rest', hpc'⟩
    · exact .inl hin
    · rw [hpc] at hpc'
      rw [(SweepPc.filled.inj hpc').1] at hdropped
      exact absurd rfl (hdropped i (Nat.lt_add_right _ hi))

theorem Once.advance (h : Once s) (hplace : InPlace rs bs s) (hfirst : s.sweeper.First s.receiver s.deliveries)
    (hstep : s.advance rs = some t) : Once t := by
  cases advances hstep with
  | finish hpc | check b rest hpc | skip b rest hpc =>
    exact h.move rfl rfl (by simp [hpc]) (by simp) (by simp [deliveries, hpc])
  | rebuild b rest hpc =>
    refine h.move rfl rfl (by simp [hpc]) ?_ (by simp [deliveries, hpc])
    rintro _ _ _ ⟨⟩ hne
    rw [hpc] at hfirst
    refine hfirst (Nat.le_of_not_lt fun hfew => hne ?_)
    exact FECDecoder.reconstruct_few hfew
  | fill b recovered rest hpc => exact h.fill hplace hpc
  | collect b recovered rest hpc => exact h.collect hplace hpc
  | forget d rest hpc =>
    exact h.move (FecReceiver.received_forget _ _) rfl (by simp [hpc]) (by simp) (by simp [deliveries, hpc])

theorem Once.step (h : Once s) (hplace : InPlace rs bs s) {a : Act} (hapt : s.Undisturbed a) (htimely : s.Timely a)
    (hstep : s.step rs ((bs.packets rs).map Prod.snd) a = some t) : Once t := by
  cases a with
  | arrive k now => exact h.arrive hapt htimely hstep
  | shard => exact h.shard hstep
  | sweep now due => exact h.sweep hstep
  | advance => exact h.advance hplace htimely hstep

def placed (bs : Blocks) : List ((Nat × Nat) × Bytes) :=
  (bs.blocks.mapIdx fun n block => block.mapIdx fun i p => ((startOf n, i), p)).flatten

theorem map_snd_placed (bs : Blocks) : (placed bs).map Prod.snd = bs.blocks.flatten := by
  have hblock : ∀ (n : Nat) (block : List Bytes),
      (block.mapIdx fun i p => ((startOf n, i), p)).map Prod.snd = block := by
    intro n block
    refine ext_getElem? fun i => ?_
    rw [getElem?_map, getElem?_mapIdx, Option.map_map]
    exact Option.map_id'
  rw [placed, map_flatten]
  congr 1
  refine ext_getElem? fun n => ?_
  rw [getElem?_map, getElem?_mapIdx, Option.map_map]
  simp only [Function.comp_def, hblock]
  exact Option.map_id'

def withPlaces (ds : List Delivery) : List ((Nat × Nat) × Bytes) :=
  ds.flatMap fun d => d.items.map fun e => ((d.block, e.1), e.2)

theorem map_fst_withPlaces : (withPlaces ds).map Prod.fst = places ds := by
  simp [withPlaces, places, map_flatMap, Function.comp_def]

theorem map_snd_withPlaces : (withPlaces ds).map Prod.snd = ds.flatMap fun d => d.items.map Prod.snd := by
  simp [withPlaces, map_flatMap, Function.comp_def]

theorem mem_placed_of_placed {ds : List Delivery} (h : ∀ d ∈ ds, bs.Placed d) {x : (Nat × Nat) × Bytes}
    (hx : x ∈ withPlaces ds) : x ∈ placed bs ∧ x.2 ≠ [] := by
  obtain ⟨d, hd, hx⟩ := mem_flatMap.mp hx
  obtain ⟨e, he, rfl⟩ := mem_map.mp hx
  obtain ⟨n, -, block, hblock, hstart, hitems, -⟩ := h d hd
  obtain ⟨-, hget, hne⟩ := hitems e he
  have hrow : (bs.blocks.mapIdx fun n block => block.mapIdx fun i p => ((startOf n, i), p))[n]? =
      some (block.mapIdx fun i p => ((startOf n, i), p)) := by
    rw [getElem?_mapIdx, hblock]
    rfl
  have hitem : (block.mapIdx fun i p => ((startOf n, i), p))[e.1]? = some ((d.block, e.1), e.2) := by
    rw [getElem?_mapIdx, hget, hstart]
    rfl
  exact ⟨mem_flatten.mpr ⟨_, mem_of_getElem? hrow, mem_of_getElem? hitem⟩, hne⟩

theorem subperm_payloads {ds : List Delivery} (hnodup : (places ds).Nodup) (h : ∀ d ∈ ds, bs.Placed d) :
    (ds.flatMap fun d => d.items.map Prod.snd).Subperm bs.payloads := by
  rw [← map_fst_withPlaces] at hnodup
  obtain ⟨l, hperm, hsub⟩ : (withPlaces ds).Subperm (placed bs) :=
    subperm_of_subset (Nodup.of_map _ hnodup) fun x hx => (mem_placed_of_placed h hx).1
  refine ⟨(l.map Prod.snd).filter fun p => p ≠ [], ?_, ?_⟩
  · have hfull : (l.map Prod.snd).filter (fun p => p ≠ []) = l.map Prod.snd := by
      refine filter_eq_self.mpr fun p hp => ?_
      obtain ⟨x, hx, rfl⟩ := mem_map.mp hp
      exact decide_eq_true (mem_placed_of_placed h (hperm.mem_iff.mp hx)).2
    rw [hfull, ← map_snd_withPlaces]
    exact hperm.map _
  · rw [Blocks.payloads, ← map_snd_placed]
    exact (hsub.map _).filter _

/-- In a run without late packets that `ingest` does not disturb, no payload is delivered more often than
    sent. -/
theorem delivered_once (rs : ReedSolomon) (sends : List Send)
    (hrec : ∀ block ∈ (Blocks.ofSends sends).blocks, rs.Recovers (codeData block)) (acts : List Act) (s : FecLink)
    (hrun : Run (step rs ((session rs {} sends).1.map Prod.snd)) (fun s a => s.Undisturbed a ∧ s.Timely a) {} acts s) :
    (s.delivered.flatMap fun d => d.items.map Prod.snd).Subperm
      ((sends.map Send.payload).filter fun p => p ≠ [] ∧ p.length ≤ datagramMaxProtected) := by
  rw [session_packets] at hrun
  obtain ⟨hplace, honce⟩ := hrun.invariant (I := fun s => InPlace rs (Blocks.ofSends sends) s ∧ Once s)
    (fun h hapt hs => ⟨h.1.step hrec hapt.1 hs, h.2.step h.1 hapt.1 hapt.2 hs⟩) ⟨inPlace_start, once_start⟩
  have hpayloads : (Blocks.ofSends sends).payloads =
      (sends.map Send.payload).filter fun p => p ≠ [] ∧ p.length ≤ datagramMaxProtected :=
    Blocks.payloads_send sends Blocks.start 0
  rw [← hpayloads]
  refine subperm_payloads ?_ fun d hd => hplace.placed d (mem_append_left _ hd)
  refine honce.nodup.sublist ?_
  rw [deliveries, places_append]
  exact sublist_append_left _ _

theorem delivered_once_from_ten : ∃ s, Run (step tenCode tenPackets) (fun s a => s.Undisturbed a ∧ s.Timely a) {}
    (tenArrivals ++ sweepOne fecBlockWait 0) s ∧
    (s.delivered.flatMap fun d => d.items.map Prod.snd) = tenSends.map Send.payload ∧
    (s.delivered.flatMap fun d => d.items.map Prod.snd).Subperm
      ((tenSends.map Send.payload).filter fun p => p ≠ [] ∧ p.length ≤ datagramMaxProtected) := by
  refine Run.exists_of_exec ?_ fun s hrun hs => ⟨hs, delivered_once tenCode tenSends recovers_tenCode _ s hrun⟩
  decide +kernel

/-- The first packet comes after its payload was recovered, and its payload is delivered once more. -/
theorem late_packet_is_delivered_again : ∃ s, AnyRun (step tenCode tenPackets) {}
    (tenArrivals ++ sweepOne fecBlockWait 0 ++ [.advance, .arrive 0 fecBlockWait, .shard] ++
     sweepOne (2 * fecBlockWait) 0) s ∧
    (s.delivered.flatMap fun d => d.items.map Prod.snd) = tenSends.map Send.payload ++ [[1]] :=
  AnyRun.exists_of_exec (by decide +kernel)

end FecLink
end Whispera
