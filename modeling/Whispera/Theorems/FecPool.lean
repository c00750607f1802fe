import Whispera.FecPool

/-! The shards of a block are in buffers that the longest protected payload fits in (`Filled`), so that each
can be extended to the longest of them. -/

namespace Whispera
open List Exec

theorem returns_getPacketBuf (pool : PacketPool) (size : Nat) : Returns (pool.getPacketBuf size) fun r =>
    r.1.len = size ∧ (size ≤ packetPoolSize → packetPoolSize ≤ r.1.cap) := by
  have hbig := (pool.gets pool.drawn).big
  unfold PacketPool.getPacketBuf
  dsimp only
  split
  · refine returns_ret.mpr ⟨length_replicate, fun hle => ?_⟩
    omega
  · refine (Slice.returns_upTo (Nat.le_of_not_lt ‹_›)).bind fun buf hbuf => returns_ret.mpr ⟨hbuf.1, fun _ => ?_⟩
    exact hbuf.2 ▸ hbig

theorem returns_putHeader {buf : Slice UInt8} (seqNum : Nat) (h : 7 ≤ buf.len) :
    Returns (putHeader buf seqNum) fun b => b.len = buf.len := by
  refine (Slice.returns_store _ (by omega)).bind fun b0 hb0 => ?_
  refine (Slice.returns_copyAt _ (by decide) (by omega)).bind fun b1 hb1 => ?_
  refine (Slice.returns_store _ (by omega)).bind fun b2 hb2 => ?_
  refine (Slice.returns_store _ (by omega)).mono fun b3 hb3 => ?_
  omega

/-- The first steps of a packet: a buffer of the pool of its length, with the header. -/
theorem returns_packet (pool : PacketPool) (seqNum : Nat) {size : Nat} (hsize : 7 ≤ size) :
    Returns (pool.getPacketBuf size) fun r => Returns (r.1.upTo size) fun buf =>
      Returns (putHeader buf seqNum) fun b => b.len = size := by
  refine (returns_getPacketBuf pool size).mono fun r hr => ?_
  refine (Slice.returns_upTo (hr.1 ▸ r.1.fits)).mono fun buf hbuf => ?_
  exact (returns_putHeader seqNum (by omega)).mono fun b hb => hb.trans hbuf.1

/-- The table has a shard at the place, which is as `P` says. -/
def HasShard (shards : List (Option (Slice UInt8))) (i : Nat) (P : Slice UInt8 → Prop) : Prop :=
  ∃ b, shards[i]? = some (some b) ∧ P b

section
variable {shards : List (Option (Slice UInt8))} {i j : Nat} {P Q : Slice UInt8 → Prop} {b : Slice UInt8}

theorem HasShard.mono (h : HasShard shards i P) (hPQ : ∀ b, P b → Q b) : HasShard shards i Q := by
  obtain ⟨b, hb, hP⟩ := h
  exact ⟨b, hb, hPQ b hP⟩

theorem HasShard.set_ne {x : Option (Slice UInt8)} (h : HasShard shards j P) (hne : i ≠ j) :
    HasShard (shards.set i x) j P := by
  obtain ⟨b, hb, hP⟩ := h
  exact ⟨b, (getElem?_set_ne hne).trans hb, hP⟩

theorem hasShard_set_succ (h : ∀ j < i, HasShard shards j P) (hi : i < shards.length) (hb : P b) :
    ∀ j < i + 1, HasShard (shards.set i (some b)) j P := by
  intro j hj
  rcases Nat.lt_succ_iff_lt_or_eq.mp hj with hlt | rfl
  · exact (h j hlt).set_ne (Nat.ne_of_gt hlt)
  · exact ⟨b, getElem?_set_self hi, hb⟩

end

namespace PoolEncoder

/-- The shard is no longer than the longest, and has room for the longest that there can be. -/
def Fits (size : Nat) (b : Slice UInt8) : Prop := b.len ≤ size ∧ packetPoolSize ≤ b.cap

/-- The shards so far fit the buffers that they are in. -/
structure Filled (fe : PoolEncoder) : Prop where
  table : fe.shards.length = fecK + fecM
  shards : ∀ i < fe.idx, HasShard fe.shards i (Fits fe.shardSize)
  short : fe.shardSize ≤ 2 + datagramMaxProtected
  encoded : ∀ given ∈ fe.encoded, SameLength given

variable {fe : PoolEncoder}

theorem Filled.encodeFEC (h : fe.Filled) {data : Bytes} (seqNum : Nat) (hroom : fe.idx < fecK)
    (hdata : data.length ≤ datagramMaxProtected) :
    Returns (fe.encodeFEC data seqNum) fun r => r.2.Filled ∧ r.2.idx = fe.idx + 1 := by
  have hidx : fe.idx < fe.shards.length := by
    rw [h.table]
    exact lt_of_lt_of_le hroom (Nat.le_add_right _ _)
  refine (returns_packet fe.pool seqNum (by omega)).bind fun (buf, pool) hbuf => hbuf.bind fun buf hbuf =>
    hbuf.bind fun buf hlen => ?_
  refine (Slice.returns_copyAt _ (by decide) (by omega)).bind fun b1 hb1 => ?_
  refine (Slice.returns_copyAt _ (by omega) le_rfl).bind fun b2 hb2 => ?_
  refine (returns_getPacketBuf _ _).bind ?_
  rintro ⟨shardBuf, pool⟩ ⟨hshardLen, hbig⟩
  refine (Slice.returns_upTo (hshardLen ▸ shardBuf.fits)).bind fun shardBuf hshardBuf => ?_
  refine (Slice.returns_part (by omega) (by omega)).bind fun shard _ => ?_
  refine (Slice.returns_copyAt _ (Nat.zero_le _) le_rfl).bind fun b hb => ?_
  have hcap : packetPoolSize ≤ b.cap := by
    rw [hb.2, hshardBuf.2]
    exact hbig (Nat.le_trans (Nat.add_le_add_left hdata 2) (by decide))
  refine (returns_modify _ hidx).bind ?_
  rintro _ ⟨_, -, rfl⟩
  refine returns_ret.mpr ⟨⟨?_, ?_, ?_, h.encoded⟩, rfl⟩
  · rw [length_set, h.table]
  · refine hasShard_set_succ (fun i hi => (h.shards i hi).mono fun b hb => ?_) hidx ⟨?_, hcap⟩
    · exact ⟨le_trans hb.1 (Nat.le_max_left _ _), hb.2⟩
    · rw [hb.1, hshardBuf.1]
      exact Nat.le_max_right _ _
  · exact Nat.max_le.mpr ⟨h.short, Nat.add_le_add_left hdata 2⟩

variable {size : Nat} {shards : List (Option (Slice UInt8))}

theorem returns_extend (shard : Slice UInt8) (hcap : size ≤ shard.cap) :
    Returns (extend shard size) fun b => b.len = size := by
  refine (Slice.returns_upTo hcap).bind fun b0 hb0 => ?_
  refine returns_foldlM_range (I := fun _ (b : Slice UInt8) => b.len = size) hb0.1 fun j hj b hb => ?_
  exact (Slice.returns_store 0 (by omega)).mono fun b' hb' => hb'.1.trans hb

/-- The shards before `i` are extended, and the others can be. -/
structure Extended (size i : Nat) (shards : List (Option (Slice UInt8))) : Prop where
  table : shards.length = fecK + fecM
  done : ∀ j < i, HasShard shards j fun b => b.len = size
  left : ∀ j < fecK, i ≤ j → HasShard shards j (Fits size)

theorem Extended.extendShard {i : Nat} (h : Extended size i shards) (hi : i < fecK) (hsize : size ≤ packetPoolSize) :
    Returns (PoolEncoder.extendShard size shards i) (Extended size (i + 1)) := by
  obtain ⟨b, hb, hlen, hcap⟩ := h.left i hi le_rfl
  have hroom : i < shards.length := (List.getElem?_eq_some_iff.mp hb).1
  unfold PoolEncoder.extendShard
  rw [index_eq hb, ret_bind]
  split
  · refine (returns_extend b (le_trans hsize hcap)).bind fun b' hb' => ?_
    refine (returns_modify _ hroom).mono ?_
    rintro _ ⟨_, -, rfl⟩
    refine ⟨by rw [length_set, h.table], hasShard_set_succ h.done hroom hb', fun j hj hle => ?_⟩
    exact (h.left j hj (Nat.le_of_succ_le hle)).set_ne (Nat.ne_of_lt hle)
  · rename_i hlong
    refine returns_ret.mpr ⟨h.table, fun j hj => ?_, fun j hj hle => h.left j hj (Nat.le_of_succ_le hle)⟩
    rcases Nat.lt_succ_iff_lt_or_eq.mp hj with hlt | rfl
    · exact h.done j hlt
    · exact ⟨b, hb, le_antisymm hlen (Nat.le_of_not_lt hlong)⟩

theorem returns_addParities (pool : PacketPool) (htable : shards.length = fecK + fecM)
    (hdone : ∀ j < fecK, HasShard shards j fun b => b.len = size) :
    Returns ((range fecM).foldlM (addParity size) (shards, pool)) fun st =>
      st.1.length = fecK + fecM ∧ ∀ j < fecK + fecM, HasShard st.1 j fun b => b.len = size := by
  refine returns_foldlM_range (I := fun i (st : List (Option (Slice UInt8)) × PacketPool) =>
    st.1.length = fecK + fecM ∧ ∀ j < fecK + i, HasShard st.1 j fun b =>
    b.len = size) ⟨htable, hdone⟩ fun i hi st hst => ?_
  obtain ⟨htable, hdone⟩ := hst
  refine (returns_getPacketBuf _ _).bind ?_
  rintro ⟨buf, pool⟩ ⟨hbuf, -⟩
  refine (Slice.returns_upTo (hbuf ▸ buf.fits)).bind fun buf hbuf => ?_
  have hroom : fecK + i < st.1.length := htable ▸ Nat.add_lt_add_left hi fecK
  refine (returns_modify _ hroom).bind ?_
  rintro _ ⟨_, -, rfl⟩
  exact returns_ret.mpr ⟨by rw [length_set, htable], hasShard_set_succ hdone hroom hbuf.1⟩

theorem sameLength_given (htable : shards.length = fecK + fecM)
    (hdone : ∀ j < fecK + fecM, HasShard shards j fun b => b.len = size) :
    SameLength (shards.map fun shard => (shardAt shard).elems) := by
  have hall : ∀ s ∈ shards.map fun shard => (shardAt shard).elems, s.length = size := by
    intro s hs
    obtain ⟨x, hx, rfl⟩ := mem_map.mp hs
    obtain ⟨i, hi⟩ := mem_iff_getElem?.mp hx
    obtain ⟨b, hb, hlen⟩ := hdone i (htable ▸ (List.getElem?_eq_some_iff.mp hi).1)
    obtain rfl := Option.some.inj (hi.symm.trans hb)
    exact (Slice.length_elems b).trans hlen
  intro s hs t ht
  rw [hall s hs, hall t ht]

theorem returns_writeParities (parity : List Bytes) (htable : shards.length = fecK + fecM) :
    Returns ((range fecM).foldlM (writeParity parity) shards) fun t => t.length = fecK + fecM := by
  refine returns_foldlM_range (I := fun _ (t : List (Option (Slice UInt8))) =>
    t.length = fecK + fecM) htable fun i hi t ht => ?_
  have hroom : fecK + i < t.length := ht ▸ Nat.add_lt_add_left hi fecK
  unfold writeParity
  rw [index_eq (getElem?_eq_getElem hroom), ret_bind]
  refine (Slice.returns_copyAt _ (Nat.zero_le _) le_rfl).bind fun b _ => (returns_modify _ hroom).mono ?_
  rintro _ ⟨_, -, rfl⟩
  rw [length_set, ht]

theorem returns_parityPackets (pool : PacketPool) (baseSeq : Nat) (htable : shards.length = fecK + fecM) :
    Returns ((range fecM).foldlM (parityPacket shards baseSeq) ([], pool)) fun _ => True := by
  refine returns_foldlM_range (I := fun _ _ => True) trivial fun i hi st _ => ?_
  unfold parityPacket
  rw [index_eq (getElem?_eq_getElem (htable ▸ Nat.add_lt_add_left hi fecK)), ret_bind]
  refine (returns_packet _ _ (by omega)).bind fun (buf, pool) hbuf => hbuf.bind fun buf hbuf =>
    hbuf.bind fun buf hlen => ?_
  exact (Slice.returns_copyAt _ (by omega) le_rfl).bind fun b _ => returns_ret.mpr trivial

/-- The encoder with another pool and another table of the same length. -/
def SameBut (fe fe' : PoolEncoder) : Prop :=
  ∃ pool shards, fe' = { fe with pool, shards } ∧ shards.length = fe.shards.length

theorem returns_releases {n : Nat} (fe : PoolEncoder) (hn : n ≤ fe.shards.length) :
    Returns ((range n).foldlM releaseShard fe) (SameBut fe) := by
  refine returns_foldlM_range (I := fun _ => SameBut fe) ⟨fe.pool, fe.shards, rfl, rfl⟩ fun i hi t ht => ?_
  obtain ⟨pool, shards, rfl, hlen⟩ := ht
  have hroom : i < shards.length := by omega
  unfold releaseShard
  rw [index_eq (getElem?_eq_getElem hroom), ret_bind]
  cases shards[i] with
  | none => exact returns_ret.mpr ⟨pool, shards, rfl, hlen⟩
  | some b =>
    refine (returns_modify _ hroom).bind ?_
    rintro _ ⟨_, -, rfl⟩
    exact returns_ret.mpr ⟨_, _, rfl, by rw [length_set, hlen]⟩

theorem filled_empty (hidx : fe.idx = 0) (htable : fe.shards.length = fecK + fecM) (hsize : fe.shardSize = 0)
    (hencoded : ∀ given ∈ fe.encoded, SameLength given) : fe.Filled where
  table := htable
  shards i hi := absurd (hidx ▸ hi) (Nat.not_lt_zero i)
  short := hsize ▸ Nat.zero_le _
  encoded := hencoded

theorem returns_finish (baseSeq : Nat) (parity : Option (List Bytes)) (htable : fe.shards.length = fecK + fecM)
    (hencoded : ∀ given ∈ fe.encoded, SameLength given) :
    Returns (fe.finish baseSeq parity) fun r => r.2.Filled ∧ r.2.idx = 0 := by
  cases parity with
  | none =>
    refine Returns.bind (P := fun fe' => fe'.Filled ∧ fe'.idx = 0) ?_ fun fe' hfe' => returns_ret.mpr hfe'
    refine (returns_releases _ le_rfl).bind ?_
    rintro _ ⟨pool, shards, rfl, hlen⟩
    exact returns_ret.mpr ⟨filled_empty rfl (hlen.trans htable) rfl hencoded, rfl⟩
  | some parity =>
    refine (returns_writeParities parity htable).bind fun shards hshards => ?_
    refine (returns_parityPackets fe.pool baseSeq hshards).bind ?_
    rintro ⟨packets, pool⟩ -
    refine (returns_releases _ (by exact le_of_eq hshards.symm)).bind ?_
    rintro _ ⟨pool, shards', rfl, hlen⟩
    exact returns_ret.mpr ⟨filled_empty rfl (hlen.trans hshards) rfl hencoded, rfl⟩

theorem Filled.getParityPackets (h : fe.Filled) (baseSeq : Nat) (hfull : fe.idx = fecK) :
    Returns (fe.getParityPackets baseSeq) fun r => r.2.Filled ∧ r.2.idx = 0 := by
  unfold PoolEncoder.getParityPackets
  rw [if_neg (by rw [hfull]; exact lt_irrefl _)]
  have hsize : fe.shardSize ≤ packetPoolSize := le_trans h.short (by decide)
  have hstart : Extended fe.shardSize 0 fe.shards :=
    ⟨h.table, fun j hj => absurd hj (Nat.not_lt_zero j), fun j hj _ => h.shards j (hfull ▸ hj)⟩
  refine (returns_foldlM_range hstart fun i hi t ht => ht.extendShard hi hsize).bind fun shards hshards => ?_
  refine (returns_addParities fe.pool hshards.table hshards.done).bind ?_
  rintro ⟨shards, pool⟩ ⟨htable, hdone⟩
  exact returns_finish baseSeq _ htable
    (forall_mem_append.mpr ⟨h.encoded, forall_mem_singleton.mpr (sameLength_given htable hdone)⟩)

end PoolEncoder

namespace PoolSender

/-- The counters agree. -/
structure Counted (p : PoolSender) : Prop where
  cnt : p.cnt = p.enc.idx
  filled : p.enc.Filled

variable {p : PoolSender}

section
variable (h : p.Counted)
include h

theorem Counted.encodeNext (payload : Bytes) (hroom : p.cnt < fecK) (hpayload : payload.length ≤ datagramMaxProtected) :
    Returns (p.encodeNext payload) fun r => r.2.Counted ∧ r.2.cnt = p.cnt + 1 := by
  refine (h.filled.encodeFEC _ (h.cnt ▸ hroom) hpayload).bind ?_
  rintro ⟨buf, enc⟩ ⟨hfilled, hidx⟩
  exact returns_ret.mpr ⟨⟨(congrArg (· + 1) h.cnt).trans hidx.symm, hfilled⟩, rfl⟩

theorem Counted.finishBlock (hfull : p.cnt = fecK) : Returns p.finishBlock fun r => r.2.Counted ∧ r.2.cnt = 0 := by
  refine (h.filled.getParityPackets _ (h.cnt.symm.trans hfull)).bind ?_
  rintro ⟨packets, enc⟩ ⟨hfilled, hidx⟩
  exact returns_ret.mpr ⟨⟨hidx.symm, hfilled⟩, rfl⟩

end

theorem Counted.fillBlock : ∀ (n : Nat) {p : PoolSender}, p.Counted → p.cnt + n ≤ fecK →
    Returns (PoolSender.fillBlock n p) fun r => r.2.Counted ∧ r.2.cnt = p.cnt + n
  | 0, _, h, _ => returns_ret.mpr ⟨h, rfl⟩
  | n + 1, p, h, hroom => by
    refine (h.encodeNext [] (by omega) (Nat.zero_le _)).bind ?_
    rintro ⟨packet, p'⟩ ⟨hp', hcnt⟩
    dsimp only at hp' hcnt
    refine (Counted.fillBlock n hp' (by omega)).bind ?_
    rintro ⟨packets, p''⟩ ⟨hp'', hcnt'⟩
    exact returns_ret.mpr ⟨hp'', by dsimp only at hcnt' ⊢; omega⟩

/-- What holds between two calls. -/
def Ready (p : PoolSender) : Prop := p.Counted ∧ p.cnt < fecK

theorem Counted.ready (h : p.Counted) (hcnt : p.cnt = 0) : p.Ready := ⟨h, hcnt ▸ by decide⟩

theorem Ready.flushIdle (since : Int) (h : p.Ready) : Returns (p.flushIdle since) fun r => r.2.Ready := by
  obtain ⟨h, hroom⟩ := h
  unfold PoolSender.flushIdle PoolSender.flushLocked
  split_ifs
  · exact returns_ret.mpr ⟨h, hroom⟩
  · refine (Counted.fillBlock _ h (by omega)).bind ?_
    rintro ⟨filled, p'⟩ ⟨hp', hcnt⟩
    dsimp only at hp' hcnt
    refine (hp'.finishBlock (by omega)).bind ?_
    rintro ⟨parity, p''⟩ ⟨hp'', hcnt'⟩
    exact returns_ret.mpr (hp''.ready hcnt')
  · exact returns_ret.mpr ⟨h, hroom⟩

theorem Ready.place {payload : Bytes} (now : Int) (h : p.Ready) (hpayload : payload.length ≤ datagramMaxProtected) :
    Returns (p.place payload now) fun r => r.2.Ready := by
  have hstart : Counted { p with lastAt := now } := ⟨h.1.cnt, h.1.filled⟩
  refine (hstart.encodeNext payload h.2 hpayload).bind ?_
  rintro ⟨packet, p'⟩ ⟨hp', hcnt⟩
  dsimp only at hp' hcnt ⊢
  split
  · refine (hp'.finishBlock ‹_›).bind ?_
    rintro ⟨parity, p''⟩ ⟨hp'', hcnt'⟩
    exact returns_ret.mpr (hp''.ready hcnt')
  · exact returns_ret.mpr ⟨hp', Nat.lt_of_le_of_ne (hcnt ▸ h.2) ‹_›⟩

theorem Ready.encode (payload : Bytes) (since now : Int) (h : p.Ready) :
    Returns (p.encode payload since now) fun r => r.2.Ready := by
  unfold PoolSender.encode
  split
  · exact returns_ret.mpr h
  · refine (h.flushIdle since).bind ?_
    rintro ⟨flushed, p'⟩ hp'
    refine (Ready.place now hp' (Nat.le_of_not_lt ‹_›)).bind ?_
    rintro ⟨packets, p''⟩ hp''
    exact returns_ret.mpr hp''

theorem Ready.encodeAll :
    ∀ (sends : List Send) {p : PoolSender}, p.Ready → Returns (p.encodeAll sends) fun r => r.2.Ready
  | [], _, h => returns_ret.mpr h
  | x :: sends, _, h => by
    refine (h.encode x.payload x.since x.now).bind ?_
    rintro ⟨packets, p'⟩ hp'
    refine (Ready.encodeAll sends hp').bind ?_
    rintro ⟨rest, p''⟩ hp''
    exact returns_ret.mpr hp''

/-- Whatever the pool gives out and whichever calls of `Encode` fail, nothing is out of range, the two
    counters agree, and the shards of every call of `Encode` had one length. -/
theorem sender_safe (enc : RsEncoder) (pool : PacketPool) (sends : List Send) :
    Returns ((start enc pool).encodeAll sends) fun r =>
      r.2.cnt = r.2.enc.idx ∧ r.2.cnt < fecK ∧ ∀ given ∈ r.2.enc.encoded, SameLength given := by
  have hstart : (start enc pool).Counted := ⟨rfl, PoolEncoder.filled_empty rfl length_replicate rfl nofun⟩
  refine (Ready.encodeAll sends (hstart.ready rfl)).mono ?_
  rintro ⟨packets, p⟩ ⟨h, hroom⟩
  exact ⟨h.cnt, hroom, h.filled.encoded⟩

end PoolSender
end Whispera
