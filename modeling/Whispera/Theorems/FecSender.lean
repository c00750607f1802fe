import Whispera.Fec

/-! The packets of a session are those of its blocks, one block after the other: data packets, then parity
packets. -/

namespace Whispera
open List Option BigEndian ErasureCode

theorem getElem?_rows {α : Type} {c : Nat} (hc : 0 < c) {last : List α} (hlast : last.length ≤ c) :
    ∀ {rows : List (List α)}, (∀ r ∈ rows, r.length = c) → ∀ k,
      (rows.flatten ++ last)[k]? = ((rows ++ [last])[k / c]?).bind (·[k % c]?)
  | [], _, k => by
    rcases lt_or_ge k c with hk | hk
    · simp [Nat.div_eq_of_lt hk, Nat.mod_eq_of_lt hk]
    · obtain ⟨j, hj⟩ := Nat.exists_eq_succ_of_ne_zero (Nat.div_pos hk hc).ne'
      simp [hj, getElem?_eq_none (hlast.trans hk)]
  | r :: rows, h, k => by
    have hr : r.length = c := h r mem_cons_self
    have ih := getElem?_rows hc hlast (fun r hr => h r (mem_cons_of_mem _ hr)) (k - c)
    rw [flatten_cons, append_assoc]
    rcases lt_or_ge k c with hk | hk
    · simp [getElem?_append_left (hr ▸ hk : k < r.length), Nat.div_eq_of_lt hk, Nat.mod_eq_of_lt hk]
    · obtain ⟨j, rfl⟩ := Nat.exists_eq_add_of_le' hk
      rw [Nat.add_sub_cancel] at ih
      rw [getElem?_append_right (hr ▸ hk), hr, Nat.add_sub_cancel, ih, Nat.add_div_right j hc, Nat.add_mod_right]
      rfl

def shardSize (shards : List Bytes) : Nat := shards.foldl (fun n s => max n s.length) 0

def codeData (block : List Bytes) : List Bytes :=
  (block.map rsShard).map (pad (shardSize (block.map rsShard)))

def sentShards (rs : ReedSolomon) (block : List Bytes) : List Bytes :=
  block.map rsShard ++ rs.parity (codeData block)

variable {block : List Bytes} {p : Bytes}

theorem length_sentShards (rs : ReedSolomon) (h : block.length = fecK) :
    (sentShards rs block).length = fecK + fecM := by
  rw [sentShards, length_append, length_map, h, rs.length_parity]

def packetsFrom (b i : Nat) (shards : List Bytes) : List Bytes :=
  shards.mapIdx fun j s => fecHeader (seqAt b (i + j)) ++ s

theorem seqAt_seqAt (b i j : Nat) : seqAt (seqAt b i) j = seqAt b (i + j) := by
  simp only [seqAt, Nat.mod_add_mod, add_assoc]

theorem packetsFrom_cons (b i : Nat) (s : Bytes) (shards : List Bytes) :
    packetsFrom b i (s :: shards) = (fecHeader (seqAt b i) ++ s) :: packetsFrom b (i + 1) shards := by
  simp only [packetsFrom, mapIdx_cons, add_zero, cons.injEq, true_and]
  congr 1
  funext j s
  rw [add_assoc, add_comm 1 j]

theorem packetsFrom_append (b i : Nat) (xs ys : List Bytes) :
    packetsFrom b i (xs ++ ys) = packetsFrom b i xs ++ packetsFrom b (i + xs.length) ys := by
  induction xs generalizing i with
  | nil => rfl
  | cons x xs ih =>
    rw [cons_append, packetsFrom_cons, packetsFrom_cons, ih, cons_append, length_cons, add_assoc,
      add_comm 1]

@[simp] theorem length_packetsFrom (b i : Nat) (shards : List Bytes) :
    (packetsFrom b i shards).length = shards.length := length_mapIdx

theorem shardSize_append (xs ys : List Bytes) :
    shardSize (xs ++ ys) = ys.foldl (fun n s => max n s.length) (shardSize xs) :=
  foldl_append

theorem packetsFrom_data {rs : ReedSolomon} {b : Nat} (h : block.length = fecK) :
    packetsFrom b 0 (block.map rsShard) ++ packetsFrom b fecK (rs.parity (codeData block)) =
      packetsFrom b 0 (sentShards rs block) := by
  rw [sentShards, packetsFrom_append, length_map, h, zero_add]

def fillUp (payloads : List Bytes) : List Bytes := payloads ++ replicate (fecK - payloads.length) []

theorem length_fillUp {payloads : List Bytes} (h : payloads.length ≤ fecK) : (fillUp payloads).length = fecK := by
  rw [fillUp, length_append, length_replicate, Nat.add_sub_of_le h]

namespace FecSender

/-- The sender is in the block at `b`, with the payloads `cur`. -/
structure Sending (s : FecSender) (b : Nat) (cur : List Bytes) : Prop where
  blockStart : s.blockStart = b
  cnt : s.cnt = cur.length
  shards : s.enc.shards = cur.map rsShard
  size : s.enc.shardSize = shardSize (cur.map rsShard)

variable {rs : ReedSolomon} {s : FecSender} {b : Nat} {cur : List Bytes}

theorem Sending.encodeNext (h : Sending s b cur) (p : Bytes) :
    (s.encodeNext p).1 = fecHeader (seqAt b cur.length) ++ rsShard p ∧ Sending (s.encodeNext p).2 b (cur ++ [p]) := by
  refine ⟨?_, h.blockStart, ?_, ?_, ?_⟩
  · rw [← h.blockStart, ← h.cnt]
    rfl
  · simp [FecSender.encodeNext, h.cnt]
  · simp [FecSender.encodeNext, FECEncoder.encodeFEC, h.shards]
  · simp [FecSender.encodeNext, FECEncoder.encodeFEC, h.size, shardSize_append]

theorem Sending.fillBlock (n : Nat) : ∀ {s : FecSender} {cur : List Bytes}, Sending s b cur →
    (fillBlock n s).1 = packetsFrom b cur.length (replicate n (rsShard [])) ∧
      Sending (fillBlock n s).2 b (cur ++ replicate n []) := by
  induction n with
  | zero =>
    intro s cur h
    exact ⟨rfl, (append_nil cur).symm ▸ h⟩
  | succ n ih =>
    intro s cur h
    obtain ⟨hpacket, hnext⟩ := h.encodeNext []
    obtain ⟨hpackets, hfill⟩ := ih hnext
    rw [FecSender.fillBlock]
    refine ⟨?_, ?_⟩
    · rw [replicate_succ, packetsFrom_cons]
      simp only [hpacket, hpackets, length_append, length_singleton]
    · rw [append_assoc, singleton_append] at hfill
      rwa [replicate_succ]

theorem lastAt_fillBlock : ∀ (n : Nat) (s : FecSender), (fillBlock n s).2.lastAt = s.lastAt
  | 0, _ => rfl
  | n + 1, s => lastAt_fillBlock n (s.encodeNext []).2

theorem Sending.finishBlock (rs : ReedSolomon) (h : Sending s b cur) (hlen : cur.length = fecK) :
    (s.finishBlock rs).1 = packetsFrom b fecK (rs.parity (codeData cur)) ∧
      Sending (s.finishBlock rs).2 (seqAt b (fecK + fecM)) [] := by
  have hparity : s.enc.getParityPackets rs (seqAt s.blockStart fecK) =
      (packetsFrom b fecK (rs.parity (codeData cur)), {}) := by
    unfold FECEncoder.getParityPackets
    rw [if_neg (by rw [h.shards, length_map, hlen]; exact lt_irrefl _), h.shards, h.size, h.blockStart,
      take_of_length_le (by rw [length_map, hlen])]
    simp only [seqAt_seqAt, packetsFrom, codeData]
  unfold FecSender.finishBlock
  rw [hparity]
  exact ⟨rfl, by rw [h.blockStart], rfl, rfl, rfl⟩

theorem Sending.flushLocked (rs : ReedSolomon) (h : Sending s b cur) (hpos : 0 < cur.length) (hlt : cur.length < fecK) :
    packetsFrom b 0 (cur.map rsShard) ++ (s.flushLocked rs).1 = packetsFrom b 0 (sentShards rs (fillUp cur)) ∧
      Sending (s.flushLocked rs).2 (seqAt b (fecK + fecM)) [] ∧ (s.flushLocked rs).2.lastAt = s.lastAt := by
  obtain ⟨hfill, hsending⟩ := Sending.fillBlock (fecK - cur.length) h
  obtain ⟨hparity, hdone⟩ := hsending.finishBlock rs (length_fillUp (le_of_lt hlt))
  unfold FecSender.flushLocked
  rw [h.cnt, if_neg (Nat.pos_iff_ne_zero.mp hpos)]
  refine ⟨?_, hdone, lastAt_fillBlock _ s⟩
  simp only [hfill, hparity]
  rw [← packetsFrom_data (length_fillUp (le_of_lt hlt)), fillUp, map_append, packetsFrom_append, length_map,
    map_replicate, zero_add, append_assoc]

theorem Sending.place_last (rs : ReedSolomon) (h : Sending s b cur) (p : Bytes) (now : Int)
    (hlen : (cur ++ [p]).length = fecK) :
    packetsFrom b 0 (cur.map rsShard) ++ (s.place rs p now).1 = packetsFrom b 0 (sentShards rs (cur ++ [p])) ∧
      Sending (s.place rs p now).2 (seqAt b (fecK + fecM)) [] ∧ (s.place rs p now).2.lastAt = now := by
  obtain ⟨hpacket, hnext⟩ :=
    Sending.encodeNext (s := { s with lastAt := now }) ⟨h.blockStart, h.cnt, h.shards, h.size⟩ p
  obtain ⟨hparity, hdone⟩ := hnext.finishBlock rs hlen
  unfold FecSender.place
  simp only [hpacket]
  rw [if_pos (hnext.cnt.trans hlen)]
  refine ⟨?_, hdone, rfl⟩
  simp only [hparity]
  rw [← packetsFrom_data hlen, map_append, packetsFrom_append, length_map, zero_add, append_assoc]
  rfl

theorem Sending.place_next (rs : ReedSolomon) (h : Sending s b cur) (p : Bytes) (now : Int)
    (hlen : (cur ++ [p]).length ≠ fecK) :
    (s.place rs p now).1 = [fecHeader (seqAt b cur.length) ++ rsShard p] ∧
      Sending (s.place rs p now).2 b (cur ++ [p]) ∧ (s.place rs p now).2.lastAt = now := by
  obtain ⟨hpacket, hnext⟩ :=
    Sending.encodeNext (s := { s with lastAt := now }) ⟨h.blockStart, h.cnt, h.shards, h.size⟩ p
  unfold FecSender.place
  simp only [hpacket]
  rw [if_neg fun heq => hlen (hnext.cnt.symm.trans heq)]
  exact ⟨rfl, hnext, rfl⟩

end FecSender

def startOf (n : Nat) : Nat := seqAt 0 ((fecK + fecM) * n)

theorem seqAt_startOf (n i : Nat) : seqAt (startOf n) i = seqAt 0 ((fecK + fecM) * n + i) := seqAt_seqAt 0 _ i

def numbered (n i : Nat) (shards : List Bytes) : List (Nat × Bytes) :=
  (packetsFrom (startOf n) i shards).map (Prod.mk (startOf n))

theorem numbered_append (n i : Nat) (xs ys : List Bytes) :
    numbered n i (xs ++ ys) = numbered n i xs ++ numbered n (i + xs.length) ys := by
  rw [numbered, packetsFrom_append, map_append]
  rfl

@[simp] theorem numbered_nil (n i : Nat) : numbered n i [] = [] := rfl

@[simp] theorem length_numbered (n i : Nat) (shards : List Bytes) : (numbered n i shards).length = shards.length := by
  rw [numbered, length_map, length_packetsFrom]

def packetsOf (rs : ReedSolomon) (full : List (List Bytes)) (cur : List Bytes) : List (Nat × Bytes) :=
  (full.mapIdx fun n block => numbered n 0 (sentShards rs block)).flatten ++ numbered full.length 0 (cur.map rsShard)

theorem packetsOf_complete {rs : ReedSolomon} {full : List (List Bytes)} {cur packets : List Bytes}
    (h : packetsFrom (startOf full.length) 0 (cur.map rsShard) ++ packets =
      packetsFrom (startOf full.length) 0 (sentShards rs block)) :
    packetsOf rs (full ++ [block]) [] = packetsOf rs full cur ++ packets.map (Prod.mk (startOf full.length)) := by
  have hlast : numbered full.length 0 (sentShards rs block) =
      numbered full.length 0 (cur.map rsShard) ++ packets.map (Prod.mk (startOf full.length)) := by
    rw [numbered, ← h, map_append]
    rfl
  simp only [packetsOf, mapIdx_append, mapIdx_cons, mapIdx_nil, flatten_append, flatten_cons,
    flatten_nil, append_nil, zero_add, hlast, numbered_nil, map_nil, append_assoc]

theorem packetsOf_snoc (rs : ReedSolomon) (full : List (List Bytes)) (cur : List Bytes) (p : Bytes) :
    packetsOf rs full cur ++ numbered full.length cur.length [rsShard p] = packetsOf rs full (cur ++ [p]) := by
  rw [packetsOf, packetsOf, map_append, numbered_append, append_assoc, length_map, zero_add]
  rfl

/-- The payloads of a session in their blocks: full ones, and one that was begun. -/
structure Blocks where
  full : List (List Bytes) := []
  cur : List Bytes := []
  length_full : ∀ block ∈ full, block.length = fecK
  length_cur : cur.length < fecK
  short_full : ∀ block ∈ full, ∀ p ∈ block, p.length ≤ datagramMaxProtected
  short_cur : ∀ p ∈ cur, p.length ≤ datagramMaxProtected

theorem short_fillUp {payloads : List Bytes} (h : ∀ p ∈ payloads, p.length ≤ datagramMaxProtected) :
    ∀ p ∈ fillUp payloads, p.length ≤ datagramMaxProtected := by
  intro p hp
  rcases mem_append.mp hp with hp | hp
  · exact h p hp
  · rw [eq_of_mem_replicate hp]
    exact Nat.zero_le _

theorem forall_mem_snoc {α : Type} {P : α → Prop} {l : List α} {x : α} (hl : ∀ y ∈ l, P y) (hx : P x) :
    ∀ y ∈ l ++ [x], P y := by
  intro y hy
  rcases mem_append.mp hy with hy | hy
  · exact hl y hy
  · rw [mem_singleton.mp hy]
    exact hx

namespace Blocks

def start : Blocks where
  length_full := by simp
  length_cur := by decide
  short_full := by simp
  short_cur := by simp

def finish (bs : Blocks) (block : List Bytes) (hlen : block.length = fecK)
    (hshort : ∀ p ∈ block, p.length ≤ datagramMaxProtected) : Blocks where
  full := bs.full ++ [block]
  length_full := forall_mem_snoc bs.length_full hlen
  length_cur := by decide
  short_full := forall_mem_snoc bs.short_full hshort
  short_cur := by simp

def pause (bs : Blocks) (pause : Int) : Blocks :=
  if 0 < bs.cur.length ∧ fecBlockWait ≤ pause then
    bs.finish (fillUp bs.cur) (length_fillUp (le_of_lt bs.length_cur)) (short_fillUp bs.short_cur)
  else bs

def add (bs : Blocks) (p : Bytes) (hp : p.length ≤ datagramMaxProtected) : Blocks :=
  if hlen : (bs.cur ++ [p]).length = fecK then bs.finish (bs.cur ++ [p]) hlen (forall_mem_snoc bs.short_cur hp)
  else
    { bs with
      cur := bs.cur ++ [p]
      length_cur := Nat.lt_of_le_of_ne (by rw [length_append]; exact bs.length_cur) hlen
      short_cur := forall_mem_snoc bs.short_cur hp }

/-- The blocks after some calls of `encode`, of which the one before was at `lastAt`. -/
def send (bs : Blocks) (lastAt : Int) : List Send → Blocks
  | [] => bs
  | x :: sends =>
    if h : datagramMaxProtected < x.payload.length then bs.send lastAt sends
    else ((bs.pause (x.since - lastAt)).add x.payload (Nat.le_of_not_lt h)).send x.now sends

def ofSends (sends : List Send) : Blocks := start.send 0 sends

def begun (bs : Blocks) : List (List Bytes) := if bs.cur = [] then [] else [fillUp bs.cur]

def blocks (bs : Blocks) : List (List Bytes) := bs.full ++ bs.begun

def payloads (bs : Blocks) : List Bytes := bs.blocks.flatten.filter fun p => p ≠ []

def packets (rs : ReedSolomon) (bs : Blocks) : List (Nat × Bytes) := packetsOf rs bs.full bs.cur

def count (bs : Blocks) : Nat := (fecK + fecM) * bs.full.length + bs.cur.length

theorem mem_begun {bs : Blocks} (h : block ∈ bs.begun) : block = fillUp bs.cur := by
  unfold begun at h
  split at h
  · cases h
  · exact mem_singleton.mp h

theorem length_blocks (bs : Blocks) : ∀ block ∈ bs.blocks, block.length = fecK := by
  intro block h
  rcases mem_append.mp h with h | h
  · exact bs.length_full block h
  · rw [mem_begun h]
    exact length_fillUp (le_of_lt bs.length_cur)

theorem short_blocks (bs : Blocks) : ∀ block ∈ bs.blocks, ∀ p ∈ block, p.length ≤ datagramMaxProtected := by
  intro block h
  rcases mem_append.mp h with h | h
  · exact bs.short_full block h
  · rw [mem_begun h]
    exact short_fillUp bs.short_cur

theorem payloads_eq (bs : Blocks) : bs.payloads = (bs.full.flatten ++ bs.cur).filter fun p => p ≠ [] := by
  unfold payloads blocks begun
  by_cases hcur : bs.cur = []
  · simp [hcur]
  · simp [hcur, fillUp]

@[simp] theorem payloads_pause (bs : Blocks) (pause : Int) : (bs.pause pause).payloads = bs.payloads := by
  unfold Blocks.pause
  split
  · simp [payloads_eq, finish, fillUp]
  · rfl

theorem payloads_add (bs : Blocks) (hp : p.length ≤ datagramMaxProtected) :
    (bs.add p hp).payloads = bs.payloads ++ [p].filter fun p => p ≠ [] := by
  unfold Blocks.add
  split <;> simp [payloads_eq, finish]

theorem payloads_send (sends : List Send) : ∀ (bs : Blocks) (lastAt : Int), (bs.send lastAt sends).payloads =
    bs.payloads ++ (sends.map Send.payload).filter fun p => p ≠ [] ∧ p.length ≤ datagramMaxProtected := by
  induction sends with
  | nil =>
    intro bs lastAt
    rw [map_nil, filter_nil, append_nil]
    rfl
  | cons x sends ih =>
    intro bs lastAt
    rw [send, map_cons, filter_cons]
    split
    · rename_i hlong
      rw [ih, if_neg (by simp; omega)]
    · rename_i hshort
      rw [ih, payloads_add, payloads_pause, append_assoc]
      by_cases hp : x.payload = [] <;> simp [hp, Nat.le_of_not_lt hshort]

/-! The packets of blocks. -/

def shards (rs : ReedSolomon) (bs : Blocks) : List (List Bytes) :=
  bs.full.map (sentShards rs) ++ [bs.cur.map rsShard]

theorem getElem?_packets (rs : ReedSolomon) (bs : Blocks) (k : Nat) :
    (bs.packets rs)[k]? = ((bs.shards rs)[k / (fecK + fecM)]?.bind (·[k % (fecK + fecM)]?)).map
      fun shard => (startOf (k / (fecK + fecM)), fecHeader (seqAt 0 k) ++ shard) := by
  have hrows : ∀ r ∈ bs.full.mapIdx fun n block => numbered n 0 (sentShards rs block), r.length = fecK + fecM := by
    intro r hr
    obtain ⟨n, hn, rfl⟩ := mem_mapIdx.mp hr
    rw [length_numbered, length_sentShards rs (bs.length_full _ (getElem_mem hn))]
  have hlast : (numbered bs.full.length 0 (bs.cur.map rsShard)).length ≤ fecK + fecM := by
    rw [length_numbered, length_map]
    exact le_trans (le_of_lt bs.length_cur) (Nat.le_add_right _ _)
  have hall : (bs.full.mapIdx fun n block => numbered n 0 (sentShards rs block)) ++
      [numbered bs.full.length 0 (bs.cur.map rsShard)] = (bs.shards rs).mapIdx fun n shards => numbered n 0 shards := by
    rw [shards, mapIdx_append, length_map]
    refine congrArg₂ _ (ext_getElem? fun n => ?_) (by simp)
    simp only [getElem?_mapIdx, getElem?_map, Option.map_map]
    rfl
  rw [packets, packetsOf, getElem?_rows (by decide) hlast hrows, hall, getElem?_mapIdx, bind_map, map_bind]
  congr 1
  funext shards
  simp only [Function.comp_apply, numbered, packetsFrom, getElem?_map, getElem?_mapIdx, Option.map_map]
  congr 1
  funext shard
  simp only [Function.comp_apply, zero_add, seqAt_startOf, Nat.div_add_mod]

theorem length_packets (rs : ReedSolomon) (bs : Blocks) : (bs.packets rs).length = bs.count := by
  have hrows : (bs.full.mapIdx fun n block => numbered n 0 (sentShards rs block)).map length =
      replicate bs.full.length (fecK + fecM) := by
    refine ext_getElem (by simp) fun n hn _ => ?_
    have hn : n < bs.full.length := by simpa using hn
    simp [length_sentShards rs (bs.length_full _ (getElem_mem hn))]
  rw [packets, packetsOf, length_append, length_flatten, hrows, sum_replicate_nat, length_numbered,
    length_map, mul_comm]
  rfl

theorem shard_at {rs : ReedSolomon} {bs : Blocks} {n i : Nat} {shard : Bytes}
    (h : (bs.shards rs)[n]?.bind (·[i]?) = some shard) :
    ∃ block, bs.blocks[n]? = some block ∧ (sentShards rs block)[i]? = some shard := by
  obtain ⟨shards, hshards, hshard⟩ := bind_eq_some_iff.mp h
  rw [Blocks.shards, getElem?_append, length_map] at hshards
  rw [blocks, getElem?_append]
  split at hshards
  · rw [getElem?_map] at hshards
    obtain ⟨block, hblock, rfl⟩ := map_eq_some_iff.mp hshards
    exact ⟨block, by rwa [if_pos ‹_›], hshard⟩
  · rename_i hlast
    rw [if_neg hlast]
    obtain ⟨hn, rfl⟩ : n - bs.full.length = 0 ∧ bs.cur.map rsShard = shards := by
      cases hn : n - bs.full.length <;> rw [hn] at hshards
      · exact ⟨rfl, some.inj hshards⟩
      · cases hshards
    have hcur : bs.cur ≠ [] := by
      rintro hnil
      rw [hnil] at hshard
      cases hshard
    refine ⟨fillUp bs.cur, by rw [begun, if_neg hcur, hn]; rfl, ?_⟩
    rw [sentShards, fillUp, map_append, append_assoc,
      getElem?_append_left (List.getElem?_eq_some_iff.mp hshard).1, hshard]

theorem packet_at {rs : ReedSolomon} {bs : Blocks} {k : Nat} {e : Nat × Bytes} (h : (bs.packets rs)[k]? = some e) :
    ∃ block shard, bs.blocks[k / (fecK + fecM)]? = some block ∧ (sentShards rs block)[k % (fecK + fecM)]? = some shard ∧
      e = (startOf (k / (fecK + fecM)), fecHeader (seqAt 0 k) ++ shard) := by
  rw [bs.getElem?_packets] at h
  obtain ⟨shard, hshard, rfl⟩ := map_eq_some_iff.mp h
  obtain ⟨block, hblock, hshard⟩ := shard_at hshard
  exact ⟨block, shard, hblock, hshard, rfl⟩

/-! The sender refines the blocks. -/

def Sent (bs : Blocks) (s : FecSender) : Prop := s.Sending (startOf bs.full.length) bs.cur

theorem sent_start : start.Sent {} := ⟨rfl, rfl, rfl, rfl⟩

variable {s : FecSender} {bs : Blocks}

theorem startOf_succ (n : Nat) : seqAt (startOf n) (fecK + fecM) = startOf (n + 1) := by
  rw [seqAt_startOf, startOf, Nat.mul_succ]

theorem sent_finish (hlen : block.length = fecK) (hshort : ∀ p ∈ block, p.length ≤ datagramMaxProtected)
    (h : s.Sending (seqAt (startOf bs.full.length) (fecK + fecM)) []) : (bs.finish block hlen hshort).Sent s := by
  rw [startOf_succ] at h
  rw [Sent, Blocks.finish, length_append]
  exact h

theorem Sent.flushIdle (rs : ReedSolomon) (h : bs.Sent s) (since : Int) :
    (bs.pause (since - s.lastAt)).Sent (s.flushIdle rs since).2 ∧ (s.flushIdle rs since).2.lastAt = s.lastAt ∧
      (bs.pause (since - s.lastAt)).packets rs =
        bs.packets rs ++ (s.flushIdle rs since).1.map (Prod.mk s.blockStart) := by
  unfold FecSender.flushIdle Blocks.pause
  rw [h.cnt]
  split
  · rename_i hpause
    obtain ⟨hpackets, hdone, hlast⟩ := FecSender.Sending.flushLocked rs h hpause.1 bs.length_cur
    refine ⟨sent_finish _ _ hdone, hlast, ?_⟩
    rw [h.blockStart]
    exact packetsOf_complete hpackets
  · exact ⟨h, rfl, by simp⟩

theorem Sent.place (rs : ReedSolomon) (h : bs.Sent s) (hp : p.length ≤ datagramMaxProtected) (now : Int) :
    (bs.add p hp).Sent (s.place rs p now).2 ∧ (s.place rs p now).2.lastAt = now ∧
      (bs.add p hp).packets rs = bs.packets rs ++ (s.place rs p now).1.map (Prod.mk s.blockStart) := by
  unfold Blocks.add
  split
  · rename_i hlen
    obtain ⟨hpackets, hdone, hlast⟩ := FecSender.Sending.place_last rs h p now hlen
    refine ⟨sent_finish _ _ hdone, hlast, ?_⟩
    rw [h.blockStart]
    exact packetsOf_complete hpackets
  · rename_i hne
    obtain ⟨hpacket, hnext, hlast⟩ := FecSender.Sending.place_next rs h p now hne
    refine ⟨hnext, hlast, ?_⟩
    rw [h.blockStart, hpacket]
    exact (packetsOf_snoc rs bs.full bs.cur p).symm

theorem Sent.session (rs : ReedSolomon) : ∀ (sends : List Send) {s : FecSender} {bs : Blocks}, bs.Sent s →
    (bs.send s.lastAt sends).packets rs = bs.packets rs ++ (session rs s sends).1
  | [], s, bs, _ => (append_nil _).symm
  | x :: sends, s, bs, h => by
    rw [Whispera.session, send]
    split
    · exact Sent.session rs sends h
    · rename_i hshort
      obtain ⟨hsent₁, hlast₁, hpackets₁⟩ := h.flushIdle rs x.since
      obtain ⟨hsent₂, hlast₂, hpackets₂⟩ := hsent₁.place rs (Nat.le_of_not_lt hshort) x.now
      have hpackets := Sent.session rs sends hsent₂
      rw [hlast₂] at hpackets
      rw [hpackets, hpackets₂, hpackets₁]
      simp only [append_assoc]

end Blocks

theorem session_packets (rs : ReedSolomon) (sends : List Send) :
    (session rs {} sends).1 = (Blocks.ofSends sends).packets rs := (Blocks.sent_start.session rs sends).symm

@[simp] theorem length_fecHeader (seq : Nat) : (fecHeader seq).length = 7 := by
  simp [fecHeader]

theorem seqOf_packet (b i : Nat) (shard : Bytes) : seqOf (fecHeader (seqAt b i) ++ shard) = seqAt b i := by
  have hseq : ((fecHeader (seqAt b i) ++ shard).drop 1).take 4 = put 4 (seqAt b i) := by
    exact take_left' (length_put 4 _)
  rw [seqOf, hseq, get_put]
  exact Nat.mod_mod _ _

theorem blockStartOf_seqAt {k : Nat} (h : k < seqLimit) : blockStartOf (seqAt 0 k) = startOf (k / (fecK + fecM)) := by
  have hle : (fecK + fecM) * (k / (fecK + fecM)) ≤ k := Nat.mul_div_le k _
  rw [startOf, seqAt, seqAt, zero_add, zero_add, Nat.mod_eq_of_lt h, Nat.mod_eq_of_lt (lt_of_le_of_lt hle h),
    blockStartOf, mul_comm]

theorem blockStartOf_seqLimit : blockStartOf (seqAt 0 seqLimit) ≠ startOf (seqLimit / (fecK + fecM)) := by decide

theorem block_disagreement {rs : ReedSolomon} {sends : List Send} (h : seqLimit < (Blocks.ofSends sends).count) :
    ∃ e ∈ (session rs {} sends).1, blockStartOf (seqOf e.2) ≠ e.1 := by
  rw [← Blocks.length_packets rs] at h
  obtain ⟨block, shard, -, -, heq⟩ := Blocks.packet_at (getElem?_eq_getElem h)
  rw [session_packets]
  refine ⟨_, getElem_mem h, ?_⟩
  rw [heq, seqOf_packet]
  exact blockStartOf_seqLimit

/-- The receiver takes every packet for one of its block just if there are no more packets than sequence
    numbers. -/
theorem block_agreement_iff (rs : ReedSolomon) (sends : List Send) :
    (∀ e ∈ (session rs {} sends).1, blockStartOf (seqOf e.2) = e.1) ↔ (Blocks.ofSends sends).count ≤ seqLimit := by
  refine ⟨fun h => Nat.le_of_not_lt fun hlt => ?_, fun hle e he => ?_⟩
  · obtain ⟨e, he, hne⟩ := block_disagreement hlt
    exact hne (h e he)
  · rw [session_packets] at he
    obtain ⟨k, hk, rfl⟩ := getElem_of_mem he
    obtain ⟨block, shard, -, -, heq⟩ := Blocks.packet_at (getElem?_eq_getElem hk)
    rw [heq, seqOf_packet]
    rw [Blocks.length_packets] at hk
    exact blockStartOf_seqAt (lt_of_lt_of_le hk hle)

/-! A session of one short payload after the other, without a pause. -/

theorem Blocks.total_add (bs : Blocks) (hp : p.length ≤ datagramMaxProtected) :
    fecK * (bs.add p hp).full.length + (bs.add p hp).cur.length = fecK * bs.full.length + bs.cur.length + 1 := by
  unfold Blocks.add
  split
  · rename_i hlen
    rw [length_append, length_singleton] at hlen
    rw [finish, length_append, length_singleton, Nat.mul_succ, add_assoc _ bs.cur.length, hlen]
    rfl
  · rw [length_append, length_singleton, add_assoc]

theorem Blocks.total_replicate (hp : p.length ≤ datagramMaxProtected) : ∀ (m : Nat) (bs : Blocks),
    fecK * (bs.send 0 (replicate m { payload := p })).full.length +
      (bs.send 0 (replicate m { payload := p })).cur.length = fecK * bs.full.length + bs.cur.length + m
  | 0, _ => rfl
  | m + 1, bs => by
    have hpause : bs.pause (0 - 0) = bs := if_neg fun h => absurd h.2 (by decide)
    rw [replicate_succ, send, dif_neg (not_lt.mpr hp), hpause, total_replicate hp m, total_add, add_right_comm,
      add_assoc]

theorem Blocks.seqLimit_lt_count (hp : p.length ≤ datagramMaxProtected) {m : Nat} (hm : 3067833785 ≤ m) :
    seqLimit < (Blocks.ofSends (replicate m { payload := p })).count := by
  have htotal := Blocks.total_replicate hp m Blocks.start
  have hcur := (Blocks.ofSends (replicate m { payload := p })).length_cur
  rw [ofSends] at *
  simp only [count, start, fecK, fecM, seqLimit, length_nil] at *
  omega

def sampleCode : ReedSolomon :=
  ofWord (replicate 10 [0, 1, 7]) (replicate 4 [0, 1, 7]) rfl (by decide)

/-- The 3067833785th payload of a session is sent with a sequence number of another block. -/
theorem block_disagreement_after_wrap :
    ∃ e ∈ (session sampleCode {} (replicate 3067833785 { payload := [7] })).1, blockStartOf (seqOf e.2) ≠ e.1 :=
  block_disagreement (Blocks.seqLimit_lt_count (by decide) (le_rfl))

end Whispera
