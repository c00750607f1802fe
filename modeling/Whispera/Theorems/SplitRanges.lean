import Whispera.SplitTunnel

/-! On top of the heap is the least rule that is active at the address of the sweep. -/

namespace Whispera
open List hiding get
open BigEndian Sorting

def leNum : Bytes → Nat
  | [] => 0
  | b :: bs => b.toNat + 256 * leNum bs

theorem get_reverse : ∀ bs : Bytes, get bs.reverse = leNum bs
  | [] => rfl
  | b :: bs => by
    rw [reverse_cons, BigEndian.get, foldl_append, ← BigEndian.get, get_reverse bs]
    exact (add_comm _ _).trans (congrArg _ (mul_comm _ _))

theorem incBytes_spec : ∀ bs, ((incBytes bs).2 = true ∧ leNum (incBytes bs).1 = leNum bs + 1) ∨
    ((incBytes bs).2 = false ∧ leNum bs + 1 = 256 ^ bs.length)
  | [] => .inr ⟨rfl, rfl⟩
  | b :: bs => by
    have hadd : (b + 1).toNat = (b.toNat + 1) % 256 := UInt8.toNat_add b 1
    have hlt := b.toNat_lt
    rw [incBytes]
    split
    · rename_i hne
      have hne' : (b + 1).toNat ≠ 0 := fun h => hne (UInt8.toNat_inj.mp h)
      refine .inl ⟨rfl, ?_⟩
      rw [leNum, leNum]
      omega
    · rename_i hzero
      have hzero' : (b + 1).toNat = 0 := by rw [not_not.mp hzero]; rfl
      rcases incBytes_spec bs with ⟨hok, hnum⟩ | ⟨hok, hnum⟩
      · refine .inl ⟨hok, ?_⟩
        rw [leNum, leNum, hnum]
        omega
      · refine .inr ⟨hok, ?_⟩
        rw [leNum, length_cons, pow_succ, ← hnum]
        omega

theorem decBytes_spec : ∀ bs, 0 < leNum bs → leNum (decBytes bs) + 1 = leNum bs
  | b :: bs, h => by
    rw [leNum] at h
    have hlt := b.toNat_lt
    rw [decBytes]
    split
    · rename_i hne
      have hpos : 0 < b.toNat := Nat.pos_of_ne_zero fun h => hne (UInt8.toNat_inj.mp h)
      have hsub : (b - 1).toNat = b.toNat - 1 := UInt8.toNat_sub_of_le b 1 (UInt8.le_iff_toNat_le.mpr hpos)
      rw [leNum, leNum]
      omega
    · rename_i hzero
      rw [not_not.mp hzero] at h ⊢
      have hzero' : (0 : UInt8).toNat = 0 := rfl
      have hfull : (0xff : UInt8).toNat = 255 := rfl
      have ih := decBytes_spec bs (by omega)
      rw [leNum, leNum]
      omega

theorem num_eq_leNum (a : Block 16) : a.num = leNum a.val.reverse := by
  rw [← get_reverse, reverse_reverse]
  rfl

theorem incAddr_spec (a : Block 16) :
    ((incAddr a).2 = true ∧ (incAddr a).1.num = a.num + 1) ∨ ((incAddr a).2 = false ∧ a.num + 1 = 256 ^ 16) := by
  have hnum : (incAddr a).1.num = leNum (incBytes a.val.reverse).1 := get_reverse _
  rw [hnum, num_eq_leNum]
  have hspec := incBytes_spec a.val.reverse
  rwa [length_reverse, a.length_val] at hspec

variable {a : Block 16} {r : IdxRange}

theorem decAddr_spec (h : 0 < a.num) : (decAddr a).num + 1 = a.num := by
  rw [num_eq_leNum a] at h ⊢
  exact (congrArg (· + 1) (get_reverse _)).trans (decBytes_spec _ h)

theorem IdxRange.has_iff : r.has a = true ↔ r.lo.num ≤ a.num ∧ a.num ≤ r.hi.num := by
  rw [has, Bool.and_eq_true, Bool.not_eq_true', Bool.not_eq_true', Block.not_less_iff, Block.not_less_iff]

def covering (raw : List IdxRange) (a : Block 16) : Set Nat := { i | ∃ r ∈ raw, r.idx = i ∧ r.has a = true }

theorem mem_rangeEvents {raw : List IdxRange} {e : RangeEvent} :
    e ∈ raw.flatMap rangeEvents ↔ ∃ r ∈ raw, e.idx = r.idx ∧
      ((e.start = true ∧ e.addr = r.lo) ∨ (e.start = false ∧ e.addr.num = r.hi.num + 1)) := by
  have hevent : ∀ r : IdxRange, e ∈ rangeEvents r ↔
      e.idx = r.idx ∧ ((e.start = true ∧ e.addr = r.lo) ∨ (e.start = false ∧ e.addr.num = r.hi.num + 1)) := by
    intro r
    have hlt := e.addr.num_lt
    have hinj := @Block.num_inj 16 e.addr (incAddr r.hi).1
    obtain ⟨addr, idx, start⟩ := e
    rcases incAddr_spec r.hi with ⟨hok, hnum⟩ | ⟨hok, hlast⟩ <;> cases start <;> simp [rangeEvents, hok] <;> grind
  simp only [mem_flatMap, hevent]

theorem start_mem {raw : List IdxRange} (hr : r ∈ raw) : ⟨r.lo, r.idx, true⟩ ∈ raw.flatMap rangeEvents :=
  mem_rangeEvents.mpr ⟨r, hr, rfl, .inl ⟨rfl, rfl⟩⟩

theorem end_mem {raw : List IdxRange} (hr : r ∈ raw) (h : r.hi.num < a.num) :
    ∃ e ∈ raw.flatMap rangeEvents, e.start = false ∧ e.idx = r.idx ∧ e.addr.num = r.hi.num + 1 := by
  have hlt := a.num_lt
  rcases incAddr_spec r.hi with ⟨-, hnum⟩ | ⟨-, hlast⟩
  · exact ⟨⟨(incAddr r.hi).1, r.idx, false⟩, mem_rangeEvents.mpr ⟨r, hr, rfl, .inr ⟨rfl, hnum⟩⟩, rfl, rfl, hnum⟩
  · omega

theorem covering_eq {raw : List IdxRange} {p : Block 16} (hle : p.num ≤ a.num)
    (hnone : ∀ e ∈ raw.flatMap rangeEvents, e.addr.num ≤ p.num ∨ a.num < e.addr.num) : covering raw a =
    covering raw p := by
  ext i
  refine exists_congr fun r => and_congr_right fun hr => and_congr_right fun _ => ?_
  have hstart := hnone _ (start_mem hr)
  rw [IdxRange.has_iff, IdxRange.has_iff]
  by_cases hend : r.hi.num < a.num
  · obtain ⟨e, he, -, -, hnum⟩ := end_mem hr hend
    have := hnone e he
    grind
  · grind

namespace Sweep

/-- The sweep after the events `done`: which ranges have begun and ended. -/
structure Tracks (done : List RangeEvent) (n : Nat) (st : Sweep) : Prop where
  heap : Heap.IsHeap st.active
  length : st.ended.length = n
  ended : ∀ i, st.ended.getD i false = true ↔ ∃ e ∈ done, e.start = false ∧ e.idx = i
  started : ∀ i ∈ st.active.toList, ∃ e ∈ done, e.start = true ∧ e.idx = i
  active : ∀ e ∈ done, e.start = true → e.idx ∈ st.active.toList ∨ st.ended.getD e.idx false = true

section
variable {done same : List RangeEvent} {n : Nat} {st : Sweep} {e : RangeEvent}

theorem tracks_start (n : Nat) : Tracks [] n { ended := replicate n false } :=
  ⟨fun j _ hj => absurd hj (Nat.not_lt_zero j), length_replicate, by grind, nofun, nofun⟩

theorem Tracks.event (h : Tracks done n st) (he : e.idx < n) : Tracks (done ++ [e]) n (st.event e) := by
  obtain ⟨hheap, hlen, hended, hstarted, hactive⟩ := h
  unfold Sweep.event
  by_cases hstart : e.start = true
  · obtain ⟨hheap', hperm⟩ := Heap.push_spec hheap e.idx
    have hmem := fun i => hperm.mem_iff (a := i)
    rw [if_pos hstart]
    exact ⟨hheap', hlen, by grind, by grind, by grind⟩
  · have hmark : ∀ j, (st.ended.set e.idx true).getD j false = true ↔ j = e.idx ∨
        st.ended.getD j false = true := by grind
    rw [if_neg hstart]
    exact ⟨hheap, length_set.trans hlen, by grind, by grind, by grind⟩

theorem Tracks.events (h : Tracks done n st) (hsame : ∀ e ∈ same, e.idx < n) :
    Tracks (done ++ same) n (same.foldl Sweep.event st) ∧ (same.foldl Sweep.event st).out = st.out := by
  induction same generalizing done st with
  | nil => exact ⟨(append_nil done).symm ▸ h, rfl⟩
  | cons e same ih =>
    obtain ⟨he, hsame⟩ := forall_mem_cons.mp hsame
    have hout : (st.event e).out = st.out := by
      unfold Sweep.event
      split <;> rfl
    obtain ⟨hnext, hsameOut⟩ := ih (h.event he) hsame
    exact ⟨append_assoc done [e] same ▸ hnext, hsameOut.trans hout⟩

theorem Tracks.clean (k : Nat) : ∀ {st : Sweep}, Tracks done n st → st.active.size ≤ k →
    Tracks done n (Sweep.clean k st) ∧ (Sweep.clean k st).out = st.out ∧
      (0 < (Sweep.clean k st).active.size →
       (Sweep.clean k st).ended.getD (Sweep.clean k st).active[0]! false = false) := by
  induction k with
  | zero => exact fun h hk => ⟨h, rfl, fun hpos => absurd hpos (not_lt.mpr hk)⟩
  | succ k ih =>
    intro st h hk
    rw [Sweep.clean]
    split
    · rename_i htop
      obtain ⟨hroot, hheap, hperm⟩ := Heap.pop_spec h.heap htop.1
      have hsize := hperm.length_eq
      have hmem := fun i => hperm.mem_iff (a := i)
      obtain ⟨-, hlen, hended, hstarted, hactive⟩ := h
      exact ih ⟨hheap, hlen, hended, by grind, by grind⟩ (by grind)
    · exact ⟨h, rfl, by grind⟩

theorem Tracks.emit (h : Tracks done n st) (addr : Block 16) (next : Option RangeEvent) :
    Tracks done n (st.emit addr next) := by
  have hkeep : (st.emit addr next).active = st.active ∧ (st.emit addr next).ended = st.ended := by
    unfold Sweep.emit
    grind
  obtain ⟨hheap, hlen, hended, hstarted, hactive⟩ := h
  exact ⟨by rwa [hkeep.1], by rwa [hkeep.2], by rwa [hkeep.2], by rwa [hkeep.1], by rwa [hkeep.1, hkeep.2]⟩

end

def top (st : Sweep) : Option Nat := if st.active.size = 0 then none else some st.active[0]!

theorem Tracks.least {raw : List IdxRange} {done : List RangeEvent} {n : Nat} {st : Sweep} (h : Tracks done n st)
    (hclean : 0 < st.active.size → st.ended.getD st.active[0]! false = false)
    (hdone : ∀ e, e ∈ done ↔ e ∈ raw.flatMap rangeEvents ∧ e.addr.num ≤ a.num) (hnodup : (raw.map IdxRange.idx).Nodup) :
    Least (covering raw a) st.top := by
  -- A rule that has the address has begun, and its end is not among the events.
  have hmem : ∀ i ∈ covering raw a, i ∈ st.active.toList := by
    rintro i ⟨r, hr, rfl, hhas⟩
    obtain ⟨hlo, hhi⟩ := IdxRange.has_iff.mp hhas
    refine (h.active _ ((hdone _).mpr ⟨start_mem hr, hlo⟩) rfl).resolve_right fun hend => ?_
    obtain ⟨f, hf, hfend, hfidx⟩ := (h.ended _).mp hend
    obtain ⟨hfmem, hfle⟩ := (hdone f).mp hf
    obtain ⟨s, hs, hsidx, hsf⟩ := mem_rangeEvents.mp hfmem
    cases inj_on_of_nodup_map hnodup hs hr (hsidx.symm.trans hfidx)
    grind
  unfold top
  split
  · exact Set.eq_empty_iff_forall_notMem.mpr fun i hi => by grind
  · rename_i hne
    have hroot : st.active[0]! ∈ st.active.toList := by grind
    refine ⟨?_, fun i hi => Heap.IsHeap.root_le_mem h.heap (hmem i hi)⟩
    obtain ⟨e, he, hstart, hidx⟩ := h.started _ hroot
    obtain ⟨hemem, hele⟩ := (hdone e).mp he
    obtain ⟨r, hr, heidx, ⟨-, hlo⟩ | ⟨hend, -⟩⟩ := mem_rangeEvents.mp hemem
    · refine ⟨r, hr, heidx.symm.trans hidx, IdxRange.has_iff.mpr ⟨hlo ▸ hele, not_lt.mp fun hover => ?_⟩⟩
      -- The range would have ended, and its rule would be marked.
      obtain ⟨f, hf, hfend, hfidx, hnum⟩ := end_mem hr hover
      have hmarked := (h.ended st.active[0]!).mpr ⟨f, (hdone f).mpr ⟨hf, by omega⟩, hfend, by grind⟩
      grind
    · grind

/-- The ranges are disjoint, the last one first, and below a bound they say which rule is the first to have an
    address. -/
structure Covered (raw out : List IdxRange) (bound : Nat) : Prop where
  disjoint : out.Pairwise fun r s => s.hi.num < r.lo.num
  le : ∀ r ∈ out, r.lo.num ≤ r.hi.num ∧ r.hi.num < bound
  least : ∀ a : Block 16, a.num < bound → ∀ i, (∃ r ∈ out, r.idx = i ∧ r.has a = true) ↔ IsLeast (covering raw a) i

def bound (next : Option RangeEvent) : Nat :=
  match next with
  | some e => e.addr.num
  | none => 340282366920938463463374607431768211456

theorem lt_bound_none (a : Block 16) : a.num < bound none := a.num_lt.trans_eq (by decide)

theorem lastAddr_num {next : Option RangeEvent} (h : 0 < bound next) : (lastAddr next).num + 1 = bound next := by
  cases next with
  | some e => exact decAddr_spec h
  | none => decide

section
variable {raw out out' : List IdxRange} {addr : Block 16} {b best : Nat}

theorem Covered.grow (h : Covered raw out addr.num) (hdisjoint : out'.Pairwise fun r s => s.hi.num < r.lo.num)
    (hle : ∀ r ∈ out', r.lo.num ≤ r.hi.num ∧ r.hi.num < b)
    (hhas : ∀ a : Block 16, ∀ i, (∃ r ∈ out', r.idx = i ∧ r.has a = true) ↔
      (∃ r ∈ out, r.idx = i ∧ r.has a = true) ∨ (addr.num ≤ a.num ∧ a.num < b ∧ best = i))
    (hbest : ∀ a : Block 16, addr.num ≤ a.num → a.num < b → IsLeast (covering raw a) best) : Covered raw out' b := by
  refine ⟨hdisjoint, hle, fun a ha i => (hhas a i).trans ?_⟩
  by_cases hbefore : a.num < addr.num
  · rw [← h.least a hbefore i, or_iff_left fun hnew => absurd hbefore (not_lt.mpr hnew.1)]
  · have hmin := hbest a (not_lt.mp hbefore) ha
    constructor
    · rintro (⟨r, hr, -, hr'⟩ | ⟨-, -, rfl⟩)
      · exact absurd ((IdxRange.has_iff.mp hr').2.trans_lt (h.le r hr).2) hbefore
      · exact hmin
    · exact fun hi => .inr ⟨not_lt.mp hbefore, ha, hmin.unique hi⟩

theorem Covered.append (h : Covered raw out addr.num) {last : Block 16} (hlast : last.num + 1 = b) (hlt : addr.num < b)
    (hbest : ∀ a : Block 16, addr.num ≤ a.num → a.num < b → IsLeast (covering raw a) best) :
    Covered raw (⟨addr, last, best⟩ :: out) b := by
  refine h.grow (pairwise_cons.mpr ⟨fun r hr => (h.le r hr).2, h.disjoint⟩) ?_ (fun a i => ?_) hbest
  · refine forall_mem_cons.mpr ⟨⟨by grind, by grind⟩, fun r hr => ⟨(h.le r hr).1, (h.le r hr).2.trans hlt⟩⟩
  · rw [exists_mem_cons_iff, IdxRange.has_iff, or_comm]
    grind

theorem Covered.extend (h : Covered raw (r :: out) addr.num) {last : Block 16} (hlast : last.num + 1 = b)
    (hlt : addr.num < b) (hnext : r.hi.num + 1 = addr.num)
    (hbest : ∀ a : Block 16, addr.num ≤ a.num → a.num < b → IsLeast (covering raw a) r.idx) :
    Covered raw ({ r with hi := last } :: out) b := by
  obtain ⟨hrle, hle⟩ := forall_mem_cons.mp h.le
  refine h.grow (pairwise_cons.mpr (pairwise_cons.mp h.disjoint)) ?_ (fun a i => ?_) hbest
  · refine forall_mem_cons.mpr ⟨⟨by grind, by grind⟩, fun s hs => ⟨(hle s hs).1, (hle s hs).2.trans hlt⟩⟩
  · rw [exists_mem_cons_iff, exists_mem_cons_iff, IdxRange.has_iff, IdxRange.has_iff]
    grind

end

theorem Covered.emit {raw : List IdxRange} {st : Sweep} {addr : Block 16} {next : Option RangeEvent}
    (h : Covered raw st.out addr.num) (hlt : addr.num < bound next) (htop : Least (covering raw addr) st.top)
    (hsame : ∀ a : Block 16, addr.num ≤ a.num → a.num < bound next → covering raw a = covering raw addr) :
    Covered raw (st.emit addr next).out (bound next) := by
  have hlast := lastAddr_num (Nat.zero_lt_of_lt hlt)
  unfold top at htop
  unfold Sweep.emit
  split
  · rename_i hzero
    rw [if_pos hzero] at htop
    refine ⟨h.disjoint, fun r hr => ⟨(h.le r hr).1, (h.le r hr).2.trans hlt⟩, fun a ha i => ?_⟩
    by_cases hbefore : a.num < addr.num
    · exact h.least a hbefore i
    · refine iff_of_false ?_ fun hmin => ?_
      · rintro ⟨r, hr, -, hhas⟩
        exact hbefore ((IdxRange.has_iff.mp hhas).2.trans_lt (h.le r hr).2)
      · rw [hsame a (not_lt.mp hbefore) ha, show covering raw addr = ∅ from htop] at hmin
        exact hmin.1
  · rename_i hne
    rw [if_neg hne] at htop
    have hbest : ∀ a : Block 16, addr.num ≤ a.num → a.num < bound next → IsLeast (covering raw a) st.active[0]! :=
      fun a hle ha => (hsame a hle ha).symm ▸ htop
    cases hout : st.out with
    | nil => exact (hout ▸ h).append hlast hlt hbest
    | cons r out =>
      dsimp only
      split
      · rename_i hmerge
        have hnext : r.hi.num + 1 = addr.num := by
          rcases incAddr_spec r.hi with ⟨-, hnum⟩ | ⟨hno, -⟩ <;> grind
        exact (hout ▸ h).extend hlast hlt hnext (hmerge.1 ▸ hbest)
      · exact (hout ▸ h).append hlast hlt hbest

section
variable {raw : List IdxRange} {n : Nat}

theorem addr_le {e f : RangeEvent} (h : f.less e = false) : e.addr.num ≤ f.addr.num := by
  unfold RangeEvent.less at h
  split at h
  · exact Block.not_less_iff.mp h
  · rename_i heq
    rw [not_not.mp heq]

variable {events : List RangeEvent}

theorem group_spec {e : RangeEvent} {same rest : List RangeEvent}
    (hsorted : (e :: events).Pairwise fun e f => f.less e = false)
    (hsame : (e :: events).takeWhile (fun f => f.addr = e.addr) = same)
    (hrest : (e :: events).dropWhile (fun f => f.addr = e.addr) = rest) :
    (∀ f ∈ same, f.addr = e.addr) ∧ (∀ f ∈ rest, e.addr.num < f.addr.num) ∧ rest.length ≤ events.length := by
  refine ⟨fun f hf => ?_, fun f hf => ?_, ?_⟩
  · rw [← hsame] at hf
    exact of_decide_eq_true (all_eq_true.mp all_takeWhile f hf)
  · have hsuffix : rest <:+ e :: events := hrest ▸ dropWhile_suffix _
    cases rest with
    | nil => cases hf
    | cons g rest =>
      have hg : ¬g.addr = e.addr := by
        have hhead := head?_dropWhile_not (fun f : RangeEvent => decide (f.addr = e.addr)) (e :: events)
        rw [hrest] at hhead
        exact of_decide_eq_false hhead
      have hle : e.addr.num ≤ g.addr.num := by
        rcases mem_cons.mp (hsuffix.subset mem_cons_self) with heq | hmem
        · rw [heq]
        · exact addr_le (rel_of_pairwise_cons hsorted hmem)
      have hlt : e.addr.num < g.addr.num := Nat.lt_of_le_of_ne hle fun heq => hg (Block.num_inj heq.symm)
      rcases mem_cons.mp hf with rfl | hf
      · exact hlt
      · exact hlt.trans_le (addr_le (rel_of_pairwise_cons (hsorted.sublist hsuffix.sublist) hf))
  · have hdrop := dropWhile_cons_of_pos (p := fun f : RangeEvent => decide (f.addr = e.addr)) (l := events)
      (decide_eq_true rfl)
    rw [hdrop] at hrest
    exact hrest ▸ (dropWhile_suffix _).length_le

theorem head_le (hsorted : events.Pairwise fun e f => f.less e = false) :
    ∀ f ∈ events, bound events.head? ≤ f.addr.num := by
  intro f hf
  cases events with
  | nil => cases hf
  | cons e events =>
    rcases mem_cons.mp hf with rfl | hf
    · exact le_rfl
    · exact addr_le (rel_of_pairwise_cons hsorted hf)

/-- The events done are those up to an address, and the ranges put out say which rules have the addresses
    before the next. -/
theorem run_covered (hnodup : (raw.map IdxRange.idx).Nodup) (hidx : ∀ r ∈ raw, r.idx < n) (k : Nat) :
    ∀ {done rest : List RangeEvent} {st : Sweep}, (done ++ rest).Perm (raw.flatMap rangeEvents) →
      (rest.Pairwise fun e f => f.less e = false) → (∀ e ∈ done, ∀ f ∈ rest, e.addr.num < f.addr.num) →
      rest.length ≤ k →
      Tracks done n st → Covered raw st.out (bound rest.head?) → Covered raw (run k rest st).out (bound none) := by
  induction k with
  | zero =>
    intro done rest st _ _ _ hk _ hcovered
    rw [eq_nil_of_length_eq_zero (Nat.le_zero.mp hk)] at hcovered
    exact hcovered
  | succ k ih =>
    intro done rest st hperm hsorted hbefore hk htracks hcovered
    cases rest with
    | nil => exact hcovered
    | cons e events =>
      obtain ⟨same, rest, hsame, hrest, hsplit⟩ : ∃ same rest, (e :: events).takeWhile
        (fun f => f.addr = e.addr) = same ∧
          (e :: events).dropWhile (fun f => f.addr = e.addr) = rest ∧ e :: events = same ++ rest :=
        ⟨_, _, rfl, rfl, takeWhile_append_dropWhile.symm⟩
      obtain ⟨hat, hafter, hlen⟩ := group_spec hsorted hsame hrest
      have hsorted' : rest.Pairwise fun e f => f.less e = false :=
        hsorted.sublist (hsplit ▸ sublist_append_right same rest)
      have hdoneLt : ∀ f ∈ done, f.addr.num < e.addr.num := fun f hf => hbefore f hf e mem_cons_self
      rw [hsplit, ← append_assoc] at hperm
      have hmem := fun f => hperm.mem_iff (a := f)
      have hdone : ∀ f, f ∈ done ++ same ↔ f ∈ raw.flatMap rangeEvents ∧ f.addr.num ≤ e.addr.num := by grind
      have hsameIdx : ∀ f ∈ same, f.idx < n := by
        intro f hf
        obtain ⟨r, hr, hri, -⟩ := mem_rangeEvents.mp ((hdone f).mp (mem_append_right _ hf)).1
        exact hri ▸ hidx r hr
      have hlt : e.addr.num < bound rest.head? := by
        cases rest with
        | nil => exact lt_bound_none _
        | cons g rest => exact hafter g mem_cons_self
      obtain ⟨htracks, hout⟩ := htracks.events hsameIdx
      obtain ⟨htracks, hout', htop⟩ := Tracks.clean _ htracks le_rfl
      rw [run, hsame, hrest]
      refine ih hperm hsorted' (fun f hf g hg => ((hdone f).mp hf).2.trans_lt (hafter g hg))
        (hlen.trans (Nat.le_of_succ_le_succ hk)) (htracks.emit _ _) ?_
      refine Covered.emit ?_ hlt (htracks.least htop hdone hnodup) fun a hle ha => covering_eq hle fun f hf => ?_
      · rw [hout', hout]
        exact hcovered
      · rcases mem_append.mp ((hmem f).mpr hf) with hf | hf
        · exact .inl ((hdone f).mp hf).2
        · exact .inr (ha.trans_le (head_le hsorted' f hf))

theorem covered_start (hperm : events.Perm (raw.flatMap rangeEvents))
    (hsorted : events.Pairwise fun e f => f.less e = false) : Covered raw [] (bound events.head?) := by
  refine ⟨List.Pairwise.nil, nofun, fun a ha i => iff_of_false nofun ?_⟩
  rintro ⟨⟨r, hr, -, hhas⟩, -⟩
  have hhead := head_le hsorted _ (hperm.mem_iff.mpr (start_mem hr))
  exact absurd ((IdxRange.has_iff.mp hhas).1.trans_lt ha) (not_lt.mpr hhead)

end

end Sweep

theorem flattenRanges_covered (sortEvents : Slice RangeEvent RangeEvent.less) {raw : List IdxRange} {ruleCount : Nat}
    (hidx : ∀ r ∈ raw, r.idx < ruleCount) (hnodup : (raw.map IdxRange.idx).Nodup) :
    Sweep.Covered raw (flattenRanges sortEvents raw ruleCount).reverse (Sweep.bound none) := by
  unfold flattenRanges
  split
  · rename_i hnil
    subst hnil
    exact ⟨List.Pairwise.nil, nofun, fun a _ i => iff_of_false nofun fun ⟨⟨r, hr, _⟩, _⟩ => absurd hr not_mem_nil⟩
  · have hperm := sortEvents.perm (raw.flatMap rangeEvents)
    have hsorted := sortEvents.sorted (raw.flatMap rangeEvents)
    have hbefore : ∀ e ∈ ([] : List RangeEvent), ∀ f ∈ sortEvents.sort (raw.flatMap rangeEvents), e.addr.num <
        f.addr.num := nofun
    rw [reverse_reverse]
    exact Sweep.run_covered hnodup hidx _ (nil_append _ ▸ hperm) hsorted hbefore le_rfl (Sweep.tracks_start ruleCount)
      (Sweep.covered_start hperm hsorted)

theorem rangeIndex_iff {ranges : List IdxRange} (hdisjoint : ranges.Pairwise fun r s => r.hi.num < s.lo.num)
    (hle : ∀ r ∈ ranges, r.lo.num ≤ r.hi.num) (a : Block 16) (i : Nat) :
    rangeIndex ranges a = some i ↔ ∃ r ∈ ranges, r.idx = i ∧ r.has a = true := by
  have hmono : ranges.Pairwise fun r s => (!r.hi.less a) = true → (!s.hi.less a) = true := by
    refine List.Pairwise.imp_of_mem (fun {r s} _ hs hrs hr => ?_) hdisjoint
    rw [Bool.not_eq_true', Block.not_less_iff] at hr ⊢
    have := hle s hs
    omega
  rw [rangeIndex, getElem?_search hmono]
  clear hmono
  induction ranges with
  | nil => simp
  | cons r ranges ih =>
    obtain ⟨hlt, hdisjoint⟩ := pairwise_cons.mp hdisjoint
    obtain ⟨hr, hle⟩ := forall_mem_cons.mp hle
    have ih := ih hdisjoint hle
    rw [exists_mem_cons_iff, find?_cons, IdxRange.has_iff]
    by_cases hend : r.hi.less a = true
    · have := Block.less_iff.mp hend
      grind
    · have hafter : ¬ ∃ s ∈ ranges, s.idx = i ∧ s.has a = true := by
        rintro ⟨s, hs, -, hhas⟩
        exact hend (Block.less_iff.mpr ((hlt s hs).trans_le (IdxRange.has_iff.mp hhas).1))
      rw [or_iff_left hafter, ← Block.not_less_iff, ← Block.not_less_iff]
      grind

/-- The ranges are in order and disjoint, and the search in them finds the first rule that has an address. -/
theorem flattenRanges_spec (sortEvents : Slice RangeEvent RangeEvent.less) {raw : List IdxRange} {ruleCount : Nat}
    (hidx : ∀ r ∈ raw, r.idx < ruleCount) (hnodup : (raw.map IdxRange.idx).Nodup) :
    ((flattenRanges sortEvents raw ruleCount).Pairwise fun r s => r.hi.less s.lo = true) ∧
      (∀ r ∈ flattenRanges sortEvents raw ruleCount, r.hi.less r.lo = false) ∧
      ∀ a : Block 16, Least { i | ∃ r ∈ raw, r.idx = i ∧ r.has a = true }
        (rangeIndex (flattenRanges sortEvents raw ruleCount) a) := by
  have hcovered := flattenRanges_covered sortEvents hidx hnodup
  have hdisjoint := pairwise_reverse.mp hcovered.disjoint
  have hle : ∀ r ∈ flattenRanges sortEvents raw ruleCount, r.lo.num ≤ r.hi.num := fun r hr =>
    (hcovered.le r (mem_reverse.mpr hr)).1
  refine ⟨hdisjoint.imp Block.less_iff.mpr, fun r hr => Block.not_less_iff.mpr (hle r hr), fun a => ?_⟩
  have hsome : ∀ i, rangeIndex (flattenRanges sortEvents raw ruleCount) a = some i ↔ IsLeast (covering raw a) i := by
    intro i
    rw [rangeIndex_iff hdisjoint hle, ← hcovered.least a (Sweep.lt_bound_none a) i]
    simp only [mem_reverse]
  cases hindex : rangeIndex (flattenRanges sortEvents raw ruleCount) a with
  | some i => exact (hsome i).mp hindex
  | none =>
    classical
    refine Set.not_nonempty_iff_eq_empty.mp fun hne => ?_
    exact Option.some_ne_none _ (((hsome _).mpr (Nat.isLeast_find hne)).symm.trans hindex)

def RangeEvent.rank (e : RangeEvent) : Nat := 2 * e.addr.num + if e.start then 0 else 1

theorem RangeEvent.not_less_iff {e f : RangeEvent} : e.less f = false ↔ f.rank ≤ e.rank := by
  unfold less rank
  split
  · rename_i hne
    have hnum : e.addr.num ≠ f.addr.num := fun h => hne (Block.num_inj h)
    rw [Block.not_less_iff]
    split <;> split <;> omega
  · rename_i heq
    rw [not_not.mp heq]
    cases e.start <;> cases f.start <;> simp

def eventsByInsertion : Slice RangeEvent RangeEvent.less :=
  .insertion
    (fun a b => (Nat.le_total a.rank b.rank).imp RangeEvent.not_less_iff.mpr RangeEvent.not_less_iff.mpr)
    (fun _ _ _ hab hbc =>
      RangeEvent.not_less_iff.mpr ((RangeEvent.not_less_iff.mp hab).trans (RangeEvent.not_less_iff.mp hbc)))

/-- The range of rule 0 lies inside that of rule 1, which reaches the last address. -/
theorem flattenRanges_nested : ((flattenRanges eventsByInsertion
        [⟨Block.ofNum 16 5, Block.ofNum 16 7, 0⟩, ⟨Block.ofNum 16 3, ⟨replicate 16 0xff, rfl⟩, 1⟩] 2).Pairwise
        fun r s => r.hi.less s.lo = true) ∧
      (∀ r ∈ flattenRanges eventsByInsertion
        [⟨Block.ofNum 16 5, Block.ofNum 16 7, 0⟩, ⟨Block.ofNum 16 3, ⟨replicate 16 0xff, rfl⟩, 1⟩] 2,
        r.hi.less r.lo = false) ∧
      ∀ a : Block 16,
        Least { i | ∃ r ∈ [⟨Block.ofNum 16 5, Block.ofNum 16 7, 0⟩, ⟨Block.ofNum 16 3, ⟨replicate 16 0xff, rfl⟩, 1⟩],
            IdxRange.idx r = i ∧ r.has a = true }
          (rangeIndex (flattenRanges eventsByInsertion
            [⟨Block.ofNum 16 5, Block.ofNum 16 7, 0⟩, ⟨Block.ofNum 16 3, ⟨replicate 16 0xff, rfl⟩, 1⟩] 2) a) :=
  flattenRanges_spec eventsByInsertion (by decide) (by decide)

end Whispera
