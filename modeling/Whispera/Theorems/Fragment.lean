import Whispera.Fragment
import Whispera.Theorems.ClientHello
import Mathlib.Tactic.Linarith

/-! The records are as many as the plan allows, none is empty, and they carry the payload. The server name is
cut if the budget is large enough for the chunks before it. Both need the sizes of the plan not to overflow.
-/

namespace Whispera
open List Exec BigEndian

variable {len : Nat} {payload : Bytes}

namespace FragmentPlan
variable {plan : FragmentPlan}

/-- The largest size that can be drawn is an `int`. -/
def SizeFits (plan : FragmentPlan) : Prop := plan.size + plan.size.tdiv 2 < 9223372036854775808

def PauseFits (plan : FragmentPlan) : Prop := ¬(plan.delayMax = 9223372036854775807 ∧ plan.delayMin ≤ 0)

/-- Nothing overflows, or the only record is the hello itself and its size is not even used. -/
def Safe (plan : FragmentPlan) : Prop :=
  (plan.SizeFits ∧ plan.PauseFits) ∨ (plan.allowed = 1 ∧ plan.size ≠ 9223372036854775807)

theorem allowed_pos (plan : FragmentPlan) : 1 ≤ plan.allowed := by
  unfold allowed defaultMaxHelloRecords
  split <;> omega

theorem allowed_lt (plan : FragmentPlan) : plan.allowed < 9223372036854775808 := by
  have := (plan.fits plan.maxRecords (by simp)).2
  unfold allowed defaultMaxHelloRecords
  split <;> omega

theorem share_le (plan : FragmentPlan) (h0 : 0 < len) (hlen : len ≤ 16384) :
    (wrap (wrap (len + plan.allowed) - 1)).tdiv plan.allowed ≤ 16384 := by
  have hpos := plan.allowed_pos
  have hlt := plan.allowed_lt
  generalize plan.allowed = a at *
  have hwrap : wrap (wrap (len + a) - 1) = wrap (len + a - 1) := Int.bmod_sub_bmod
  rw [hwrap]
  by_cases hover : (len : Int) + a - 1 < 9223372036854775808
  · rw [wrap_of_lt (by omega) hover, Int.tdiv_eq_ediv_of_nonneg (by omega)]
    have : ((len : Int) + a - 1) / a < len + 1 := Int.ediv_lt_of_lt_mul (by omega) (by nlinarith)
    omega
  · have hneg : wrap (len + a - 1) = -(18446744073709551616 - (len + a - 1)) := by
      rw [wrap, ← Int.sub_bmod_right, Int.bmod_eq_of_le_mul_two (by omega) (by omega)]
      omega
    rw [hneg, Int.neg_tdiv]
    have := Int.tdiv_nonneg (a := 18446744073709551616 - (len + a - 1)) (b := a) (by omega) (by omega)
    omega

theorem base_cases (plan : FragmentPlan) (h0 : 0 < len) (hlen : len ≤ 16384) :
    8 ≤ plan.base len ∧ plan.size ≤ plan.base len ∧ (plan.base len = plan.size ∨ plan.base len ≤ 16384) := by
  have hshare := plan.share_le h0 hlen
  unfold base
  grind

theorem tdiv_two {x : Int} (h : 0 ≤ x) : x.tdiv 2 = x / 2 := Int.tdiv_eq_ediv_of_nonneg h

theorem lo_eq (plan : FragmentPlan) (h0 : 0 < len) (hlen : len ≤ 16384) : plan.lo len = max 8 (plan.base len / 2) := by
  have := (plan.base_cases h0 hlen).1
  rw [lo, tdiv_two (by omega)]
  split <;> omega

theorem hi_eq (hfits : plan.SizeFits) (h0 : 0 < len) (hlen : len ≤ 16384) :
    plan.hi len = plan.base len + plan.base len / 2 ∧ plan.base len + plan.base len / 2 < 9223372036854775808 := by
  obtain ⟨h8, -, hbase⟩ := plan.base_cases h0 hlen
  have hlt : plan.base len + plan.base len / 2 < 9223372036854775808 := by
    rcases hbase with heq | hle
    · rw [SizeFits, ← heq, tdiv_two (by omega)] at hfits
      exact hfits
    · omega
  exact ⟨by rw [hi, tdiv_two (by omega), wrap_of_lt (by omega) hlt], hlt⟩

theorem returns_draw (hfits : plan.SizeFits) (h0 : 0 < len) (hlen : len ≤ 16384) (draw : Nat) :
    Returns (randIntn (wrap (wrap (plan.hi len - plan.lo len) + 1)) draw) fun d =>
    plan.lo len ≤ wrap (plan.lo len + d) := by
  obtain ⟨h8, -, -⟩ := plan.base_cases h0 hlen
  obtain ⟨hhi, hlt⟩ := hi_eq hfits h0 hlen
  rw [hhi, plan.lo_eq h0 hlen]
  generalize plan.base len = b at *
  rw [wrap_of_lt (x := b + b / 2 - max 8 (b / 2)) (by omega) (by omega), wrap_of_lt (by omega) (by omega), randIntn,
    if_neg (by omega)]
  have hd0 := Int.emod_nonneg (draw : Int) (b := b + b / 2 - max 8 (b / 2) + 1) (by omega)
  have hd1 := Int.emod_lt_of_pos (draw : Int) (b := b + b / 2 - max 8 (b / 2) + 1) (by omega)
  refine returns_ret.mpr ?_
  rw [wrap_of_lt (by omega) (by omega)]
  omega

theorem draw_of_not_fits (hfits : ¬plan.SizeFits) (h0 : 0 < len) (hlen : len ≤ 16384) :
    plan.base len = plan.size ∧ plan.lo len = plan.size / 2 ∧ 6148914691236517206 ≤ plan.size ∧
      wrap (wrap (plan.hi len - plan.lo len) + 1) = wrap (plan.size + 1) := by
  have hsize := (plan.fits plan.size (by simp)).2
  have hlarge : 6148914691236517206 ≤ plan.size := by
    by_contra hsmall
    refine hfits ?_
    rw [SizeFits]
    by_cases hneg : plan.size < 0
    · have := Int.tdiv_nonneg (a := -plan.size) (b := 2) (by omega) (by omega)
      rw [Int.neg_tdiv] at this
      omega
    · rw [tdiv_two (by omega)]
      omega
  obtain ⟨-, hle, hbase⟩ := plan.base_cases h0 hlen
  have hbase : plan.base len = plan.size := by omega
  have hlo : plan.lo len = plan.size / 2 := by
    rw [plan.lo_eq h0 hlen, hbase]
    omega
  refine ⟨hbase, hlo, hlarge, ?_⟩
  have hsub : wrap (plan.hi len - plan.lo len) = plan.size := by
    rw [hlo, hi, hbase, tdiv_two (by omega)]
    have hwrap : wrap (wrap (plan.size + plan.size / 2) - plan.size / 2) =
      wrap (plan.size + plan.size / 2 - plan.size / 2) :=
      Int.bmod_sub_bmod
    rw [hwrap, Int.add_sub_cancel, wrap_of_lt (by omega) (by omega)]
  rw [hsub]

theorem returns_fragmentPause (hfits : plan.PauseFits) (draw : Nat) :
    Returns (fragmentPause plan.delayMin plan.delayMax draw) fun _ => True := by
  have hmax := (plan.fits plan.delayMax (by simp)).2
  unfold fragmentPause
  by_cases hno : plan.delayMax ≤ 0
  · rw [if_pos hno]
    simp
  · rw [if_neg hno]
    dsimp only
    generalize hmin : (if plan.delayMin < 0 then 0 else plan.delayMin) = least
    have hleast : 0 ≤ least ∧ (least = 0 → plan.delayMin ≤ 0) := by
      subst hmin
      split <;> omega
    have hnotMax : ¬(plan.delayMax = 9223372036854775807 ∧ least = 0) := fun h => hfits ⟨h.1, hleast.2 h.2⟩
    by_cases hlt : plan.delayMax > least
    · rw [if_neg (show ¬least > plan.delayMax by omega), if_pos hlt,
        wrap_of_lt (x := plan.delayMax - least) (by omega) (by omega), wrap_of_lt (by omega) (by omega),
        randIntn, if_neg (by omega),
        ret_bind]
      simp
    · split <;> simp

theorem fragmentPause_panics (hfits : ¬plan.PauseFits) (draw : Nat) :
    fragmentPause plan.delayMin plan.delayMax draw = panic := by
  obtain ⟨hmax, hmin⟩ := not_not.mp hfits
  have hleast : (if plan.delayMin < 0 then 0 else plan.delayMin) = 0 := by
    split <;> omega
  rw [fragmentPause, hmax, hleast]
  rfl

/-- Something is drawn, at least the smallest chunk unless the first record takes all, and the pauses end. -/
structure Works (plan : FragmentPlan) (len : Nat) : Prop where
  draws : ∀ draw, Returns (randIntn (wrap (wrap (plan.hi len - plan.lo len) + 1)) draw) fun d =>
    plan.allowed = 1 ∨ plan.lo len ≤ wrap (plan.lo len + d)
  pauses : plan.allowed = 1 ∨ ∀ draw, Returns (fragmentPause plan.delayMin plan.delayMax draw) fun _ => True

theorem Safe.works (h : plan.Safe) (len : Nat) (h0 : 0 < len) (hlen : len ≤ 16384) : plan.Works len := by
  by_cases hfits : plan.SizeFits
  · refine ⟨fun draw => (returns_draw hfits h0 hlen draw).mono fun d hd => .inr hd, ?_⟩
    rcases h with ⟨-, hpause⟩ | ⟨hone, -⟩
    · exact .inr fun draw => returns_fragmentPause hpause draw
    · exact .inl hone
  · rcases h with ⟨hsize, -⟩ | ⟨hone, hne⟩
    · exact absurd hsize hfits
    · refine ⟨fun draw => ?_, .inl hone⟩
      have hlt := (plan.fits plan.size (by simp)).2
      obtain ⟨-, -, hlarge, hn⟩ := draw_of_not_fits hfits h0 hlen
      rw [hn, wrap_of_lt (by omega) (by omega), randIntn, if_neg (by omega)]
      exact returns_ret.mpr (.inl hone)

theorem eight_le_lo (plan : FragmentPlan) (len : Nat) : 8 ≤ plan.lo len := by
  unfold lo
  split <;> omega

end FragmentPlan

theorem tlsRecord_eq (header body : Bytes) : tlsRecord header body = header ++ putUint16 body.length ++ body := by
  simp [tlsRecord, putUint16, put, Nat.shiftRight_eq_div_pow]

section
variable {plan : FragmentPlan} {s : Fragmenter} {split drawn : Int}

theorem chunkSize_last (h : s.written.length + 1 ≥ plan.allowed) :
    chunkSize plan split drawn s = s.payload.length := if_pos h

theorem chunkSize_cases (split drawn : Int) (h : ¬s.written.length + 1 ≥ plan.allowed) :
    chunkSize plan split drawn s = min drawn s.payload.length ∧
    (split ≤ s.sent ∨ min drawn s.payload.length ≤ split - s.sent) ∨
      chunkSize plan split drawn s = split - s.sent ∧ s.sent < split ∧ split - s.sent < min drawn s.payload.length := by
  unfold chunkSize
  grind

theorem chunkSize_bounds (split : Int) (hpos : 0 < s.payload.length) (hdrawn : plan.allowed = 1 ∨ 0 < drawn) :
    0 < chunkSize plan split drawn s ∧ chunkSize plan split drawn s ≤ s.payload.length := by
  by_cases hlast : s.written.length + 1 ≥ plan.allowed
  · rw [chunkSize_last hlast]
    omega
  · rcases chunkSize_cases split drawn hlast with ⟨heq, -⟩ | ⟨heq, hlt, hcut⟩
    · rw [heq]
      omega
    · rw [heq]
      omega

variable (draws : FragmentDraws) (header : Bytes) {bodies : List Bytes}

theorem returns_fragmentRound (hworks : plan.Works len) (hpos : 0 < s.payload.length) :
    Returns (fragmentRound plan draws (fun _ => none) header len split s) fun r =>
      ∃ (drawn : Int) (c : Nat), (plan.allowed = 1 ∨ plan.lo len ≤ drawn) ∧ (c : Int) = chunkSize plan split drawn s ∧
        0 < c ∧ c ≤ s.payload.length ∧
        r = .inl {
          payload := s.payload.drop c
          sent := s.sent + c
          written := s.written ++ [tlsRecord header (s.payload.take c)] } := by
  have hlo := plan.eight_le_lo len
  rw [fragmentRound, if_pos hpos]
  refine (hworks.draws _).bind fun d hd => ?_
  generalize wrap (plan.lo len + d) = drawn at hd
  have hdrawn : plan.allowed = 1 ∨ 0 < drawn := by omega
  obtain ⟨hc0, hcle⟩ := chunkSize_bounds split hpos hdrawn
  obtain ⟨c, hc⟩ := Int.eq_ofNat_of_zero_le (Int.le_of_lt hc0)
  rw [hc]
  dsimp only
  rw [show (0 : Int) = (0 : Nat) from rfl, slice_eq (Nat.zero_le _) (by omega), ret_bind,
    slice_eq (by omega) (Nat.le_refl _), ret_bind, drop_zero, Nat.sub_zero]
  have hrest : (s.payload.drop c).take (s.payload.length - c) = s.payload.drop c :=
    take_of_length_le (by rw [length_drop])
  rw [hrest]
  have hpause : Returns (pauseBefore plan draws s.written.length (s.payload.drop c)) fun _ => True := by
    unfold pauseBefore
    split
    · rename_i hmore
      rcases hworks.pauses with hone | hpause
      · -- The only record takes all.
        rw [chunkSize_last (by omega)] at hc
        rw [length_drop] at hmore
        omega
      · exact hpause _
    · simp
  refine hpause.bind fun _ _ => ?_
  exact returns_ret.mpr ⟨drawn, c, hd, hc.symm, by omega, by omega, rfl⟩

/-- What has been written so far: the bodies of the records, none of them empty, as many as are allowed. -/
structure Fragmented (plan : FragmentPlan) (header payload : Bytes) (s : Fragmenter) (bodies : List Bytes) :
    Prop where
  written : s.written = bodies.map (tlsRecord header)
  nonempty : ∀ b ∈ bodies, b ≠ []
  carries : bodies.flatten ++ s.payload = payload
  sent : s.sent = bodies.flatten.length
  budget : bodies.length ≤ plan.allowed
  more : s.payload ≠ [] → bodies.length < plan.allowed

def CutAhead (plan : FragmentPlan) (len : Nat) (split : Int) (bodies : List Bytes) : Prop :=
  (∃ k, k ≤ bodies.length ∧ ((bodies.take k).flatten.length : Int) = split) ∨
    (bodies.flatten.length : Int) < split ∧ bodies.length * plan.lo len ≤ bodies.flatten.length

theorem Fragmented.round {header : Bytes} {c : Nat}
    (h : Fragmented plan header payload s bodies) (hc0 : 0 < c) (hle : c ≤ s.payload.length)
    (hc : (c : Int) = chunkSize plan split drawn s) :
    Fragmented plan header payload
      { payload := s.payload.drop c, sent := s.sent + c, written := s.written ++ [tlsRecord header (s.payload.take c)] }
      (bodies ++ [s.payload.take c]) := by
  have hne : s.payload ≠ [] := length_pos_iff.mp (by omega)
  have hmore := h.more hne
  have hlen : (s.payload.take c).length = c := by
    rw [length_take]
    omega
  refine ⟨?_, ?_, ?_, ?_, ?_, ?_⟩
  · rw [h.written, map_append]
    rfl
  · intro b hb
    rcases mem_append.mp hb with hb | hb
    · exact h.nonempty b hb
    · rw [mem_singleton.mp hb]
      exact length_pos_iff.mp (by omega)
  · rw [flatten_append, flatten_singleton, append_assoc, take_append_drop, h.carries]
  · show s.sent + (c : Int) = _
    rw [flatten_append, flatten_singleton, length_append, hlen, h.sent, Int.natCast_add]
  · rw [length_append, length_singleton]
    omega
  · intro hrest
    rw [length_append, length_singleton]
    have hwritten : s.written.length = bodies.length := by rw [h.written, length_map]
    by_contra hlast
    -- The last record that is allowed takes the rest.
    rw [chunkSize_last (by omega)] at hc
    exact hrest (drop_eq_nil_of_le (by omega))

theorem CutAhead.round {header : Bytes} {c : Nat}
    (h : Fragmented plan header payload s bodies) (hcut : CutAhead plan len split bodies)
    (hdrawn : plan.lo len ≤ drawn) (hle : c ≤ s.payload.length) (hc : (c : Int) = chunkSize plan split drawn s)
    (hsplit : split < payload.length) (hbudget : split ≤ (plan.allowed - 1) * plan.lo len) :
    CutAhead plan len split (bodies ++ [s.payload.take c]) := by
  rcases hcut with ⟨k, hk, hsum⟩ | ⟨hbefore, hmany⟩
  · refine .inl ⟨k, ?_, ?_⟩
    · rw [length_append]
      omega
    · rw [take_append_of_le_length hk]
      exact hsum
  · have hlo := plan.eight_le_lo len
    have hwritten : s.written.length = bodies.length := by rw [h.written, length_map]
    have hsent := h.sent
    have hlen : (s.payload.take c).length = c := by
      rw [length_take]
      omega
    have htotal : bodies.flatten.length + s.payload.length = payload.length := by
      rw [← h.carries, length_append]
    -- The budget is not used up: else all that was written would reach the server name.
    have hfree : ¬s.written.length + 1 ≥ plan.allowed := by
      intro hlast
      have : (plan.allowed - 1) * plan.lo len ≤ bodies.length * plan.lo len :=
        Int.mul_le_mul_of_nonneg_right (by omega) (by omega)
      omega
    have hnew : (bodies ++ [s.payload.take c]).flatten.length = bodies.flatten.length + c := by
      rw [flatten_append, flatten_singleton, length_append, hlen]
    by_cases hat : (bodies.flatten.length : Int) + c = split
    · refine .inl ⟨_, Nat.le_refl _, ?_⟩
      rw [take_length, hnew]
      omega
    · refine .inr ?_
      rw [hnew, length_append, length_singleton]
      rcases chunkSize_cases split drawn hfree with ⟨heq, hcase⟩ | ⟨heq, -, -⟩
      · refine ⟨by omega, ?_⟩
        push_cast
        rw [Int.add_mul]
        omega
      · omega

/-- All that is written: records that carry the payload, and one that ends at the split if the budget allows
    for it. -/
theorem returns_fragments (hworks : plan.Works payload.length) :
    Returns (loop (fragmentRound plan draws (fun _ => none) header payload.length split)
      (payload.length + 1) { payload })
      fun records => ∃ bodies : List Bytes, records = bodies.map (tlsRecord header) ∧ (∀ b ∈ bodies, b ≠ []) ∧
        bodies.flatten = payload ∧
        bodies.length ≤ plan.allowed ∧
        (0 < split → split < payload.length → split ≤ (plan.allowed - 1) * plan.lo payload.length →
          ∃ k, 0 < k ∧ k < bodies.length ∧ ((bodies.take k).flatten.length : Int) = split) := by
  have hallowed := plan.allowed_pos
  refine returns_loop (m := fun s => s.payload.length)
    (I := fun s => ∃ bodies, Fragmented plan header payload s bodies ∧
    (0 < split → split < payload.length → split ≤ (plan.allowed - 1) * plan.lo payload.length →
      CutAhead plan payload.length split bodies)) (fun s hs => ?_) _ _ ?_ (Nat.lt_succ_self _)
  · obtain ⟨bodies, hf, hcut⟩ := hs
    by_cases hpos : 0 < s.payload.length
    · refine (returns_fragmentRound draws header hworks hpos).mono fun r hr => ?_
      obtain ⟨drawn, c, hdrawn, hc, hc0, hle, rfl⟩ := hr
      refine ⟨?_, nofun⟩
      rintro t ⟨⟩
      refine ⟨⟨_, hf.round hc0 hle hc, fun hs0 hlt hbudget => ?_⟩, ?_⟩
      · rcases hdrawn with hone | hdrawn
        · rw [hone] at hbudget
          omega
        · exact (hcut hs0 hlt hbudget).round hf hdrawn hle hc hlt hbudget
      · rw [length_drop]
        omega
    · rw [fragmentRound, if_neg hpos]
      refine returns_ret.mpr ⟨nofun, ?_⟩
      rintro _ ⟨⟩
      have hnil : s.payload = [] := length_eq_zero_iff.mp (by omega)
      have hflat : bodies.flatten = payload := by
        rw [← hf.carries, hnil, append_nil]
      refine ⟨bodies, hf.written, hf.nonempty, hflat, hf.budget, fun hs0 hlt hbudget => ?_⟩
      rcases hcut hs0 hlt hbudget with ⟨k, hk, hsum⟩ | ⟨hbefore, -⟩
      · refine ⟨k, Nat.pos_of_ne_zero ?_, Nat.lt_of_le_of_ne hk ?_, hsum⟩
        · rintro rfl
          rw [take_zero, flatten_nil, length_nil] at hsum
          omega
        · rintro rfl
          rw [take_length, hflat] at hsum
          omega
      · rw [hflat] at hbefore
        omega
  · refine ⟨[], ⟨rfl, nofun, rfl, rfl, ?_, fun _ => ?_⟩, fun hs0 _ _ => .inr ⟨?_, ?_⟩⟩
    · rw [length_nil]
      omega
    · rw [length_nil]
      omega
    · exact hs0
    · simp

end

def helloRecord (major minor : UInt8) (payload : Bytes) : Bytes := tlsRecord [0x16, major, minor] payload

theorem returns_sniSplitOffset (payload : Bytes) : Returns (sniSplitOffset payload) fun s => s = -1 ∨
      ∃ name n, ServerNameAt payload name n ∧ 2 ≤ n ∧ s = (name + n / 2 : Nat) := by
  refine (returns_findServerName payload).bind fun r hr => ?_
  cases r with
  | none => simp
  | some r =>
    obtain ⟨hname, hn⟩ := hr r.1 r.2 rfl
    exact returns_ret.mpr (.inr ⟨r.1, r.2, hname, hn, rfl⟩)

theorem writeFragmentedTLSRecord_eq (plan : FragmentPlan) (draws : FragmentDraws) (conn : Nat → Option String)
    (major minor : UInt8) {s : Int} (h0 : 0 < payload.length) (hs : sniSplitOffset payload = ret s) :
    writeFragmentedTLSRecord plan draws conn (helloRecord major minor payload) =
      loop (fragmentRound plan draws conn [0x16, major, minor] payload.length s) (payload.length + 1) { payload } := by
  have hlen : ¬((helloRecord major minor payload).length < 6 ∨ (helloRecord major minor payload).headD 0 ≠ 0x16) := by
    simp only [helloRecord, tlsRecord, length_append, length_cons, length_nil]
    rintro (h | h)
    · omega
    · exact h rfl
  rw [writeFragmentedTLSRecord, if_neg hlen]
  have hdrop : (helloRecord major minor payload).drop 5 = payload := rfl
  have htake : (helloRecord major minor payload).take 3 = [0x16, major, minor] := rfl
  rw [hdrop, htake]
  dsimp only
  rw [hs, ret_bind]

theorem ServerNameAt.le {name n : Nat} (h : ServerNameAt payload name n) : name + n ≤ payload.length := by
  obtain ⟨hello, others, size, listHead, nameLen, bytes, rest, rfl, -, -, -, -, -, -, hn, hname⟩ := h
  generalize hello ++ others ++ [0, 0] ++ size ++ listHead ++ nameLen = front at hname ⊢
  rw [hname, length_append, length_append, hn]
  omega

/-- A record is split inside its server name. -/
theorem sniSplitOffset_within (payload : Bytes) : Returns (sniSplitOffset payload) fun s => 0 ≤ s →
      ∃ name n, ServerNameAt payload name n ∧ (name : Int) < s ∧ s < (name + n : Nat) ∧ name + n ≤ payload.length := by
  refine (returns_sniSplitOffset payload).mono fun s hs h0 => ?_
  obtain rfl | ⟨name, n, hname, hn, rfl⟩ := hs
  · omega
  · exact ⟨name, n, hname, by omega, by omega, hname.le⟩

section
variable {plan : FragmentPlan}

theorem panics_of_not_sizeFits (hfits : ¬plan.SizeFits) (hone : plan.allowed = 1 → plan.size = 9223372036854775807)
    (header : Bytes) (split : Int) (payload : Bytes) (h0 : 0 < payload.length) (hlen : payload.length ≤ 16384) :
    ∃ draws, loop (fragmentRound plan draws (fun _ => none) header payload.length split)
      (payload.length + 1) { payload } =
      panic := by
  have hallowed := plan.allowed_pos
  have hsize := (plan.fits plan.size (by simp)).2
  obtain ⟨-, hlo, hlarge, hn⟩ := FragmentPlan.draw_of_not_fits hfits h0 hlen
  refine ⟨⟨fun _ => plan.size.toNat, fun _ => 0⟩, ?_⟩
  have hround : fragmentRound plan ⟨fun _ => plan.size.toNat, fun _ => 0⟩ (fun _ => none) header payload.length split
      { payload } = panic := by
    rw [fragmentRound, if_pos h0, hn, hlo]
    by_cases hmax : plan.size = 9223372036854775807
    · rw [hmax]
      rfl
    · have hdraw : randIntn (wrap (plan.size + 1)) plan.size.toNat = ret plan.size := by
        rw [wrap_of_lt (by omega) (by omega), randIntn, if_neg (by omega), Int.toNat_of_nonneg (by omega),
          Int.emod_eq_of_lt (by omega) (by omega)]
      have hover : wrap (plan.size / 2 + plan.size) < 0 := by
        rw [wrap, ← Int.sub_bmod_right, Int.bmod_eq_of_le_mul_two (by omega) (by omega)]
        omega
      rw [hdraw, ret_bind]
      generalize wrap (plan.size / 2 + plan.size) = drawn at hover
      have hneg : chunkSize plan split drawn { payload } < 0 := by
        have hfirst : ¬(([] : List Bytes).length + 1 : Int) ≥ plan.allowed := by
          rw [length_nil]
          omega
        rcases chunkSize_cases (s := { payload }) split drawn hfirst with ⟨heq, -⟩ | ⟨-, hlt, hcut⟩
        · rw [heq]
          omega
        · omega
      dsimp only
      rw [slice, if_neg (by omega), panic_bind]
  rw [loop, hround, panic_bind]

theorem panics_of_not_pauseFits (hsize : plan.SizeFits) (hpause : ¬plan.PauseFits) (hone : plan.allowed ≠ 1)
    (draws : FragmentDraws) (header : Bytes) (split : Int) (payload : Bytes) (hlen : payload.length ≤ 16384)
    (hsplit : 0 < split) (hlt : split < payload.length) :
    loop (fragmentRound plan draws (fun _ => none) header payload.length split)
      (payload.length + 1) { payload } = panic := by
  have hallowed := plan.allowed_pos
  have h0 : 0 < payload.length := by omega
  have hround : fragmentRound plan draws (fun _ => none) header payload.length split { payload } = panic := by
    obtain ⟨d, hdraw, hd⟩ := FragmentPlan.returns_draw hsize h0 hlen (draws.chunk 0)
    have hlo := plan.eight_le_lo payload.length
    rw [fragmentRound, if_pos h0]
    dsimp only [length_nil]
    rw [hdraw, ret_bind]
    generalize wrap (plan.lo payload.length + d) = drawn at hd
    have hfirst : ¬(([] : List Bytes).length + 1 : Int) ≥ plan.allowed := by
      rw [length_nil]
      omega
    obtain ⟨c, hc, hc0, hclt⟩ : ∃ c : Nat, chunkSize plan split drawn { payload } = c ∧ 0 < c ∧ c < payload.length := by
      refine ⟨(chunkSize plan split drawn { payload }).toNat, ?_⟩
      rcases chunkSize_cases (s := { payload }) split drawn hfirst with ⟨heq, hcase⟩ | ⟨heq, -, hcut⟩
      · dsimp only at heq hcase
        omega
      · dsimp only at heq hcut
        omega
    rw [hc]
    rw [show (0 : Int) = (0 : Nat) from rfl, slice_eq (Nat.zero_le _) (by omega), ret_bind,
      slice_eq (by omega) (Nat.le_refl _), ret_bind, pauseBefore, if_pos,
      FragmentPlan.fragmentPause_panics hpause, panic_bind]
    rw [length_take, length_drop]
    omega
  rw [loop, hround, panic_bind]

end

def shortNameHello : Bytes :=
  [0x01, 0x00, 0x00, 0xec, 0x03, 0x03] ++ replicate 32 0 ++ [0x00, 0x00, 0x02, 0x13, 0x01, 0x01, 0x00, 0x00, 0xc1] ++
    [0x00, 0x00, 0x00, 0x07, 0x00, 0x05, 0x00, 0x00, 0x02, 0x61, 0x62] ++ [0x00, 0x15, 0x00, 0xb2] ++ replicate 178 0

theorem shortNameHello_split : shortNameHello.length = 240 ∧ sniSplitOffset shortNameHello = ret 57 := by
  decide +kernel

theorem shortNameHello_budget (plan : FragmentPlan) (h : plan.allowed ≠ 1) : 57 ≤ (plan.allowed - 1) * plan.lo 240 := by
  have hallowed := plan.allowed_pos
  have hlo := plan.eight_le_lo 240
  by_cases hmany : 9 ≤ plan.allowed
  · calc (57 : Int) ≤ 8 * 8 := by decide
      _ ≤ (plan.allowed - 1) * plan.lo 240 := Int.mul_le_mul (by omega) hlo (by omega) (by omega)
  · have hbase : (240 + plan.allowed - 1) / plan.allowed ≤ plan.base 240 := by
      have hshare : (wrap (wrap ((240 : Nat) + plan.allowed) - 1)).tdiv plan.allowed =
          (240 + plan.allowed - 1) / plan.allowed := by
        rw [wrap_of_lt (x := ((240 : Nat) : Int) + plan.allowed) (by omega) (by omega),
          wrap_of_lt (by omega) (by omega),
          Int.tdiv_eq_ediv_of_nonneg (by omega)]
        rfl
      unfold FragmentPlan.base
      grind
    rw [plan.lo_eq (by decide) (by decide)]
    obtain h | h | h | h | h | h | h : plan.allowed = 2 ∨ plan.allowed = 3 ∨ plan.allowed = 4 ∨ plan.allowed = 5 ∨
        plan.allowed = 6 ∨ plan.allowed = 7 ∨ plan.allowed = 8 := by omega
    all_goals
      rw [h] at hbase ⊢
      omega

theorem shortNameHello_panics {plan : FragmentPlan} (hfits : ¬(plan.SizeFits ∧ plan.PauseFits))
    (hone : plan.allowed = 1 → plan.size = 9223372036854775807) :
    ∃ draws, writeFragmentedTLSRecord plan draws (fun _ => none) (helloRecord 3 1 shortNameHello) = panic := by
  obtain ⟨hlen, hsplit⟩ := shortNameHello_split
  by_cases hsize : plan.SizeFits
  · have hallowed : plan.allowed ≠ 1 := by
      intro h
      rw [FragmentPlan.SizeFits, hone h] at hsize
      exact absurd hsize (by decide)
    have hpanic := panics_of_not_pauseFits hsize (fun hp => hfits ⟨hsize, hp⟩) hallowed
      ⟨fun _ => 0, fun _ => 0⟩ [0x16, 3, 1]
      57 shortNameHello (by omega) (by omega) (by omega)
    exact ⟨_, (writeFragmentedTLSRecord_eq plan _ _ 3 1 (by omega) hsplit).trans hpanic⟩
  · obtain ⟨draws, hpanic⟩ := panics_of_not_sizeFits hsize hone [0x16, 3, 1] 57 shortNameHello (by omega) (by omega)
    exact ⟨draws, (writeFragmentedTLSRecord_eq plan _ _ 3 1 (by omega) hsplit).trans hpanic⟩

/-- A boundary between two records falls strictly inside the server name. -/
def CutsServerName (payload : Bytes) (bodies : List Bytes) : Prop :=
  ∃ k name n, 0 < k ∧ k < bodies.length ∧ ServerNameAt payload name n ∧ name < (bodies.take k).flatten.length ∧
    (bodies.take k).flatten.length < name + n

/-- Every hello whose server name the budget reaches is cut there just if nothing in the plan overflows, or
    there is but one record and the budget reaches no server name. -/
theorem serverName_cut_iff (plan : FragmentPlan) :
    (∀ major minor payload s draws, payload.length ≤ 16384 → sniSplitOffset payload = ret s → 0 ≤ s →
      s ≤ (plan.allowed - 1) * plan.lo payload.length →
      Returns (writeFragmentedTLSRecord plan draws (fun _ => none) (helloRecord major minor payload)) fun records =>
        ∃ bodies, records = bodies.map (tlsRecord [0x16, major, minor]) ∧ CutsServerName payload bodies) ↔
      plan.allowed = 1 ∨ plan.SizeFits ∧ plan.PauseFits := by
  constructor
  · intro h
    by_contra hnot
    obtain ⟨hone, hfits⟩ := not_or.mp hnot
    obtain ⟨hlen, hsplit⟩ := shortNameHello_split
    obtain ⟨draws, hpanic⟩ := shortNameHello_panics hfits fun h => absurd h hone
    obtain ⟨records, hret, -⟩ := h 3 1 shortNameHello 57 draws (by omega) hsplit (by omega)
      (hlen.symm ▸ shortNameHello_budget plan hone)
    rw [hpanic] at hret
    cases hret
  · intro hfits major minor payload s draws hlen hs hfound hbudget
    obtain ⟨s', hs', hname⟩ := returns_sniSplitOffset payload
    obtain rfl : s = s' := by simpa using hs.symm.trans hs'
    obtain ⟨name, n, hname, hn, hat⟩ : ∃ name n, ServerNameAt payload name n ∧ 2 ≤ n ∧ s = (name + n / 2 : Nat) := by
      rcases hname with h | h
      · omega
      · exact h
    have hle := hname.le
    rcases hfits with hone | hfits
    · rw [hone] at hbudget
      omega
    · rw [writeFragmentedTLSRecord_eq plan draws _ major minor (by omega) hs]
      have hworks := FragmentPlan.Safe.works (.inl hfits) payload.length (by omega) hlen
      refine (returns_fragments draws [0x16, major, minor] hworks).mono fun records hrecords => ?_
      obtain ⟨bodies, hrec, -, -, -, hcut⟩ := hrecords
      obtain ⟨k, hk0, hk, hsum⟩ := hcut (by omega) (by omega) hbudget
      exact ⟨bodies, hrec, k, name, n, hk0, hk, hname, by omega, by omega⟩

def hugePlan : FragmentPlan where
  size := 9223372036854775807
  maxRecords := 8
  delayMin := 0
  delayMax := 0
  fits := by decide

/-- The budget reaches the server name, but the call panics before anything is written. -/
theorem hugePlan_panics :
    sniSplitOffset shortNameHello = ret 57 ∧ 57 ≤ (hugePlan.allowed - 1) * hugePlan.lo shortNameHello.length ∧
      writeFragmentedTLSRecord hugePlan ⟨fun _ => 5, fun _ => 0⟩ (fun _ => none)
        (helloRecord 3 1 shortNameHello) = panic := by
  decide +kernel

end Whispera
