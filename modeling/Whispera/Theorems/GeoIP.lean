import Whispera.GeoIP

/-! The list is searched for the first range that ends at the address or above it: enough for ranges that do
not overlap, and not for a range with another one inside. -/

namespace Whispera
open List hiding get
open Net BigEndian Sorting

variable {r : IpRange}

theorem IpRange.has_iff {a : Block 16} : r.has a = true ↔ r.lo.num ≤ a.num ∧ a.num ≤ r.hi.num := by
  rw [has, Bool.and_eq_true, Bool.not_eq_true', Bool.not_eq_true', Block.not_less_iff, Block.not_less_iff]

theorem testBit_get_setBit : ∀ {bs : Bytes} {i : Nat} (k : Nat), i < 8 * bs.length →
    (get (bs.modify (i / 8) (· ||| 1 <<< UInt8.ofNat (7 - i % 8)))).testBit k =
      ((get bs).testBit k || decide (k + i + 1 = 8 * bs.length))
  | [], i, k, h => absurd h (Nat.not_lt_zero i)
  | b :: bs, i, k, h => by
    rw [length_cons] at h
    by_cases h8 : i < 8
    · have hbyte : ∀ i < 8, ∀ j < 8, ((1 : UInt8) <<< UInt8.ofNat (7 - i)).toNat.testBit j =
          decide (j + i + 1 = 8) := by decide
      rw [Nat.div_eq_of_lt h8, modify_zero_cons, testBit_get_cons, testBit_get_cons, Nat.mod_eq_of_lt h8, length_cons]
      split
      · rename_i hk
        rw [decide_eq_false (by omega), Bool.or_false]
      · rename_i hk
        obtain ⟨j, rfl⟩ := Nat.exists_eq_add_of_le (not_lt.mp hk)
        rw [Nat.add_sub_cancel_left, UInt8.toNat_or, Nat.testBit_or]
        congr 1
        by_cases hj : j < 8
        · rw [hbyte i h8 j hj, decide_eq_decide]
          omega
        · rw [decide_eq_false (by omega)]
          exact Nat.testBit_lt_two_pow (UInt8.toNat_lt _ |>.trans_le (Nat.pow_le_pow_right (by decide) (not_lt.mp hj)))
    · obtain ⟨i, rfl⟩ := Nat.exists_eq_add_of_le' (not_lt.mp h8)
      rw [Nat.add_div_right i (by decide), modify_succ_cons, Nat.add_mod_right, testBit_get_cons, testBit_get_cons,
        length_modify, length_cons]
      split
      · rw [testBit_get_setBit k (by omega)]
        congr 1
        rw [decide_eq_decide]
        omega
      · rw [decide_eq_false (by omega), Bool.or_false]

variable (a : Block 16) {xs : Bytes}

theorem testBit_setBit {i : Nat} (k : Nat) (h : i < 128) :
    (setBit a i).num.testBit k = (a.num.testBit k || decide (k + i + 1 = 128)) := by
  have hlen : 8 * a.val.length = 128 := by rw [a.length_val]
  have hbit := testBit_get_setBit k (hlen.symm ▸ h : i < 8 * a.val.length)
  rwa [hlen] at hbit

theorem testBit_foldl_setBit {ones : Nat} (m k : Nat) (h : ones + m = 128) :
    ((range' ones m).foldl setBit a).num.testBit k = (a.num.testBit k || decide (k < m)) := by
  induction m generalizing a ones with
  | zero => simp
  | succ m ih =>
    rw [range'_succ, foldl_cons, ih _ (by omega), testBit_setBit a k (by omega), Bool.or_assoc, ← Bool.decide_or]
    congr 1
    rw [decide_eq_decide]
    omega

theorem num_foldl_setBit {ones : Nat} (m : Nat) (h : ones + m = 128) :
    ((range' ones m).foldl setBit a).num = a.num ||| (2 ^ m - 1) := by
  refine Nat.eq_of_testBit_eq fun k => ?_
  rw [testBit_foldl_setBit a m k h, Nat.testBit_or, Nat.testBit_two_pow_sub_one]

theorem rangeOf_cases {n : IPNet} (h : rangeOf n = some r) :
    ∃ ip ones, n.ip.to16 = some ip ∧
    ones = (if (maskSize n.mask).2 = 32 then (maskSize n.mask).1 + 96 else (maskSize n.mask).1) ∧
      r.lo = Block.copy 16 ip ∧ r.hi = (range' ones (128 - ones)).foldl setBit (Block.copy 16 ip) := by
  unfold rangeOf at h
  split at h
  · cases h
  · rename_i ip hip
    dsimp only at h
    split at h <;> cases h
    exact ⟨ip, _, hip, rfl, rfl, rfl⟩

theorem lo_le_hi {n : IPNet} (h : rangeOf n = some r) : r.lo.num ≤ r.hi.num := by
  obtain ⟨ip, ones, -, -, hlo, hhi⟩ := rangeOf_cases h
  rw [hlo, hhi]
  by_cases hones : ones ≤ 128
  · rw [num_foldl_setBit _ _ (Nat.add_sub_cancel' hones)]
    exact Nat.left_le_or
  · rw [Nat.sub_eq_zero_of_le (not_le.mp hones).le]
    exact le_rfl

theorem between_iff {m q x : Nat} : (2 ^ m * q ≤ x ∧ x ≤ (2 ^ m * q ||| (2 ^ m - 1))) ↔ x / 2 ^ m = q := by
  have hpos : 0 < 2 ^ m := Nat.two_pow_pos m
  rw [← Nat.two_pow_add_eq_or_of_lt (Nat.sub_lt hpos Nat.one_pos), Nat.div_eq_iff hpos, mul_comm q]
  omega

/-- A network of `l` bytes with a mask of `n` bits. -/
structure Parsed (net : IPNet) (l n : Nat) : Prop where
  size : l = 4 ∨ l = 16
  length_ip : net.ip.length = l
  mask_eq : net.mask = cidrMask l n
  le : n ≤ 8 * l
  multiple : ∃ q, get net.ip = 2 ^ (8 * l - n) * q

theorem mask_four {v4 mask : Bytes} (h : v4.length = 4) (hmask : mask.length = 4) :
    IP.mask (v4InV6Prefix ++ v4) mask = zipWith (· &&& ·) v4 mask := by
  have hlen : (v4InV6Prefix ++ v4).length = 16 := by rw [length_append, h]; rfl
  have htake : (v4InV6Prefix ++ v4).take 12 = v4InV6Prefix := take_left' rfl
  have hdrop : (v4InV6Prefix ++ v4).drop 12 = v4 := drop_left' rfl
  have hwhole : ¬(mask.length = 16 ∧ (v4InV6Prefix ++ v4).length = 4 ∧ mask.take 12 = replicate 12 255) := by omega
  have hfour : mask.length = 4 ∧ (v4InV6Prefix ++ v4).length = 16 ∧ (v4InV6Prefix ++ v4).take 12 = v4InV6Prefix :=
    ⟨hmask, hlen, htake⟩
  rw [IP.mask, if_neg hwhole, if_pos hfour, hdrop, if_neg (not_not.mpr (h.trans hmask.symm))]

theorem mask_sixteen {v6 mask : Bytes} (h : v6.length = 16) (hmask : mask.length = 16) :
    IP.mask v6 mask = zipWith (· &&& ·) v6 mask := by
  have hwhole : ¬(mask.length = 16 ∧ v6.length = 4 ∧ mask.take 12 = replicate 12 255) := by omega
  have hfour : ¬(mask.length = 4 ∧ v6.length = 16 ∧ v6.take 12 = v4InV6Prefix) := by omega
  rw [IP.mask, if_neg hwhole, if_neg hfour, if_neg (not_not.mpr (h.trans hmask.symm))]

theorem parsed_mask {l n : Nat} (hl : l = 4 ∨ l = 16) (h : xs.length = l) (hn : n ≤ 8 * l) :
    Parsed ⟨zipWith (· &&& ·) xs (cidrMask l n), cidrMask l n⟩ l n := by
  refine ⟨hl, ?_, rfl, hn, _, get_mask h hn⟩
  rw [length_zipWith, h, length_cidrMask, Nat.min_self]

theorem parsed_of_parseCIDR {s : List Char} {net : IPNet} (h : parseCIDR s = some net) : ∃ l n, Parsed net l n := by
  unfold parseCIDR at h
  split at h
  · cases h
  · split at h
    · rename_i addr n haddr _
      -- The mask has four bytes iff the address was written with four.
      rcases parseAddr_cases haddr with ⟨v4, hv4, rfl⟩ | ⟨v6, hv6, rfl⟩
      · dsimp only at h
        rw [if_pos rfl] at h
        split at h <;> cases h
        rename_i hle
        rw [mask_four (length_parseIPv4 hv4) (length_cidrMask 4 n)]
        exact ⟨4, n, parsed_mask (Or.inl rfl) (length_parseIPv4 hv4) (not_lt.mp hle)⟩
      · dsimp only at h
        rw [if_neg Bool.false_ne_true] at h
        split at h <;> cases h
        rename_i hle
        rw [mask_sixteen (length_parseIPv6 hv6) (length_cidrMask 16 n)]
        exact ⟨16, n, parsed_mask (Or.inr rfl) (length_parseIPv6 hv6) (not_lt.mp hle)⟩
    all_goals cases h

theorem get_append (as bs : Bytes) : get (as ++ bs) = get as * 256 ^ bs.length + get bs := by
  rw [BigEndian.get, foldl_append, foldl_get]
  rfl

theorem get_v4 {v4 : Bytes} (h : v4.length = 4) : get (v4InV6Prefix ++ v4) = 2 ^ 32 * 65535 + get v4 := by
  have hstart : get v4InV6Prefix = 65535 := by decide
  rw [get_append, h, hstart, mul_comm]
  rfl

theorem length_to16 {ip a : IP} (h : ip.to16 = some a) : a.length = 16 := by
  unfold IP.to16 at h
  split at h
  · cases h
    rw [length_append, ‹ip.length = 4›]
    rfl
  · split at h <;> cases h
    assumption

theorem copy_num (h : xs.length = 16) : (Block.copy 16 xs).num = get xs := by
  rw [Block.num, Block.copy_val (le_of_eq h.symm), take_of_length_le (le_of_eq h)]

theorem Parsed.to16 {net : IPNet} {l n : Nat} (h : Parsed net l n) :
    ∃ ip q, net.ip.to16 = some ip ∧ get ip = 2 ^ (8 * l - n) * q := by
  obtain ⟨q, hq⟩ := h.multiple
  have hlen := h.length_ip
  have hle := h.le
  unfold IP.to16
  rcases h.size with rfl | rfl
  · refine ⟨_, 2 ^ n * 65535 + q, if_pos hlen, ?_⟩
    rw [get_v4 hlen, hq, mul_add, ← mul_assoc, ← pow_add, Nat.sub_add_cancel hle]
  · refine ⟨_, q, ?_, hq⟩
    rw [if_neg (by omega), if_pos hlen]

theorem Parsed.range {net : IPNet} {l n : Nat} (h : Parsed net l n) {ip : IP} (hip : net.ip.to16 = some ip) :
    ∃ r, rangeOf net = some r ∧
      ∀ a : Block 16, r.has a = true ↔ a.num / 2 ^ (8 * l - n) = get ip / 2 ^ (8 * l - n) := by
  obtain ⟨ip', q, hip', hq⟩ := h.to16
  cases hip.symm.trans hip'
  have hsize := maskSize_cidrMask h.le
  have hle := h.le
  obtain ⟨ones, hones, hm⟩ : ∃ ones, (if l * 8 = 32 then n + 96 else n) = ones ∧ ones + (8 * l - n) = 128 := by
    rcases h.size with rfl | rfl
    · exact ⟨n + 96, if_pos rfl, by omega⟩
    · exact ⟨n, if_neg (by decide), by omega⟩
  have hbits : l * 8 ≠ 0 := by
    rcases h.size with rfl | rfl <;> decide
  have hsub : 128 - ones = 8 * l - n := by omega
  refine ⟨⟨Block.copy 16 ip, (range' ones (128 - ones)).foldl setBit (Block.copy 16 ip)⟩, ?_, fun a => ?_⟩
  · rw [rangeOf, hip]
    rw [h.mask_eq, hsize]
    dsimp only
    rw [if_neg hbits, hones]
  · rw [IpRange.has_iff]
    rw [hsub, num_foldl_setBit _ _ hm, copy_num (length_to16 hip), hq, between_iff,
      Nat.mul_div_cancel_left q (Nat.two_pow_pos _)]

theorem canon_to16 {ip a : IP} (h : ip.to16 = some a) : ip.canon = a.canon := by
  unfold IP.to16 at h
  split at h
  · rename_i h4
    cases h
    have hlen : (v4InV6Prefix ++ ip).length = 16 := by rw [length_append, h4]; rfl
    have htake : (v4InV6Prefix ++ ip).take 12 = v4InV6Prefix := take_left' rfl
    have hdrop : (v4InV6Prefix ++ ip).drop 12 = ip := drop_left' rfl
    rw [IP.canon, IP.canon, IP.to4, IP.to4, if_pos h4, if_neg (by omega), if_pos ⟨hlen, htake⟩, hdrop]
    rfl
  · split at h <;> cases h
    rfl

theorem add_div_two_pow {m p x y : Nat} (hm : m ≤ 32) :
    (2 ^ 32 * p + x) / 2 ^ m = (2 ^ 32 * p + y) / 2 ^ m ↔ x / 2 ^ m = y / 2 ^ m := by
  have hsplit : 2 ^ 32 = 2 ^ m * 2 ^ (32 - m) := by rw [← pow_add, Nat.add_sub_cancel' hm]
  have hpos : 0 < 2 ^ m := Nat.two_pow_pos m
  rw [hsplit, mul_assoc, Nat.mul_add_div hpos, Nat.mul_add_div hpos, Nat.add_left_cancel_iff]

theorem take_eq_iff {a : IP} (h : a.length = 16) : a.take 12 = v4InV6Prefix ↔ get a / 2 ^ 32 = 65535 := by
  have hsplit : get a = 2 ^ 32 * get (a.take 12) + get (a.drop 12) := by
    conv_lhs => rw [← take_append_drop 12 a]
    rw [get_append, length_drop, h, mul_comm]
    rfl
  have hlt : get (a.drop 12) < 2 ^ 32 := by
    have := get_lt (a.drop 12)
    rwa [length_drop, h] at this
  have hstart : get v4InV6Prefix = 65535 := by decide
  rw [hsplit, Nat.mul_add_div (by decide), Nat.div_eq_of_lt hlt, add_zero, ← hstart]
  constructor
  · intro heq
    rw [heq]
  · intro heq
    refine Block.get_inj ?_ heq
    rw [length_take, h]
    rfl

theorem four_iff {xs a : IP} {n : Nat} (hx : xs.length = 4) (hn : n ≤ 32) (ha : a.length = 16) :
    (a.canon.length = xs.length ∧
        zipWith (· &&& ·) xs (cidrMask 4 n) = zipWith (· &&& ·) a.canon (cidrMask 4 n)) ↔
      get a / 2 ^ (32 - n) = get (v4InV6Prefix ++ xs) / 2 ^ (32 - n) := by
  rcases IP.canon_cases a with ⟨hcanon, hnot⟩ | ⟨hcanon, hlen⟩
  · rw [hcanon]
    constructor
    · omega
    · intro heq
      refine absurd ⟨ha, (take_eq_iff ha).mpr ?_⟩ hnot
      have hx32 : get xs < 2 ^ 32 := by
        have := get_lt xs
        rwa [hx] at this
      have hdiv := congrArg (· / 2 ^ n) heq
      rwa [Nat.div_div_eq_div_mul, Nat.div_div_eq_div_mul, ← pow_add, Nat.sub_add_cancel hn, get_v4 hx,
        Nat.mul_add_div (by decide), Nat.div_eq_of_lt hx32] at hdiv
  · conv_rhs => rw [hcanon]
    rw [get_v4 hlen, get_v4 hx, add_div_two_pow (Nat.sub_le _ _), mask_eq_iff (n := n) hx hlen hn]
    exact ⟨fun h => h.2.symm, fun h => ⟨hlen.trans hx.symm, h.symm⟩⟩

def mappedZero : IP := v4InV6Prefix ++ [0, 0, 0, 0]

theorem contains_iff {net : IPNet} {nn m ip : IP} (h : net.networkNumberAndMask = (nn, m)) :
    net.contains ip = true ↔ ip.canon.length = nn.length ∧ zipWith (· &&& ·) nn m = zipWith (· &&& ·) ip.canon m := by
  unfold IPNet.contains
  rw [h]
  exact decide_eq_true_iff

theorem Parsed.has_iff_of_four {net : IPNet} {l n k : Nat} (h : Parsed net l n) {ip nn : IP}
    (hip : net.ip.to16 = some ip)
    (hnn : nn.length = 4) (hk : k ≤ 32) (hpair : net.networkNumberAndMask = (nn, cidrMask 4 k))
    (hget : ip = v4InV6Prefix ++ nn) (hm : 8 * l - n = 32 - k) (hr : rangeOf net = some r) {x a : IP}
    (ha : x.to16 = some a) : r.has (Block.copy 16 a) = true ↔ net.contains x = true := by
  obtain ⟨r', hr', hhas⟩ := h.range hip
  cases hr.symm.trans hr'
  rw [hhas, contains_iff hpair, canon_to16 ha, copy_num (length_to16 ha), hm, hget]
  exact (four_iff hnn hk (length_to16 ha)).symm

theorem Parsed.mask_self {net : IPNet} {l n : Nat} (h : Parsed net l n) :
    zipWith (· &&& ·) net.ip (cidrMask l n) = net.ip := by
  obtain ⟨q, hq⟩ := h.multiple
  refine Block.get_inj ?_ ?_
  · rw [length_zipWith, h.length_ip, length_cidrMask, Nat.min_self]
  · rw [get_mask h.length_ip h.le, hq, Nat.mul_div_cancel_left q (Nat.two_pow_pos _)]

theorem mapped_div {a : IP} {m : Nat} (ha : get a / 2 ^ 32 = 65535) (hm : 32 ≤ m) :
    get a / 2 ^ m = 65535 / 2 ^ (m - 32) := by
  rw [← ha, Nat.div_div_eq_div_mul, ← pow_add, Nat.add_sub_cancel' hm]

def Agree (net : IPNet) (r : IpRange) : Prop :=
  ∀ x a, x.to16 = some a → (r.has (Block.copy 16 a) = true ↔ net.contains x = true)

theorem Parsed.agree_four {net : IPNet} {n : Nat} (h : Parsed net 4 n) (hr : rangeOf net = some r) : Agree net r := by
  have hlen := h.length_ip
  have hcanon : net.ip.canon = net.ip := by
    rw [IP.canon, IP.to4, if_pos hlen]
    rfl
  have hpair : net.networkNumberAndMask = (net.ip, cidrMask 4 n) := by
    rw [IPNet.networkNumberAndMask, hcanon, h.mask_eq, if_neg (by omega), if_pos (length_cidrMask 4 n),
      if_neg (by omega)]
  have hip : net.ip.to16 = some (v4InV6Prefix ++ net.ip) := by rw [IP.to16, if_pos hlen]
  exact fun x a ha => h.has_iff_of_four hip hlen h.le hpair rfl rfl hr ha

section
variable {net : IPNet} {n : Nat} (h : Parsed net 16 n)
include h

theorem Parsed.to16_self : net.ip.to16 = some net.ip := by
  have hlen := h.length_ip
  rw [IP.to16, if_neg (by omega), if_pos hlen]

theorem Parsed.le_of_mapped (hmapped : net.ip.take 12 = v4InV6Prefix) : 96 ≤ n := by
  obtain ⟨q, hq⟩ := h.multiple
  have h65535 := (take_eq_iff h.length_ip).mp hmapped
  by_contra hlt
  have hpow : 2 ^ (8 * 16 - n) = 2 ^ 32 * (2 * 2 ^ (95 - n)) := by
    rw [← Nat.pow_succ', ← pow_add]
    congr 1
    omega
  rw [hq, hpow, mul_assoc, Nat.mul_div_cancel_left _ (by decide), mul_assoc] at h65535
  omega

theorem Parsed.agree_mapped (hmapped : net.ip.take 12 = v4InV6Prefix) (hr : rangeOf net = some r) : Agree net r := by
  have hlen := h.length_ip
  have hle := h.le
  have h96 := h.le_of_mapped hmapped
  have hcanon : net.ip.canon = net.ip.drop 12 := by
    rw [IP.canon, IP.to4, if_neg (by omega), if_pos ⟨hlen, hmapped⟩]
    rfl
  have hdrop : (net.ip.drop 12).length = 4 := by rw [length_drop, hlen]
  have hpair : net.networkNumberAndMask = (net.ip.drop 12, cidrMask 4 (n - 96)) := by
    rw [IPNet.networkNumberAndMask, hcanon, h.mask_eq, if_neg (by omega), length_cidrMask, if_neg (by decide),
      if_pos rfl,
      if_pos hdrop, drop_cidrMask 4 12]
  have hget : net.ip = v4InV6Prefix ++ net.ip.drop 12 := by rw [← hmapped, take_append_drop]
  exact fun x a ha => h.has_iff_of_four h.to16_self hdrop (by omega) hpair hget (by omega) hr ha

theorem Parsed.agree_plain (hplain : net.ip.take 12 ≠ v4InV6Prefix) (hr : rangeOf net = some r) :
    Agree net r ↔ ¬(n < 96 ∧ mappedZero.mask net.mask = net.ip) := by
  have hlen := h.length_ip
  have hle := h.le
  obtain ⟨r', hr', hhas⟩ := h.range h.to16_self
  cases hr.symm.trans hr'
  have hcanon : net.ip.canon = net.ip := by
    rw [IP.canon, IP.to4, if_neg (by omega), if_neg (not_and.mpr fun _ => hplain)]
    rfl
  have hpair : net.networkNumberAndMask = (net.ip, cidrMask 16 n) := by
    rw [IPNet.networkNumberAndMask, hcanon, h.mask_eq, if_neg (by omega), length_cidrMask, if_neg (by decide),
      if_pos rfl,
      if_neg (by omega)]
  have hzero : mappedZero.length = 16 := rfl
  have hzero65535 : get mappedZero / 2 ^ 32 = 65535 := by decide
  have hzeroMask : mappedZero.mask net.mask = net.ip ↔
      get mappedZero / 2 ^ (8 * 16 - n) = get net.ip / 2 ^ (8 * 16 - n) := by
    rw [h.mask_eq, mask_sixteen hzero (length_cidrMask 16 n), ← mask_eq_iff hzero hlen hle, h.mask_self]
  have hnone : ∀ {x a : IP}, x.to16 = some a → a.canon.length = 4 → net.contains x = false := by
    intro x a ha h4
    rw [← Bool.not_eq_true, contains_iff hpair, canon_to16 ha, h4, hlen]
    exact fun hlen => absurd hlen.1 (by decide)
  rw [hzeroMask]
  constructor
  · rintro hall ⟨-, heq⟩
    have hzero16 : mappedZero.to16 = some mappedZero := rfl
    have hcontains := (hall mappedZero mappedZero hzero16).mp ((hhas _).mpr (by rwa [copy_num hzero]))
    rw [hnone hzero16 rfl] at hcontains
    exact Bool.false_ne_true hcontains
  · intro hnot x a ha
    have halen := length_to16 ha
    rw [hhas, copy_num halen]
    rcases IP.canon_cases a with ⟨hsame, -⟩ | ⟨hfour, h4⟩
    · rw [contains_iff hpair, canon_to16 ha, hsame, mask_eq_iff hlen halen hle]
      exact ⟨fun heq => ⟨halen.trans hlen.symm, heq.symm⟩, fun heq => heq.2.symm⟩
    · have ha65535 : get a / 2 ^ 32 = 65535 := by
        refine (take_eq_iff halen).mp ?_
        rw [hfour]
        exact take_left' rfl
      rw [hnone ha h4]
      refine iff_of_false (fun heq => ?_) Bool.false_ne_true
      by_cases h96 : n < 96
      · refine hnot ⟨h96, ?_⟩
        rw [← heq, mapped_div ha65535 (by omega), mapped_div hzero65535 (by omega)]
      · -- The prefix goes beyond the mark of an IPv4 address, which the network does not have.
        refine hplain ((take_eq_iff hlen).mpr ?_)
        have hpow : 2 ^ 32 = 2 ^ (8 * 16 - n) * 2 ^ (n - 96) := by
          rw [← pow_add]
          congr 1
          omega
        rw [← ha65535, hpow, ← Nat.div_div_eq_div_mul, ← Nat.div_div_eq_div_mul, heq]

end

/-- The range has the addresses of the network, unless that has sixteen bytes, a prefix of fewer than 96 bits,
    and the IPv4 addresses among those with that prefix. -/
theorem range_has_network_iff {s : List Char} {net : IPNet} (h : parseCIDR s = some net) : ∃ r, rangeOf net = some r ∧
      ((∀ x a, x.to16 = some a → (r.has (Block.copy 16 a) = true ↔ net.contains x = true)) ↔
        ¬(net.mask.length = 16 ∧ (maskSize net.mask).1 < 96 ∧ mappedZero.mask net.mask = net.ip)) := by
  obtain ⟨l, n, hparsed⟩ := parsed_of_parseCIDR h
  obtain ⟨ip, -, hip, -⟩ := hparsed.to16
  obtain ⟨r, hr, -⟩ := hparsed.range hip
  refine ⟨r, hr, ?_⟩
  rw [hparsed.mask_eq, maskSize_cidrMask hparsed.le, length_cidrMask, ← hparsed.mask_eq]
  change Agree net r ↔ _
  rcases hparsed.size with rfl | rfl
  · exact iff_of_true (hparsed.agree_four hr) fun h => absurd h.1 (by decide)
  · by_cases hmapped : net.ip.take 12 = v4InV6Prefix
    · have h96 := hparsed.le_of_mapped hmapped
      exact iff_of_true (hparsed.agree_mapped hmapped hr) fun h => absurd h.2.1 (not_lt.mpr h96)
    · rw [hparsed.agree_plain hmapped hr]
      exact not_congr ⟨fun h => ⟨rfl, h⟩, fun h => h.2⟩

theorem range_has_network_ten : parseCIDR "10.0.0.0/8".toList = some ⟨[10, 0, 0, 0], [255, 0, 0, 0]⟩ ∧
      ∃ r, rangeOf ⟨[10, 0, 0, 0], [255, 0, 0, 0]⟩ = some r ∧
        ((∀ x a, x.to16 = some a →
         (r.has (Block.copy 16 a) = true ↔ IPNet.contains ⟨[10, 0, 0, 0], [255, 0, 0, 0]⟩ x = true)) ↔
          ¬([255, 0, 0, 0].length = 16 ∧ (maskSize [255, 0, 0, 0]).1 < 96 ∧
            mappedZero.mask [255, 0, 0, 0] = [10, 0, 0, 0])) :=
  ⟨by decide, range_has_network_iff (s := "10.0.0.0/8".toList) (by decide)⟩

/-- The network `::/0` contains no IPv4 address, and its range has them all. -/
theorem range_has_network_all : parseCIDR "::/0".toList = some ⟨replicate 16 0, replicate 16 0⟩ ∧
      (rangeOf ⟨replicate 16 0, replicate 16 0⟩).any
        (fun r => r.has (Block.copy 16 (v4InV6Prefix ++ [1, 2, 3, 4]))) = true ∧
      IP.to16 [1, 2, 3, 4] = some (v4InV6Prefix ++ [1, 2, 3, 4]) ∧
      IPNet.contains ⟨replicate 16 0, replicate 16 0⟩ [1, 2, 3, 4] = false := by
  refine ⟨by decide, by decide +kernel, by decide, by decide⟩

/-- A range that begins above one after it begins no more than one address after the end of one before it. -/
def Searchable (ranges : List IpRange) : Prop :=
  ∀ i j (hi : i < ranges.length) (hj : j < ranges.length), i < j →
  (ranges.get ⟨j, hj⟩).lo.num < (ranges.get ⟨i, hi⟩).lo.num →
    ∃ k, ∃ hk : k < i, (ranges.get ⟨i, hi⟩).lo.num ≤ (ranges.get ⟨k, hk.trans hi⟩).hi.num + 1

theorem contains_eq_find {ranges : List IpRange} (hsorted : ranges.Pairwise fun r s => s.less r = false) {x a : IP}
    (ha : x.to16 = some a) :
    GeoIPSet.contains ⟨some ranges⟩ x =
      (ranges.find? fun r => !r.hi.less (Block.copy 16 a)).any fun r => !(Block.copy 16 a).less r.lo := by
  rw [GeoIPSet.contains, ha]
  dsimp only
  rw [getElem?_search]
  refine hsorted.imp fun {r s} hrs hr => ?_
  rw [IpRange.less, Block.not_less_iff] at hrs
  rw [Bool.not_eq_true', Block.not_less_iff] at hr ⊢
  exact hr.trans hrs

theorem find_any_iff {ranges : List IpRange} {a : Block 16} :
    ((ranges.find? fun r => !r.hi.less a).any fun r => !a.less r.lo) = true ↔
      ∃ i, ∃ hi : i < ranges.length, (ranges.get ⟨i, hi⟩).has a = true ∧
        ∀ k (hk : k < i), (ranges.get ⟨k, hk.trans hi⟩).hi.num < a.num := by
  rw [Option.any_eq_true]
  constructor
  · rintro ⟨r, hr, hlo⟩
    obtain ⟨hend, i, hi, rfl, hbefore⟩ := find?_eq_some_iff_getElem.mp hr
    refine ⟨i, hi, ?_, fun k hk => ?_⟩
    · rw [IpRange.has]
      exact Bool.and_eq_true_iff.mpr ⟨hlo, hend⟩
    · have hk' := hbefore k hk
      rw [Bool.not_not, Block.less_iff] at hk'
      exact hk'
  · rintro ⟨i, hi, hhas, hbefore⟩
    obtain ⟨hlo, hend⟩ := Bool.and_eq_true_iff.mp hhas
    refine ⟨ranges.get ⟨i, hi⟩, find?_eq_some_iff_getElem.mpr ⟨hend, i, hi, rfl, fun k hk => ?_⟩, hlo⟩
    rw [Bool.not_not, Block.less_iff]
    exact hbefore k hk

section
variable {ranges : List IpRange} (hsorted : ranges.Pairwise fun r s => s.less r = false)
include hsorted

theorem hi_mono {i j : Nat} (hi : i < ranges.length) (hj : j < ranges.length) (hij : i < j) :
    (ranges.get ⟨i, hi⟩).hi.num ≤ (ranges.get ⟨j, hj⟩).hi.num :=
  Block.not_less_iff.mp (pairwise_iff_get.mp hsorted ⟨i, hi⟩ ⟨j, hj⟩ hij)

theorem searchable_iff (hle : ∀ r ∈ ranges, r.lo.num ≤ r.hi.num) :
    (∀ a : Block 16, ((ranges.find? fun r => !r.hi.less a).any fun r => !a.less r.lo) = true ↔
      ∃ r ∈ ranges, r.has a = true) ↔ Searchable ranges := by
  constructor
  · -- The address below the range that begins too high is in a later one, and the search stops at the former.
    intro hall i j hi hj hij hlo
    by_contra hreach
    have hnone : ∀ k (hk : k < i), (ranges.get ⟨k, hk.trans hi⟩).hi.num + 1 < (ranges.get ⟨i, hi⟩).lo.num := fun k hk =>
      not_le.mp fun hle => hreach ⟨k, hk, hle⟩
    have hlt := (ranges.get ⟨i, hi⟩).lo.num_lt
    obtain ⟨a, ha⟩ : ∃ a : Block 16, a.num + 1 = (ranges.get ⟨i, hi⟩).lo.num :=
      ⟨Block.ofNum 16 ((ranges.get ⟨i, hi⟩).lo.num - 1), by rw [Block.num_ofNum (by omega)]; omega⟩
    have hi_le := hle _ (get_mem ranges ⟨i, hi⟩)
    have hmono := hi_mono hsorted hi hj hij
    have hmem : ∃ r ∈ ranges, r.has a = true :=
      ⟨_, get_mem ranges ⟨j, hj⟩, IpRange.has_iff.mpr ⟨by omega, by omega⟩⟩
    obtain ⟨k, hk, hhas, hbefore⟩ := find_any_iff.mp ((hall a).mpr hmem)
    obtain ⟨hklo, hkhi⟩ := IpRange.has_iff.mp hhas
    rcases Nat.lt_trichotomy k i with hki | rfl | hki
    · have := hnone k hki
      omega
    · omega
    · have := hbefore i hki
      omega
  · intro hsearch a
    constructor
    · intro hfound
      obtain ⟨i, hi, hhas, -⟩ := find_any_iff.mp hfound
      exact ⟨_, get_mem ranges ⟨i, hi⟩, hhas⟩
    · rintro ⟨r, hr, hhas⟩
      obtain ⟨⟨j, hj⟩, rfl⟩ := get_of_mem hr
      obtain ⟨hjlo, hjhi⟩ := IpRange.has_iff.mp hhas
      have hex : ∃ i, ∃ hi : i < ranges.length, a.num ≤ (ranges.get ⟨i, hi⟩).hi.num := ⟨j, hj, hjhi⟩
      classical
      obtain ⟨hi, hend⟩ := Nat.find_spec hex
      have hfirst : ∀ k (hk : k < Nat.find hex), (ranges.get ⟨k, hk.trans hi⟩).hi.num < a.num := fun k hk =>
        not_le.mp fun hge => Nat.find_min hex hk ⟨hk.trans hi, hge⟩
      have hij : Nat.find hex ≤ j := Nat.find_min' hex ⟨hj, hjhi⟩
      refine find_any_iff.mpr ⟨Nat.find hex, hi, IpRange.has_iff.mpr ⟨?_, hend⟩, hfirst⟩
      rcases Nat.eq_or_lt_of_le hij with heq | hlt
      · have hget : ranges.get ⟨Nat.find hex, hi⟩ = ranges.get ⟨j, hj⟩ := by congr
        rwa [hget]
      · by_contra hlow
        obtain ⟨k, hk, hreach⟩ := hsearch _ j hi hj hlt (by omega)
        have := hfirst k hk
        omega

end

theorem lo_le_hi_of_geoLine {line : List Char} (h : geoLine line = some r) : r.lo.num ≤ r.hi.num := by
  unfold geoLine at h
  dsimp only at h
  split at h
  · cases h
  · obtain ⟨net, -, hr⟩ := Option.bind_eq_some_iff.mp h
    exact lo_le_hi hr

/-- The list contains an address iff a line has it, for all addresses, iff the ranges of the lines are
    searchable. -/
theorem contains_lines_iff (sortRanges : Slice IpRange IpRange.less) {lines : List (List Char)} {ranges : List IpRange}
    (h : parseGeoIP sortRanges ⟨lines, none⟩ = .ok ranges) :
    (∀ x a, x.to16 = some a → (GeoIPSet.contains ⟨some ranges⟩ x = true ↔
      ∃ line ∈ lines, ∃ r, geoLine line = some r ∧ r.has (Block.copy 16 a) = true)) ↔ Searchable ranges := by
  cases h
  have hsorted := sortRanges.sorted (lines.filterMap geoLine)
  have hmem : ∀ r, r ∈ sortRanges.sort (lines.filterMap geoLine) ↔ ∃ line ∈ lines, geoLine line = some r := fun r => by
    rw [(sortRanges.perm _).mem_iff, mem_filterMap]
  have hle : ∀ r ∈ sortRanges.sort (lines.filterMap geoLine), r.lo.num ≤ r.hi.num := fun r hr => by
    obtain ⟨line, -, hline⟩ := (hmem r).mp hr
    exact lo_le_hi_of_geoLine hline
  rw [← searchable_iff hsorted hle]
  have hsame : ∀ a : Block 16, (∃ r ∈ sortRanges.sort (lines.filterMap geoLine), r.has a = true) ↔
      ∃ line ∈ lines, ∃ r, geoLine line = some r ∧ r.has a = true := by
    intro a
    constructor
    · rintro ⟨r, hr, hhas⟩
      obtain ⟨line, hline, heq⟩ := (hmem r).mp hr
      exact ⟨line, hline, r, heq, hhas⟩
    · rintro ⟨line, hline, r, heq, hhas⟩
      exact ⟨r, (hmem r).mpr ⟨line, hline, heq⟩, hhas⟩
  constructor
  · intro hall a
    have hself : IP.to16 a.val = some a.val := by
      rw [IP.to16, a.length_val]
      rfl
    have ha := hall a.val a.val hself
    rwa [contains_eq_find hsorted hself, Block.copy_self, ← hsame] at ha
  · intro hall x a ha
    rw [contains_eq_find hsorted ha, ← hsame]
    exact hall _

def rangesByInsertion : Slice IpRange IpRange.less :=
  .insertion
    (fun a b => (Nat.le_total a.hi.num b.hi.num).imp Block.not_less_iff.mpr Block.not_less_iff.mpr)
    (fun _ _ _ hab hbc => Block.not_less_iff.mpr ((Block.not_less_iff.mp hab).trans (Block.not_less_iff.mp hbc)))

theorem searchable_of_lo {ranges : List IpRange} (h : ranges.Pairwise fun r s => s.lo.less r.lo = false) :
    Searchable ranges := by
  intro i j hi hj hij hlo
  have hle := Block.not_less_iff.mp (pairwise_iff_get.mp h ⟨i, hi⟩ ⟨j, hj⟩ hij)
  exact absurd hle (not_le.mpr hlo)

theorem contains_lines_disjoint :
    ∃ ranges, parseGeoIP rangesByInsertion ⟨["11.0.0.0/8".toList, "10.1.0.0/16".toList], none⟩ = .ok ranges ∧
      ∀ x a, x.to16 = some a → (GeoIPSet.contains ⟨some ranges⟩ x = true ↔
        ∃ line ∈ ["11.0.0.0/8".toList, "10.1.0.0/16".toList], ∃ r, geoLine line = some r ∧
        r.has (Block.copy 16 a) = true) :=
  ⟨_, rfl, (contains_lines_iff rangesByInsertion rfl).mpr (searchable_of_lo (by decide +kernel))⟩

/-- With a network and another inside it on the list, an address of the outer one below the inner one is not
    found. -/
theorem contains_lines_nested :
    (GeoIPSet.load rangesByInsertion {} ⟨"10.0.0.0/8".toList :: replicate 99 "10.1.0.0/16".toList, none⟩).1.toOption =
        some 100 ∧
      (GeoIPSet.load rangesByInsertion {} ⟨"10.0.0.0/8".toList :: replicate 99 "10.1.0.0/16".toList, none⟩).2.contains
        [10, 0, 0, 5] = false ∧
      (geoLine "10.0.0.0/8".toList).any (fun r => r.has (Block.copy 16 (v4InV6Prefix ++ [10, 0, 0, 5]))) = true := by
  refine ⟨by decide +kernel, by decide +kernel, by decide +kernel⟩

end Whispera
