import Whispera.Lib.ParseCase
import Whispera.Theorems.SplitRanges
import Mathlib.Data.List.Find
import Mathlib.Data.List.Induction

/-! The least of what the tables of a snapshot give is the first enabled rule that hits. Which of the rules
with one key is left when duplicates are removed does not depend on which are enabled. -/

namespace Whispera
open List Net Sorting

namespace Lowering
variable (low : Lowering)

theorem ascii_lower : ∀ n < 128, ∀ c, c = Char.ofNat n → isDecimal c.toLower = isDecimal c ∧
    (isDecimal c = true → c.toLower = c) ∧ isHex c.toLower = isHex c ∧
    (isHex c = true → hexDigit c.toLower = hexDigit c) ∧
    ∀ d ∈ ['.', ':', '%', '/', '*'], (c.toLower = d ↔ c = d) := by
  intro n hn c hc
  subst hc
  simp only [forall_mem_cons, not_mem_nil, false_imp_iff, implies_true, and_true]
  revert n
  decide +kernel

theorem not_hex {c : Char} (hc : 128 ≤ c.toNat) : isHex c = false := by
  have h : ∀ d : Char, d.toNat < 128 → ¬ c ≤ d := fun d hd hle => absurd (Nat.lt_of_le_of_lt hle hd) (Nat.not_lt.mpr hc)
  simp [isHex, isDecimal, h '9' (by decide), h 'f' (by decide), h 'F' (by decide)]

theorem other_lower {c : Char} (hc : 128 ≤ c.toNat) :
    isHex (low.lower c) = false ∧ ∀ d ∈ ['.', ':', '%', '/', '*'], low.lower c ≠ d := by
  have hmark : ∀ d ∈ ['.', ':', '%', '/', '*'], d.toNat < 128 ∧ 'i' ≠ d ∧ 'k' ≠ d := by simp
  rcases low.other c hc with h | h | h
  · exact ⟨not_hex h, fun d hd heq => absurd (heq ▸ h) (not_le.mpr (hmark d hd).1)⟩
  · exact h ▸ ⟨by decide, fun d hd => (hmark d hd).2.1⟩
  · exact h ▸ ⟨by decide, fun d hd => (hmark d hd).2.2⟩

theorem lower_mark (c : Char) {d : Char} (hd : d ∈ ['.', ':', '%', '/', '*']) : low.lower c = d ↔ c = d := by
  by_cases hc : c.toNat < 128
  · rw [low.ascii c hc]
    exact (ascii_lower _ hc c (Char.ofNat_toNat c).symm).2.2.2.2 d hd
  · have hmark : ∀ d ∈ ['.', ':', '%', '/', '*'], d.toNat < 128 := by simp
    exact iff_of_false ((low.other_lower (not_lt.mp hc)).2 d hd) fun heq => hc (heq ▸ hmark d hd)

theorem keepsDigits : KeepsDigits low.lower := by
  have hdec : ∀ {c}, isHex c = false → isDecimal c = false := fun h => by
    rw [isHex, Bool.or_eq_false_iff, Bool.or_eq_false_iff] at h
    exact h.1.1
  have hmark : ∀ d, IsMark d → d ∈ ['.', ':', '%', '/', '*'] := by
    rintro d (rfl | rfl | rfl | rfl) <;> decide
  have hlow : ∀ {c}, c.toNat < 128 → low.lower c = c.toLower := fun {c} => low.ascii c
  have hascii := fun {c : Char} (hc : c.toNat < 128) => ascii_lower _ hc c (Char.ofNat_toNat c).symm
  have hother := fun {c : Char} (hc : ¬ c.toNat < 128) => (low.other_lower (not_lt.mp hc)).1
  have hnot := fun {c : Char} (hc : ¬ c.toNat < 128) => not_hex (not_lt.mp hc)
  constructor
  case mark => exact fun c d hd => low.lower_mark c (hmark d hd)
  all_goals
    intro c
    by_cases hc : c.toNat < 128
    · grind
    · grind

variable (s : List Char)

theorem toLower_trimStar : low.toLower (trimStar s) = trimStar (low.toLower s) := by
  have htrim : ∀ s, trimStar s = if s[0]? = some '*' ∧ s[1]? = some '.' then s.drop 2 else s := by
    intro s
    unfold trimStar
    split
    · rfl
    · rename_i hnot
      refine (if_neg ?_).symm
      rcases s with _ | ⟨a, _ | ⟨b, s⟩⟩
      · simp
      · simp
      · rintro ⟨ha, hb⟩
        cases ha
        cases hb
        exact hnot s rfl
  have hstar := fun c => low.lower_mark c (by decide : '*' ∈ ['.', ':', '%', '/', '*'])
  have hdot := fun c => low.lower_mark c (by decide : '.' ∈ ['.', ':', '%', '/', '*'])
  rw [htrim, htrim, toLower, toLower]
  simp only [getElem?_map, Option.map_eq_some_iff, hstar, hdot, exists_eq_right]
  split
  · rw [map_drop]
  · rfl

theorem valueRange_toLower : valueRange (low.toLower s) = valueRange s := by
  rw [valueRange, toLower, parseCIDR_map low.keepsDigits, parseIP_map low.keepsDigits]
  rfl

end Lowering

theorem findIdx?_snoc {α : Type} (l : List α) (x : α) (p : α → Bool) :
    (l ++ [x]).findIdx? p = (l.findIdx? p).or (if p x then some l.length else none) := by
  rw [findIdx?_append]
  cases l.findIdx? p <;> cases h : p x <;> simp [h]

variable (m : List (List Char × Nat))

theorem lookup_insertNew (k : List Char) (n : Nat) (h : List Char) :
    (insertNew m (k, n)).lookup h = (m.lookup h).or (if k = h then some n else none) := by
  unfold insertNew
  cases hk : m.lookup k <;> by_cases heq : k = h <;> grind

theorem takeSuffix_eq (best : Option Nat) (h : List Char) : takeSuffix m best h = best.merge min (m.lookup h) := by
  unfold takeSuffix
  grind

section
variable (low : Lowering)

/-- The index finds the first rule of `l` that applies. -/
structure RuleIndex.Of (l : List SplitTunnelRule) (index : RuleIndex) : Prop where
  suffixes : ∀ h, index.suffixes.lookup h =
    l.findIdx? fun r => r.enabled && (r.type = .domain && low.toLower (trimStar r.value) = h)
  exacts : ∀ h, index.exacts.lookup h = l.findIdx? fun r =>
  r.enabled && (r.type = .domainExact && low.toLower r.value = h)
  keywords : ∀ h best, index.keywords.foldl (takeKeyword h) best =
    best.merge min (l.findIdx? fun r => r.enabled && (r.type = .domainKeyword && containsText h (low.toLower r.value)))
  raw : ∀ x, x ∈ index.raw ↔
    ∃ r, l[x.idx]? = some r ∧ r.enabled = true ∧ r.type = .ip ∧ valueRange r.value = some ⟨x.lo, x.hi⟩
  nodup : (index.raw.map IdxRange.idx).Nodup

theorem getElem?_snoc {α : Type} (l : List α) (x y : α) (i : Nat) :
    (l ++ [x])[i]? = some y ↔ l[i]? = some y ∨ (i = l.length ∧ x = y) := by
  grind

theorem RuleIndex.add_raw (index : RuleIndex) (r : SplitTunnelRule) (n : Nat) :
    (index.add low (r, n)).raw = index.raw ++
    if r.enabled && r.type = .ip then ((valueRange r.value).map fun rg => ⟨rg.lo, rg.hi, n⟩).toList else [] := by
  cases hen : r.enabled <;> cases hty : r.type <;> cases hv : valueRange r.value <;> simp [RuleIndex.add, hen, hty, hv]

theorem RuleIndex.Of.add {l : List SplitTunnelRule} {index : RuleIndex} (h : RuleIndex.Of low l index)
    (r : SplitTunnelRule) :
    RuleIndex.Of low (l ++ [r]) (index.add low (r, l.length)) := by
  have hkeyword : ∀ v host (best : Option Nat) (a : Option Nat), (∀ i, a = some i → i < l.length) →
      takeKeyword host (best.merge min a) ⟨v, l.length⟩ =
        best.merge min (a.or (if containsText host v then some l.length else none)) := by
    intro v host best a ha
    unfold takeKeyword
    cases best <;> cases a <;> grind [Option.merge]
  have hlt : ∀ p i, l.findIdx? p = some i → i < l.length := fun p i hi => (findIdx?_eq_some_iff_getElem.mp hi).1
  refine ⟨fun k => ?_, fun k => ?_, fun k best => ?_, fun x => ?_, ?_⟩
  · rw [findIdx?_snoc, ← h.suffixes]
    cases hen : r.enabled <;> cases hty : r.type <;> simp [RuleIndex.add, hen, hty, lookup_insertNew]
    split <;> rfl
  · rw [findIdx?_snoc, ← h.exacts]
    cases hen : r.enabled <;> cases hty : r.type <;> simp [RuleIndex.add, hen, hty, lookup_insertNew]
    split <;> rfl
  · rw [findIdx?_snoc]
    cases hen : r.enabled <;> cases hty : r.type <;>
      simp [RuleIndex.add, hen, hty, h.keywords, hkeyword _ _ _ _ (hlt _)]
    split <;> simp [h.keywords]
  · rw [add_raw, mem_append, h.raw]
    simp only [getElem?_snoc, or_and_right, exists_or]
    refine or_congr_right ?_
    rcases x with ⟨lo, hi, i⟩
    split <;> rcases hv : valueRange r.value with _ | ⟨lo', hi'⟩ <;> simp <;> grind
  · rw [add_raw, map_append, nodup_append']
    refine ⟨h.nodup, by split <;> cases valueRange r.value <;> simp, fun i hi hi' => ?_⟩
    obtain ⟨x, hx, rfl⟩ := mem_map.mp hi
    obtain ⟨y, hy, -⟩ := (h.raw x).mp hx
    have := (List.getElem?_eq_some_iff.mp hy).1
    split at hi' <;> cases hv : valueRange r.value <;> grind

theorem index_of (rules : List SplitTunnelRule) :
    RuleIndex.Of low rules (rules.zipIdx.foldl (RuleIndex.add low) {}) := by
  induction rules using reverseRecOn with
  | nil => exact ⟨fun _ => rfl, fun _ => rfl, fun _ best => by cases best <;> rfl, fun _ => by simp, nodup_nil⟩
  | append_singleton rules r ih =>
    rw [zipIdx_append, foldl_append, zero_add]
    exact ih.add low r

theorem mem_afterDots {h s : List Char} : h ∈ afterDots s ↔ '.' :: h <:+ s := by
  induction s with
  | nil => simp [afterDots]
  | cons c s ih =>
    rw [afterDots, suffix_cons_iff, ← ih]
    grind

variable (sortEvents : Slice RangeEvent RangeEvent.less) (enabled : Bool) (country : CountrySettings)

theorem hostIndex_eq (rules : List SplitTunnelRule) (host : List Char) :
    hostIndex (publishLocked low sortEvents enabled country rules) host =
      rules.findIdx? fun r => r.enabled && hitsHost low host r := by
  have hindex := index_of low rules
  have hsuffix : ∀ (hosts : List (List Char)) (p : SplitTunnelRule → Bool),
      hosts.foldl (takeSuffix (rules.zipIdx.foldl (RuleIndex.add low) {}).suffixes) (rules.findIdx? p) =
      rules.findIdx? fun r => p r || hosts.any fun h =>
      r.enabled && (r.type = .domain && low.toLower (trimStar r.value) = h) := by
    intro hosts
    induction hosts with
    | nil => simp
    | cons h hosts ih =>
      intro p
      rw [foldl_cons, takeSuffix_eq, hindex.suffixes, ← findIdx?_or, ih]
      simp only [any_cons, Bool.or_assoc]
  simp only [hostIndex, publishLocked]
  rw [hindex.exacts, hsuffix, hindex.keywords, ← findIdx?_or]
  congr 1
  funext r
  have hdomain : (host :: afterDots host).any (fun h => decide (low.toLower (trimStar r.value) = h)) =
      (host = trimStar (low.toLower r.value) || ('.' :: trimStar (low.toLower r.value)).isSuffixOf host) := by
    rw [low.toLower_trimStar, Bool.eq_iff_iff, any_eq_true, Bool.or_eq_true, isSuffixOf_iff_suffix, ← mem_afterDots]
    grind
  have hexact : decide (low.toLower r.value = host) = decide (host = low.toLower r.value) :=
    decide_eq_decide.mpr eq_comm
  have hnone : ∀ hosts : List (List Char), (hosts.any fun _ => false) = false := fun hosts => by grind
  unfold hitsHost
  cases r.enabled <;> cases r.type
    <;> simp only [reduceCtorEq, decide_false, decide_true, Bool.true_and, Bool.false_and,
    Bool.or_false, Bool.false_or, hdomain, hexact, hnone]

theorem find?_eq_findIdx? {α : Type} (l : List α) (p : α → Bool) : l.find? p = (l.findIdx? p).bind (l[·]?) := by
  induction l with
  | nil => rfl
  | cons x l ih =>
    rw [find?_cons, findIdx?_cons, ih]
    cases p x <;> cases l.findIdx? p <;> rfl

/-- The index decides as the linear scan does, by the same rule. -/
theorem bypassHostReason_scan (verdicts : List Char → Option Bool) (rules : List SplitTunnelRule)
    (hostname : List Char) :
    hostIndex (publishLocked low sortEvents enabled country rules) (low.toLower (trimDot hostname)) =
        rules.findIdx? (fun r => r.enabled && hitsHost low (low.toLower (trimDot hostname)) r) ∧
      bypassHostReason low verdicts (publishLocked low sortEvents enabled country rules) hostname =
        (oldHostnameMatch low rules hostname).elim
          ((byCountryVerdict country (verdicts (low.toLower (trimDot hostname)))
           (low.toLower (trimDot hostname))).bypass, true)
          (·, false) := by
  have hindex := hostIndex_eq low sortEvents enabled country rules (low.toLower (trimDot hostname))
  refine ⟨hindex, ?_⟩
  simp only [bypassHostReason, hindex, oldHostnameMatch, find?_eq_findIdx?]
  cases hfind : rules.findIdx? (fun r => r.enabled && hitsHost low (low.toLower (trimDot hostname)) r) with
  | none => rfl
  | some i =>
    obtain ⟨hi, -⟩ := findIdx?_eq_some_iff_getElem.mp hfind
    simp [publishLocked, hi]

theorem rangeIndex_eq (rules : List SplitTunnelRule) (a : Block 16) :
    rangeIndex (publishLocked low sortEvents enabled country rules).ranges a =
      rules.findIdx? fun r => r.enabled && hitsAddr a r := by
  have hindex := index_of low rules
  have hidx : ∀ x ∈ (rules.zipIdx.foldl (RuleIndex.add low) {}).raw, x.idx < rules.length := by
    intro x hx
    obtain ⟨r, hr, -⟩ := (hindex.raw x).mp hx
    exact (List.getElem?_eq_some_iff.mp hr).1
  refine Least.unique ((flattenRanges_spec sortEvents hidx hindex.nodup).2.2 a) ?_
  convert least_findIdx? rules fun r => r.enabled && hitsAddr a r using 1
  ext i
  constructor
  · rintro ⟨x, hx, rfl, hhas⟩
    obtain ⟨r, hr, hen, hty, hv⟩ := (hindex.raw x).mp hx
    refine ⟨r, hr, ?_⟩
    rw [hen, hitsAddr, hty, hv]
    exact hhas
  · rintro ⟨r, hr, hhit⟩
    rw [hitsAddr, Bool.and_eq_true, Bool.and_eq_true, decide_eq_true_iff, Option.any_eq_true] at hhit
    obtain ⟨hen, hty, rg, hv, hhas⟩ := hhit
    exact ⟨⟨rg.lo, rg.hi, i⟩, (hindex.raw _).mpr ⟨r, hr, hen, hty, hv⟩, rfl, hhas⟩

end

/-! ### Address literals -/

theorem looksLikeIPLoop_iff (s : List Char) :
    looksLikeIPLoop s = true ↔ ∀ c ∈ s.takeWhile (· ≠ ':'), isDecimal c = true ∨ c = '.' := by
  induction s with
  | nil => simp [looksLikeIPLoop]
  | cons c s ih =>
    rw [looksLikeIPLoop, takeWhile_cons]
    by_cases hc : c = ':'
    · simp [hc]
    · grind

def everywhere : SplitTunnelRule := { type := .ip, value := "::/0".toList, action := "direct", enabled := true }

theorem hitsAddr_everywhere (a : Block 16) : hitsAddr a everywhere = true := by
  have hrange : valueRange everywhere.value = some ⟨⟨replicate 16 0, rfl⟩, Sweep.lastAddr none⟩ := by decide +kernel
  have hfirst : (⟨replicate 16 0, rfl⟩ : Block 16).num = 0 := by decide +kernel
  have hlast : a.num < (Sweep.lastAddr none).num + 1 := by
    rw [Sweep.lastAddr_num (Nat.zero_lt_of_lt (Sweep.lt_bound_none a))]
    exact Sweep.lt_bound_none a
  rw [hitsAddr, hrange, Option.any_some, IpRange.has, Block.not_less_iff.mpr (hfirst.le.trans (Nat.zero_le a.num)),
    Block.not_less_iff.mpr (Nat.le_of_lt_succ hlast)]
  rfl

theorem lowerAscii_other (c : Char) (hc : 128 ≤ c.toNat) :
    128 ≤ c.toLower.toNat ∨ c.toLower = 'i' ∨ c.toLower = 'k' := by
  have hsame : c.toLower = c := dif_neg fun h => absurd (hc.trans h.2) (by decide)
  exact Or.inl (hsame.symm ▸ hc)

def lowerAscii : Lowering := ⟨Char.toLower, fun _ _ => rfl, lowerAscii_other⟩

/-- An address is decided as an address iff only digits and dots stand before its first colon. -/
theorem literal_decision_iff {s : List Char} {ip : IP} (hip : parseIP s = some ip) :
    (∀ low sortEvents verdicts (stm : SplitTunnelManager),
      shouldBypass low verdicts (stm.publish low sortEvents).snap s =
      shouldBypassByIP (stm.publish low sortEvents).snap s ∧
      bypassDecision low verdicts (stm.publish low sortEvents).snap s =
        (shouldBypassByIP (stm.publish low sortEvents).snap s, false)) ↔
      ∀ c ∈ s.takeWhile (· ≠ ':'), isDecimal c = true ∨ c = '.' := by
  have hlook : looksLikeIP s = looksLikeIPLoop s := if_neg fun (hnil : s = []) =>
    Option.some_ne_none ip (hip.symm.trans (hnil ▸ rfl))
  rw [← looksLikeIPLoop_iff, ← hlook]
  constructor
  · intro h
    by_contra hnot
    -- As a host the text hits no rule, as an address it hits the rule for all of them.
    have heq := (h lowerAscii eventsByInsertion (fun _ => none)
      { enabled := true, rules := [everywhere], country := { byCountry := false } }).1
    have hhost := (bypassHostReason_scan lowerAscii eventsByInsertion true { byCountry := false } (fun _ => none)
      [everywhere] s).2
    have haddr := fun a => rangeIndex_eq lowerAscii eventsByInsertion true { byCountry := false } [everywhere] a
    simp only [findIdx?_cons, hitsAddr_everywhere, show everywhere.enabled = true from rfl] at haddr
    simp only [SplitTunnelManager.publish, shouldBypass, shouldBypassByIP, hip, hnot, bypassIP, haddr, hhost] at heq
    exact Bool.false_ne_true heq
  · intro htrue low sortEvents verdicts stm
    simp only [shouldBypass, bypassDecision, shouldBypassByIP, SplitTunnelManager.publish, htrue, hip, if_true]
    split <;> simp

theorem literal_decision_ten :
    parseIP "10.0.0.1".toList = some [0, 0, 0, 0, 0, 0, 0, 0, 0, 0, 0xff, 0xff, 10, 0, 0, 1] ∧
    ((∀ low sortEvents verdicts (stm : SplitTunnelManager),
      shouldBypass low verdicts (stm.publish low sortEvents).snap "10.0.0.1".toList =
        shouldBypassByIP (stm.publish low sortEvents).snap "10.0.0.1".toList ∧
      bypassDecision low verdicts (stm.publish low sortEvents).snap "10.0.0.1".toList =
        (shouldBypassByIP (stm.publish low sortEvents).snap "10.0.0.1".toList, false)) ↔
      ∀ c ∈ "10.0.0.1".toList.takeWhile (· ≠ ':'), isDecimal c = true ∨ c = '.') :=
  have hip : parseIP "10.0.0.1".toList =
      some [0, 0, 0, 0, 0, 0, 0, 0, 0, 0, 0xff, 0xff, 10, 0, 0, 1] := by decide +kernel
  ⟨hip, literal_decision_iff hip⟩

/-- An address with a letter before its first colon is decided as a host, which a rule for its network does
    not hit. -/
theorem literal_decision_local :
    parseIP "fe80::1".toList = some [0xfe, 0x80, 0, 0, 0, 0, 0, 0, 0, 0, 0, 0, 0, 0, 0, 1] ∧
    shouldBypass lowerAscii (fun _ => none) (SplitTunnelManager.publish lowerAscii eventsByInsertion
      { enabled := true
        rules := [{ type := .ip, value := "fe80::/10".toList, action := "direct", enabled := true }] }).snap
      "fe80::1".toList = false ∧
    shouldBypassByIP (SplitTunnelManager.publish lowerAscii eventsByInsertion
      { enabled := true
        rules := [{ type := .ip, value := "fe80::/10".toList, action := "direct", enabled := true }] }).snap
      "fe80::1".toList = true := by
  decide +kernel

/-- What is asked about: a name or an address. -/
inductive SplitTarget
  | host (hostname : List Char)
  | addr (a : Block 16)

section
variable (low : Lowering)

def SplitTarget.hit : SplitTarget → SplitTunnelRule → Bool
  | host hostname => hitsHost low hostname
  | addr a => hitsAddr a

def SplitTarget.decision (t : SplitTarget) (rules : List SplitTunnelRule) : Option Bool :=
  (rules.find? fun r => r.enabled && t.hit low r).map SplitTunnelRule.direct

/-- The first rule with the key of a rule is enabled. -/
def firstEnabled (rules : List SplitTunnelRule) (r : SplitTunnelRule) : Bool :=
  (rules.find? fun s => keyOf low s = keyOf low r).any SplitTunnelRule.enabled

variable (t : SplitTarget)

theorem hit_of_key {r s : SplitTunnelRule} (h : keyOf low r = keyOf low s) : t.hit low r = t.hit low s := by
  obtain ⟨htype, hvalue⟩ := RuleKey.mk.inj h
  cases t with
  | host hostname =>
    simp only [SplitTarget.hit, hitsHost, htype] at hvalue ⊢
    cases hty : s.type <;> simp_all
  | addr a =>
    simp only [SplitTarget.hit, hitsAddr, htype]
    by_cases hip : s.type = .ip
    · have hlower : low.toLower r.value = low.toLower s.value := by simp_all
      rw [← low.valueRange_toLower, hlower, low.valueRange_toLower]
    · simp [hip]

theorem find?_uniqueRules (seen : List RuleKey) (rules : List SplitTunnelRule) :
    (uniqueRules low seen rules).find? (fun r => r.enabled && t.hit low r) =
      rules.find? fun r => r.enabled && t.hit low r && (!seen.contains (keyOf low r) && firstEnabled low rules r) := by
  induction rules generalizing seen with
  | nil => rfl
  | cons r rules ih =>
    have hfirst : ∀ x, firstEnabled low (r :: rules) x =
        if keyOf low r = keyOf low x then r.enabled else firstEnabled low rules x := by
      intro x
      rw [firstEnabled, find?_cons]
      split <;> simp_all [firstEnabled]
    have hhit := fun x => hit_of_key low t (r := r) (s := x)
    rw [uniqueRules]
    split
    · rename_i hseen
      rw [ih, find?_cons, hseen, Bool.not_true, Bool.false_and, Bool.and_false]
      refine find?_congr fun x _ => ?_
      rw [hfirst]
      split <;> grind
    · rename_i hseen
      rw [find?_cons, find?_cons, hfirst, if_pos rfl, ih]
      have hcongr : (r.enabled && t.hit low r) = false → ∀ x, (x.enabled && t.hit low x &&
          (!(keyOf low r :: seen).contains (keyOf low x) && firstEnabled low rules x)) =
          (x.enabled && t.hit low x && (!seen.contains (keyOf low x) && firstEnabled low (r :: rules) x)) := by
        intro hr x
        rw [hfirst, contains_cons]
        split <;> grind
      cases hr : r.enabled && t.hit low r with
      | true => grind
      | false => exact find?_congr fun x _ => hcongr hr x

theorem find?_and {α : Type} {l : List α} {p q : α → Bool} {x : α} (h : l.find? p = some x) (hq : q x = true) :
    l.find? (fun x => p x && q x) = some x := by
  induction l with
  | nil => cases h
  | cons y l ih => grind

/-- Removing duplicates keeps the decision iff the rule that decides has no disabled one with its key before
    it, or the first enabled rule without such a one decides the same. -/
theorem recompile_decision_iff (sortEvents : Slice RangeEvent RangeEvent.less) (stm : SplitTunnelManager)
    (t : SplitTarget) :
    t.decision low (stm.recompile low sortEvents).rules = t.decision low stm.rules ↔
      ∀ r, stm.rules.find? (fun r => r.enabled && t.hit low r) = some r → firstEnabled low stm.rules r = true ∨
        (stm.rules.find? fun r => r.enabled && t.hit low r && firstEnabled low stm.rules r).map SplitTunnelRule.direct =
          some r.direct := by
  have hfind := find?_uniqueRules low t [] stm.rules
  simp only [contains_nil, Bool.not_false, Bool.true_and] at hfind
  have hrules : (stm.recompile low sortEvents).rules = uniqueRules low [] stm.rules := rfl
  rw [SplitTarget.decision, SplitTarget.decision, hrules, hfind]
  cases hfirst : stm.rules.find? (fun r => r.enabled && t.hit low r) with
  | none =>
    have hnone : stm.rules.find? (fun r => r.enabled && t.hit low r && firstEnabled low stm.rules r) = none := by
      grind
    simp [hnone]
  | some r =>
    constructor
    · intro heq x hx
      cases hx
      exact Or.inr heq
    · intro h
      rcases h r rfl with hq | heq
      · rw [find?_and hfirst hq]
      · exact heq

end

section
variable {low : Lowering} {sortEvents : Slice RangeEvent RangeEvent.less} {stm : SplitTunnelManager}

theorem uniqueRules_sublist (seen : List RuleKey) (rules : List SplitTunnelRule) :
    (uniqueRules low seen rules).Sublist rules := by
  fun_induction uniqueRules low seen rules with
  | case1 => exact .slnil
  | case2 _ _ _ _ ih => exact ih.cons _
  | case3 _ _ _ _ ih => exact ih.cons_cons _

theorem nodup_uniqueRules (seen : List RuleKey) (rules : List SplitTunnelRule) :
    (∀ key ∈ (uniqueRules low seen rules).map (keyOf low), key ∉ seen) ∧
    ((uniqueRules low seen rules).map (keyOf low)).Nodup := by
  fun_induction uniqueRules low seen rules with
  | case1 => simp
  | case2 _ _ _ _ ih => exact ih
  | case3 seen r rules hseen ih => grind

/-- The rules are sorted, no two have one key, and a snapshot is of them. -/
structure Published (low : Lowering) (sortEvents : Slice RangeEvent RangeEvent.less)
    (stm : SplitTunnelManager) : Prop where
  sorted : stm.rules.Pairwise fun a b => b.priority ≤ a.priority
  unique : (stm.rules.map (keyOf low)).Nodup
  snap : ∀ snap ∈ stm.snap, snap = publishLocked low sortEvents stm.enabled stm.country stm.rules

theorem published_addRules (stm : SplitTunnelManager) (rules : List SplitTunnelRule) :
    Published low sortEvents (stm.addRules low sortEvents rules) where
  sorted := (pairwise_insertionSort _ _).sublist (uniqueRules_sublist [] _)
  unique := (nodup_uniqueRules [] _).2
  snap := by rintro _ ⟨⟩; rfl

theorem Published.call (h : Published low sortEvents stm) (c : SplitTunnelManager.Call) :
    Published low sortEvents (stm.call low sortEvents c) := by
  cases c with
  | addRules rules | loadAppRules rules byCountry => exact published_addRules _ rules
  | _ => exact ⟨h.sorted, h.unique, by rintro _ ⟨⟩; rfl⟩

variable (low sortEvents)

/-- After any calls, the snapshot decides on a host and on an address by the first enabled rule that hits,
    among rules in the order of their priorities of which no two have one key. -/
theorem snapshot_decides (calls : List SplitTunnelManager.Call) :
    (SplitTunnelManager.after low sortEvents calls).rules.Pairwise (fun a b => b.priority ≤ a.priority) ∧
    ((SplitTunnelManager.after low sortEvents calls).rules.map (keyOf low)).Nodup ∧
    ∀ snap ∈ (SplitTunnelManager.after low sortEvents calls).snap,
      (∀ host, hostIndex snap host =
        (SplitTunnelManager.after low sortEvents calls).rules.findIdx? fun r => r.enabled && hitsHost low host r) ∧
      ∀ a, rangeIndex snap.ranges a =
        (SplitTunnelManager.after low sortEvents calls).rules.findIdx? fun r => r.enabled && hitsAddr a r := by
  have h : Published low sortEvents (.after low sortEvents calls) := by
    induction calls using List.reverseRecOn with
    | nil => exact ⟨.nil, nodup_nil, nofun⟩
    | append_singleton calls c ih =>
      rw [SplitTunnelManager.after, foldl_concat]
      exact ih.call c
  refine ⟨h.sorted, h.unique, fun snap hsnap => ?_⟩
  rw [h.snap snap hsnap]
  exact ⟨hostIndex_eq low sortEvents _ _ _, rangeIndex_eq low sortEvents _ _ _⟩

end

/-- Of two rules with one key the disabled one is left. -/
theorem recompile_decision_disabled :
    (SplitTarget.host "example.com".toList).decision lowerAscii
      (SplitTunnelManager.recompile lowerAscii eventsByInsertion
      { rules := [{ type := .domain, value := "example.com".toList, action := "direct", enabled := false },
          { type := .domain, value := "Example.com".toList, action := "direct", enabled := true }] }).rules = none ∧
    (SplitTarget.host "example.com".toList).decision lowerAscii
      [{ type := .domain, value := "example.com".toList, action := "direct", enabled := false },
        { type := .domain, value := "Example.com".toList, action := "direct", enabled := true }] = some true := by
  decide +kernel

end Whispera
