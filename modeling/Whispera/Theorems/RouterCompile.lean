import Whispera.Lib.PrintedIP
import Whispera.Router

/-! A compiled condition compares addresses where the written one compares texts. So it also matches an
address that the rule writes in another way than Go prints it, with capital letters or as an IPv4 address in
IPv6 form. -/

namespace Whispera
open Net

def goParsers (sortRules : List RoutingRule → List RoutingRule) : RouterLib where
  parseIP := parseIP
  parseCIDR := parseCIDR
  sortRules := sortRules

def RuleCondition.address (cond : RuleCondition) (packet : Packet) : Option IP :=
  match cond.field with
  | .dstIP => addrIP packet.dstAddr
  | .srcIP => addrIP packet.srcAddr
  | _ => none

/-- The condition names the address of the packet, and writes it in another way. -/
def RuleCondition.otherwiseWritten (cond : RuleCondition) (packet : Packet) : Bool :=
  match cond.operator, cond.value, cond.address packet with
  | .eq, .str s, some ip => ((parseIP s).any fun x => x.equal ip) && ip.string ≠ s
  | _, _, _ => false

theorem RuleCondition.otherwiseWritten_cases {cond : RuleCondition} {packet : Packet}
    (h : cond.otherwiseWritten packet = true) :
    ∃ s ip, (cond.field = .dstIP ∧ addrIP packet.dstAddr = some ip ∨ cond.field = .srcIP ∧
      addrIP packet.srcAddr = some ip) ∧
      cond.operator = .eq ∧ cond.value = .str s ∧ ip.string ≠ s := by
  unfold otherwiseWritten at h
  split at h
  · rename_i s ip ho hv haddr
    refine ⟨s, ip, ?_, ho, hv, of_decide_eq_true (Bool.and_eq_true_iff.mp h).2⟩
    unfold address at haddr
    cases hf : cond.field <;> simp_all
  · cases h

variable (sortRules : List RoutingRule → List RoutingRule)

theorem equal_iff_string {s : List Char} {x : IP} (hx : parseIP s = some x) (ip : IP) :
    x.equal ip = (decide (ip.string = s) || (x.equal ip && decide (ip.string ≠ s))) := by
  by_cases hs : ip.string = s
  · simp [hs, parseIP_string (hs.symm ▸ hx)]
  · simp [hs]

theorem matchCompiledCond_eq (cond : RuleCondition) (packet : Packet) :
    matchCompiledCond (goParsers sortRules) (compileCond (goParsers sortRules) cond) packet =
      (matchCondition (goParsers sortRules) cond packet || cond.otherwiseWritten packet) := by
  have hraw : matchCompiledCond (goParsers sortRules) { raw := cond } packet =
    matchCondition (goParsers sortRules) cond packet :=
    if_pos ⟨rfl, rfl⟩
  obtain ⟨field, operator, value⟩ := cond
  unfold compileCond
  split
  case h_1 s hf ho hv | h_2 s hf ho hv =>
    obtain ⟨rfl, rfl, rfl⟩ : field = _ ∧ operator = _ ∧ value = _ := ⟨hf, ho, hv⟩
    rw [show (goParsers sortRules).parseCIDR s = parseCIDR s from rfl]
    cases hcidr : parseCIDR s with
    | none => simp [hraw, RuleCondition.otherwiseWritten]
    | some net =>
      simp [matchCompiledCond, matchCondition, matchIP, RuleCondition.otherwiseWritten, CompiledCond.admits,
        goParsers, hcidr]
  case h_3 s hf ho hv | h_4 s hf ho hv =>
    obtain ⟨rfl, rfl, rfl⟩ : field = _ ∧ operator = _ ∧ value = _ := ⟨hf, ho, hv⟩
    rw [show (goParsers sortRules).parseIP s = parseIP s from rfl]
    cases hip : parseIP s with
    | none =>
      rw [hraw, RuleCondition.otherwiseWritten]
      cases hip : RuleCondition.address _ packet <;> simp_all
    | some x =>
      simp only [matchCompiledCond, matchCondition, matchIP, RuleCondition.otherwiseWritten, RuleCondition.address,
        CompiledCond.admits]
      cases haddr : addrIP _ with
      | none => simp [haddr]
      | some ip => simpa [haddr, hip] using equal_iff_string hip ip
  case h_5 _ _ hdst hsrc =>
    have hfalse : RuleCondition.otherwiseWritten ⟨field, operator, value⟩ packet = false := by
      rw [← Bool.not_eq_true]
      intro h
      obtain ⟨s, ip, ⟨hf, -⟩ | ⟨hf, -⟩, ho, hv, -⟩ := RuleCondition.otherwiseWritten_cases h
      · exact hdst s hf ho hv
      · exact hsrc s hf ho hv
    rw [hraw, hfalse, Bool.or_false]

/-- A compiled rule matches as the written one iff no condition writes the address of the packet in another
    way, or a condition that does not do so rejects the packet. -/
theorem matchCompiled_written_iff (rule : RoutingRule) (packet : Packet) :
    matchCompiled (goParsers sortRules) ⟨rule.conditions.map (compileCond (goParsers sortRules)),
      rule.destination⟩ packet =
        rule.conditions.all (fun cond => matchCondition (goParsers sortRules) cond packet) ↔
      (∀ cond ∈ rule.conditions, cond.otherwiseWritten packet = false) ∨
        ∃ cond ∈ rule.conditions, cond.otherwiseWritten packet = false ∧
          matchCondition (goParsers sortRules) cond packet = false := by
  have hnot : ∀ cond : RuleCondition, cond.otherwiseWritten packet = true →
      matchCondition (goParsers sortRules) cond packet = false := by
    intro cond h
    obtain ⟨s, ip, ⟨hf, hip⟩ | ⟨hf, hip⟩, ho, hv, hne⟩ := RuleCondition.otherwiseWritten_cases h <;>
      simp [matchCondition, matchIP, hf, ho, hv, hip, hne]
  have hall : matchCompiled (goParsers sortRules) ⟨rule.conditions.map (compileCond (goParsers sortRules)),
    rule.destination⟩
      packet = rule.conditions.all fun cond =>
        matchCondition (goParsers sortRules) cond packet || cond.otherwiseWritten packet := by
    rw [matchCompiled, List.all_map]
    exact congrArg _ (funext fun cond => matchCompiledCond_eq sortRules cond packet)
  rw [hall, Bool.eq_iff_iff, List.all_eq_true, List.all_eq_true]
  grind

/-- The rule writes the address with capital letters. -/
theorem matchCompiled_written_capitals : matchCompiled (goParsers id)
        ⟨[compileCond (goParsers id) ⟨.dstIP, .eq, .str "FE80::1".toList⟩], { type := .block }⟩
        { dstAddr := some (.udp [0xfe, 0x80, 0, 0, 0, 0, 0, 0, 0, 0, 0, 0, 0, 0, 0, 1] 443 []) } = true ∧
      matchCondition (goParsers id) ⟨.dstIP, .eq, .str "FE80::1".toList⟩
        { dstAddr := some (.udp [0xfe, 0x80, 0, 0, 0, 0, 0, 0, 0, 0, 0, 0, 0, 0, 0, 1] 443 []) } = false := by
  decide +kernel

end Whispera
