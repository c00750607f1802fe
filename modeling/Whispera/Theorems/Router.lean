import Mathlib.Data.List.Find
import Whispera.Lib.PrintedIP
import Whispera.Lib.Transition
import Whispera.Router

/-! A cached answer was computed for another packet with the same destination text, which does not determine
what the conditions on the source and the session see. -/

namespace Whispera
open List Option Net

section
variable (lib : RouterLib)

def RoutingRule.matches (r : RoutingRule) (packet : Packet) : Bool :=
  r.conditions.all fun c => matchCompiledCond lib (compileCond lib c) packet

/-- The destination of the first rule that matches. -/
def firstMatch (rules : List RoutingRule) (default : Destination) (packet : Packet) : Destination :=
  ((rules.find? fun r => r.matches lib packet).map RoutingRule.destination).getD default

variable {p q : Packet}

theorem firstMatch_congr {rules : List RoutingRule} {default : Destination}
    (h : ∀ r ∈ rules, r.matches lib p = r.matches lib q) : firstMatch lib rules default p =
    firstMatch lib rules default q := by
  rw [firstMatch, firstMatch, find?_congr h]

theorem Engine.scan_eq {e : Engine} (h : e.compiled = compileRules lib e.rules) (packet : Packet) :
    e.scan lib packet = firstMatch lib e.rules e.config.defaultDestination packet := by
  have hmatch : (fun cr => matchCompiled lib cr packet) ∘
      (fun r : RoutingRule => { conds := r.conditions.map (compileCond lib), dest := r.destination : CompiledRule }) =
      fun r => r.matches lib packet := by
    funext r
    rw [Function.comp_apply, matchCompiled, List.all_map]
    rfl
  rw [Engine.scan, firstMatch, h, compileRules, find?_map, hmatch]
  cases e.rules.find? fun r => r.matches lib packet <;> rfl

@[simp] theorem compileCond_raw (c : RuleCondition) : (compileCond lib c).raw = c := by
  unfold compileCond
  split <;> rfl

/-- No host both times, or the same one and the same port. -/
inductive SameHost : Option Addr → Option Addr → Prop
  | absent {a b : Option Addr} : a.bind Addr.inet = none → b.bind Addr.inet = none → SameHost a b
  | present {a b : Option Addr} {ip ip' : IP} {port : Int} : a.bind Addr.inet = some (ip, port) →
      b.bind Addr.inet = some (ip', port) → ip.canon = ip'.canon → ip.string = ip'.string → SameHost a b

theorem sameHost_of_string {a b : Addr} (hs : a.string = b.string) (hinet : a.inet.isSome = b.inet.isSome) :
    SameHost (some a) (some b) := by
  cases ha : a.inet with
  | none =>
    rw [ha] at hinet
    exact .absent ha (isNone_iff_eq_none.mp (by simpa using hinet.symm))
  | some x =>
    rw [ha] at hinet
    obtain ⟨y, hb⟩ := isSome_iff_exists.mp hinet.symm
    obtain ⟨ip, port⟩ := x
    obtain ⟨ip', port'⟩ := y
    obtain ⟨⟨hc, ht⟩, rfl⟩ := Addr.string_inj ha hb hs
    exact .present ha hb hc ht

theorem contains_congr {ip ip' : IP} (h : ip.canon = ip'.canon) (n : IPNet) : n.contains ip = n.contains ip' := by
  simp only [IPNet.contains, h]

theorem equal_congr {ip ip' : IP} (h : ip.canon = ip'.canon) (x : IP) : x.equal ip = x.equal ip' := by
  rw [Bool.eq_iff_iff, IP.equal_iff, IP.equal_iff, h]

variable {lib} {a b : Option Addr}

theorem SameHost.matchPort (h : SameHost a b) (c : RuleCondition) : matchPort a c = matchPort b c := by
  rcases h with ⟨ha, hb⟩ | ⟨ha, hb, -, -⟩ <;> simp only [Whispera.matchPort, addrPort, ha, hb, Option.map]

theorem SameHost.matchIP (h : SameHost a b) (c : RuleCondition) : matchIP lib a c = matchIP lib b c := by
  rcases h with ⟨ha, hb⟩ | ⟨ha, hb, hc, hs⟩
  · simp only [Whispera.matchIP, addrIP, ha, hb]
  · simp only [Whispera.matchIP, addrIP, ha, hb, map_some, hs, contains_congr hc]

theorem SameHost.admits (h : SameHost a b) (c : CompiledCond) : c.admits a = c.admits b := by
  rcases h with ⟨ha, hb⟩ | ⟨ha, hb, hc, -⟩
  · simp only [CompiledCond.admits, addrIP, ha, hb]
  · simp only [CompiledCond.admits, addrIP, ha, hb, map_some, contains_congr hc, equal_congr hc]

def RuleCondition.OnSource (c : RuleCondition) : Prop := c.field = .srcIP ∨ c.field = .srcPort ∨ c.field = .sessionID

instance (c : RuleCondition) : Decidable c.OnSource := inferInstanceAs (Decidable (_ ∨ _ ∨ _))

theorem SameHost.matchCompiledCond (h : SameHost p.dstAddr q.dstAddr) {c : RuleCondition}
    (hc : ¬c.OnSource) : matchCompiledCond lib (compileCond lib c) p = matchCompiledCond lib (compileCond lib c) q := by
  have hsrc : c.field ≠ .srcIP := fun hf => hc (.inl hf)
  simp only [Whispera.matchCompiledCond, compileCond_raw, hsrc, if_false]
  split
  · unfold matchCondition
    split
    · exact h.matchIP c
    · exact absurd ‹_› hsrc
    · exact h.matchPort c
    · exact absurd (.inr (.inl ‹_›)) hc
    · exact absurd (.inr (.inr ‹_›)) hc
    · rfl
  · exact h.admits _

theorem Engine.route_cases (lib : RouterLib) (e : Engine) (packet : Packet) :
    ((e.config.enableCache = false ∨ packet.dstAddr = none) ∧ e.route lib packet = (e.scan lib packet, e)) ∨
      (∃ addr dest, e.config.enableCache = true ∧ packet.dstAddr = some addr ∧ (e.checkCache packet).1 = some dest ∧
        (addr.string, dest) ∈ e.cache.entries ∧
        e.route lib packet = (dest, { e with cache := (e.cache.get addr.string).2 })) ∨
      (∃ addr, e.config.enableCache = true ∧ packet.dstAddr = some addr ∧ (e.checkCache packet).1 = none ∧
        e.route lib packet =
          (e.scan lib packet,
           { e with cache := (e.cache.get addr.string).2.add addr.string (e.scan lib packet) })) := by
  cases hon : e.config.enableCache with
  | false => exact .inl ⟨.inl rfl, by simp [Engine.route, hon]⟩
  | true =>
    cases haddr : packet.dstAddr with
    | none =>
      refine .inl ⟨.inr rfl, ?_⟩
      simp only [Engine.route, hon, if_true, Engine.checkCache, Engine.updateCache, haddr]
    | some addr =>
      refine .inr ?_
      have hcheck : (e.checkCache packet).1 = (e.cache.get addr.string).1 := by
        simp only [Engine.checkCache, haddr]
      cases hget : (e.cache.get addr.string).1 with
      | some dest =>
        refine .inl ⟨addr, dest, rfl, rfl, hcheck.trans hget, Lru.get_eq_some hget, ?_⟩
        simp only [Engine.route, hon, if_true, Engine.checkCache, haddr, hget]
      | none =>
        refine .inr ⟨addr, rfl, rfl, hcheck.trans hget, ?_⟩
        simp only [Engine.route, hon, if_true, Engine.checkCache, Engine.updateCache, haddr, hget]
        rfl

namespace RoutedEngine

def hit (s : RoutedEngine) (packet : Packet) : Option Packet :=
  if s.engine.config.enableCache ∧ (s.engine.checkCache packet).1 ≠ none then
    packet.dstAddr.bind fun addr => s.filler addr.string
  else none

theorem mem_hit {s : RoutedEngine} {packet p : Packet} (h : p ∈ s.hit packet) :
    ∃ addr dest, packet.dstAddr = some addr ∧ s.filler addr.string = some p ∧
    (addr.string, dest) ∈ s.engine.cache.entries := by
  unfold hit at h
  split at h
  · rename_i hcheck
    obtain ⟨addr, haddr, hfill⟩ := bind_eq_some_iff.mp h
    obtain ⟨dest, hdest⟩ := ne_none_iff_exists'.mp hcheck.2
    simp only [Engine.checkCache, haddr] at hdest
    exact ⟨addr, dest, haddr, hfill, Lru.get_eq_some hdest⟩
  · cases h

theorem fill_cases (s : RoutedEngine) (packet : Packet) : s.fill packet = s.filler ∨
      ∃ addr : Addr, s.fill packet = fun k => if k = addr.string then some packet else s.filler k := by
  unfold fill
  split
  · exact .inl rfl
  · split
    · exact .inr ⟨_, rfl⟩
    · exact .inl rfl

/-- The two packets agree on every condition on the source and the session, and their destinations have both a
    host and a port, or neither. -/
def Alike (lib : RouterLib) (rules : List RoutingRule) (p q : Packet) : Prop :=
  (p.dstAddr.bind Addr.inet).isSome = (q.dstAddr.bind Addr.inet).isSome ∧
    ∀ r ∈ rules, ∀ c ∈ r.conditions, c.OnSource →
      matchCompiledCond lib (compileCond lib c) p = matchCompiledCond lib (compileCond lib c) q

instance (rules : List RoutingRule) (p q : Packet) : Decidable (Alike lib rules p q) :=
  inferInstanceAs (Decidable (_ ∧ _))

/-- A packet that is answered from the cache is like the one that the answer was computed for. -/
def Apt (lib : RouterLib) (s : RoutedEngine) : EngineCall → Prop
  | .route packet => ∀ p ∈ s.hit packet, Alike lib s.engine.rules p packet
  | _ => True

instance (s : RoutedEngine) (call) : Decidable (Apt lib s call) := by
  unfold Apt
  split <;> infer_instance

/-- The rules are compiled, and each entry of the cache is what they decide for the packet that filled it. -/
structure Cached (lib : RouterLib) (s : RoutedEngine) : Prop where
  compiled : s.engine.compiled = compileRules lib s.engine.rules
  entry : ∀ k dest, (k, dest) ∈ s.engine.cache.entries → ∃ p addr, s.filler k = some p ∧ p.dstAddr = some addr ∧
    addr.string = k ∧ dest = firstMatch lib s.engine.rules s.engine.config.defaultDestination p

variable {s t : RoutedEngine}

theorem cached_start (cfg : RouterConfig) : Cached lib (start cfg) where
  compiled := rfl
  entry := fun _ _ h => absurd h not_mem_nil

theorem cached_setRules (rules : List RoutingRule) (byID : List String) :
    Cached lib { s with engine := s.engine.setRules lib rules byID } where
  compiled := rfl
  entry := fun _ _ h => absurd h not_mem_nil

theorem Cached.change (h : Cached lib s) {r : Except RuleError Engine}
    (hr : ∀ e, r = .ok e → ∃ rules byID, e = s.engine.setRules lib rules byID) : Cached lib (s.change r) := by
  cases r with
  | error err => exact h
  | ok e =>
    obtain ⟨rules, byID, rfl⟩ := hr e rfl
    exact cached_setRules rules byID

variable {e e' : Engine} {rules : List RoutingRule}

theorem addRule_ok {rule : RoutingRule} (h : e.addRule lib rule = .ok e') :
    ∃ rules byID, e' = e.setRules lib rules byID := by
  unfold Engine.addRule at h
  split at h
  · cases h
  · split at h
    · cases h
    · split at h <;> cases h
      exact ⟨_, _, rfl⟩

theorem removeRule_ok {id : String} (h : e.removeRule lib id = .ok e') :
    ∃ rules byID, e' = e.setRules lib rules byID := by
  unfold Engine.removeRule at h
  split at h <;> cases h
  exact ⟨_, _, rfl⟩

theorem updateRules_ok (h : e.updateRules lib rules = .ok e') : ∃ rules byID, e' = e.setRules lib rules byID := by
  unfold Engine.updateRules at h
  split at h <;> cases h
  exact ⟨_, _, rfl⟩

theorem Cached.route (h : Cached lib s) (packet : Packet) :
    Cached lib { engine := (s.engine.route lib packet).2, filler := s.fill packet } := by
  rcases s.engine.route_cases lib packet with ⟨hoff, hr⟩ | ⟨addr, dest, hon, haddr, hcheck, -, hr⟩ |
    ⟨addr, hon, haddr, hcheck, hr⟩
  · have hfill : s.fill packet = s.filler := by
      unfold fill
      rcases hoff with hoff | hoff
      · split <;> simp [hoff]
      · rw [hoff]
    rw [hr, hfill]
    exact h
  · have hfill : s.fill packet = s.filler := by simp [fill, haddr, hcheck]
    rw [hr, hfill]
    exact ⟨h.compiled, fun k d hk => h.entry k d (Lru.mem_get hk)⟩
  · have hfill : s.fill packet = fun k => if k = addr.string then some packet else s.filler k := by
      simp [fill, haddr, hcheck, hon]
    rw [hr, hfill]
    refine ⟨h.compiled, fun k d hk => ?_⟩
    rcases Lru.mem_add hk with he | ⟨hne, hk⟩
    · cases he
      exact ⟨packet, addr, if_pos rfl, haddr, rfl, Engine.scan_eq lib h.compiled packet⟩
    · obtain ⟨p, a, hp, ha, hs, hd⟩ := h.entry k d (Lru.mem_get hk)
      exact ⟨p, a, (if_neg hne).trans hp, ha, hs, hd⟩

theorem Cached.step (h : Cached lib s) {call : EngineCall} (hs : step lib s call = some t) : Cached lib t := by
  cases call with
  | route packet => cases hs; exact h.route packet
  | addRule rule => cases hs; exact h.change fun _ => addRule_ok
  | removeRule id => cases hs; exact h.change fun _ => removeRule_ok
  | updateRules rules => cases hs; exact h.change fun _ => updateRules_ok

theorem firstMatch_alike {default : Destination} {p q : Packet} {a b : Addr}
    (ha : p.dstAddr = some a) (hb : q.dstAddr = some b) (hs : a.string = b.string) (h : Alike lib rules p q) :
    firstMatch lib rules default p = firstMatch lib rules default q := by
  have hhost : SameHost p.dstAddr q.dstAddr := by
    have hinet := h.1
    rw [ha, hb] at hinet ⊢
    exact sameHost_of_string hs hinet
  refine firstMatch_congr lib fun r hr => ?_
  rw [Bool.eq_iff_iff, RoutingRule.matches, RoutingRule.matches, List.all_eq_true, List.all_eq_true]
  refine forall₂_congr fun c hc => ?_
  by_cases hsrc : c.OnSource
  · rw [h.2 r hr c hc hsrc]
  · rw [hhost.matchCompiledCond hsrc]

theorem Cached.route_eq (h : Cached lib s) {packet : Packet} (hapt : Apt lib s (.route packet)) :
    (s.engine.route lib packet).1 = firstMatch lib s.engine.rules s.engine.config.defaultDestination packet := by
  rcases s.engine.route_cases lib packet with ⟨-, hr⟩ | ⟨addr, dest, hon, haddr, hcheck, hmem, hr⟩ |
    ⟨addr, -, -, -, hr⟩
  · rw [hr]
    exact Engine.scan_eq lib h.compiled packet
  · obtain ⟨p, a, hp, ha, hs, hd⟩ := h.entry _ _ hmem
    have hhit : p ∈ s.hit packet := by simp [hit, hon, hcheck, haddr, hp]
    rw [hr]
    exact hd.trans (firstMatch_alike ha haddr hs (hapt p hhit))
  · rw [hr]
    exact Engine.scan_eq lib h.compiled packet

end RoutedEngine
end

open RoutedEngine Transition

/-- As long as each packet that was answered from the cache was like the one that the answer had been computed
    for, `Route` returns what the rules in force decide. -/
theorem cache_is_transparent (lib : RouterLib) (cfg : RouterConfig) (calls : List EngineCall) (s : RoutedEngine)
    (hrun : Run (step lib) (Apt lib) (start cfg) calls s) (packet : Packet) (hapt : Apt lib s (.route packet)) :
    (s.engine.route lib packet).1 = firstMatch lib s.engine.rules s.engine.config.defaultDestination packet :=
  Cached.route_eq (hrun.invariant (fun h _ hs => h.step hs) (cached_start cfg)) hapt

def sampleLib : RouterLib where
  parseIP := fun s => if s = ['1', '.', '2', '.', '3', '.', '4'] then some [1, 2, 3, 4] else none
  parseCIDR := fun _ => none
  sortRules := fun rules => rules

def blockSession : RoutingRule where
  id := "session"
  conditions := [{ field := .sessionID, operator := .eq, value := .u32 5 }]
  destination := { type := .block }

def toWeb (session : UInt32) : Packet where
  sessionID := session
  dstAddr := some (.tcp [1, 2, 3, 4] 443 [])

theorem cache_is_transparent_in_session : ∃ s, Run (step sampleLib) (Apt sampleLib) (start {})
    [.addRule blockSession, .route (toWeb 5)] s ∧ s.hit (toWeb 5) = some (toWeb 5) ∧
    (s.engine.route sampleLib (toWeb 5)).1 =
    firstMatch sampleLib s.engine.rules s.engine.config.defaultDestination (toWeb 5) :=
  Run.exists_of_exec (Q := fun s => s.hit (toWeb 5) = some (toWeb 5) ∧ Apt sampleLib s (.route (toWeb 5)))
    (by decide +kernel)
    fun s hrun hs => ⟨hs.1, cache_is_transparent sampleLib {} _ s hrun (toWeb 5) hs.2⟩

/-- A packet of another session to the same address is answered with the decision for session 5. -/
theorem cached_answer_of_another_session : ∃ s, AnyRun (step sampleLib) (start {})
    [.addRule blockSession, .route (toWeb 5)] s ∧ (s.engine.route sampleLib (toWeb 6)).1 = { type := .block } ∧
    firstMatch sampleLib s.engine.rules s.engine.config.defaultDestination (toWeb 6) = { type := .direct } :=
  AnyRun.exists_of_exec (by decide +kernel)

end Whispera
