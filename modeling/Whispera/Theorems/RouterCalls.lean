import Whispera.Lib.Processes
import Whispera.RouterCalls
import Whispera.Theorems.Router

/-! A call may read its rules before a change and store its answer after the change has cleared the cache. If
none does, the cache holds answers of the rules in force. -/

namespace Whispera
open List Net Processes RoutedEngine Transition

def RoutingRule.OnDestination (r : RoutingRule) : Prop := ∀ c ∈ r.conditions, ¬c.OnSource

instance (r : RoutingRule) : Decidable r.OnDestination := inferInstanceAs (Decidable (∀ c ∈ r.conditions, ¬c.OnSource))

/-- Destinations with the same text have both a host and a port, or neither. -/
def Packet.SameKind (p q : Packet) : Prop :=
  ∀ a ∈ p.dstAddr, ∀ b ∈ q.dstAddr, a.string = b.string → a.inet.isSome = b.inet.isSome

instance (p q : Packet) : Decidable (p.SameKind q) :=
  inferInstanceAs (Decidable (∀ a ∈ p.dstAddr, _))

namespace RouterCalls

def packets (s : RouterCalls) : List Packet := s.calls.map RouteCall.packet

/-- A call stores its answer only if its rules are those in force, or a change has yet to clear the cache. -/
def MayStore (s : RouterCalls) : RoutePhase → Prop
  | .scan _ version => s.engine.config.enableCache = true → version = s.version ∨ s.changing = some .replaced
  | .check | .read | .returned _ => True

instance (s : RouterCalls) (phase) : Decidable (s.MayStore phase) := by
  unfold MayStore
  split <;> infer_instance

/-- Rules test only the destination, packets with the same text of it are of the same kind, and no answer is
    stored late. -/
def Timely (s : RouterCalls) : Act → Prop
  | .change c => ∀ r ∈ c.rules, r.OnDestination
  | .route packet => ∀ p ∈ s.packets, p.SameKind packet
  | .next i => ∀ call ∈ s.calls[i]?, s.MayStore call.phase
  | .clear | .unlock => True

instance (s : RouterCalls) (act) : Decidable (s.Timely act) := by
  unfold Timely
  split <;> infer_instance

def decision (lib : RouterLib) (s : RouterCalls) (packet : Packet) : Destination :=
  firstMatch lib s.engine.rules s.engine.config.defaultDestination packet

/-- The call started before the changes that it has not seen, and while the rules are those that it started
    with, it holds them or has returned what they decide. -/
structure Fits (lib : RouterLib) (s : RouterCalls) (call : RouteCall) : Prop where
  since : ∀ v ∈ call.since, v ≤ s.version ∧ (v = s.version → s.changing = none)
  scan : ∀ compiled v, call.phase = .scan compiled v → v ≤ s.version ∧ (v = s.version → compiled = s.engine.compiled) ∧
    ∀ w ∈ call.since, w ≤ v
  returned : ∀ dest, call.phase = .returned dest → call.since = some s.version → dest = s.decision lib call.packet

/-- The cache has what the rules would decide. -/
structure Consistent (lib : RouterLib) (s : RouterCalls) : Prop where
  compiled : s.engine.compiled = compileRules lib s.engine.rules
  rules : ∀ r ∈ s.engine.rules, r.OnDestination
  kinds : ∀ p ∈ s.packets, ∀ q ∈ s.packets, p.SameKind q
  calls : ∀ call ∈ s.calls, s.Fits lib call
  entry : s.changing ≠ some .replaced → ∀ k dest, (k, dest) ∈ s.engine.cache.entries →
    ∃ p ∈ s.packets, ∃ addr, p.dstAddr = some addr ∧ addr.string = k ∧ dest = s.decision lib p

section
variable {lib : RouterLib} {s t : RouterCalls} {i : Nat} {call : RouteCall}

theorem Consistent.decision_eq (h : s.Consistent lib) {p q : Packet} {a b : Addr} (hp : p ∈ s.packets)
    (hq : q ∈ s.packets)
    (ha : p.dstAddr = some a) (hb : q.dstAddr = some b) (hs : a.string = b.string) : s.decision lib p =
    s.decision lib q := by
  refine firstMatch_alike ha hb hs ⟨?_, fun r hr c hc hsrc => absurd hsrc (h.rules r hr c hc)⟩
  rw [ha, hb]
  exact h.kinds p hp q hq a ha b hb hs

theorem Consistent.scan_eq (h : s.Consistent lib) (packet : Packet) :
    ({ s.engine with compiled := s.engine.compiled } : Engine).scan lib packet = s.decision lib packet :=
  Engine.scan_eq lib h.compiled packet

theorem Fits.of_same (h : s.Fits lib call) (hversion : t.version = s.version) (hchanging : t.changing = s.changing)
    (hcompiled : t.engine.compiled = s.engine.compiled)
    (hdecision : t.decision lib = s.decision lib) : t.Fits lib call where
  since := by
    rw [hversion, hchanging]
    exact h.since
  scan := by
    rw [hversion, hcompiled]
    exact h.scan
  returned := by
    rw [hversion, hdecision]
    exact h.returned

theorem Consistent.setPhase (h : s.Consistent lib) (hcall : s.calls[i]? = some call) {phase : RoutePhase}
    {cache : Lru (List Char) Destination} (hfits : s.Fits lib { call with phase := phase })
    (hentry : s.changing ≠ some .replaced → ∀ k dest, (k, dest) ∈ cache.entries →
      ∃ p ∈ s.packets, ∃ addr, p.dstAddr = some addr ∧ addr.string = k ∧ dest = s.decision lib p) :
    Consistent lib { s.setPhase i call phase with engine := { s.engine with cache := cache } } := by
  have hpackets : (s.setPhase i call phase).packets = s.packets := map_set hcall rfl
  refine ⟨h.compiled, h.rules, ?_, fun c hc => ?_, ?_⟩
  · show ∀ p ∈ (s.setPhase i call phase).packets, ∀ q ∈ (s.setPhase i call phase).packets, p.SameKind q
    rw [hpackets]
    exact h.kinds
  · rcases mem_or_eq_of_mem_set hc with hc | rfl
    · exact (h.calls c hc).of_same rfl rfl rfl rfl
    · exact hfits.of_same rfl rfl rfl rfl
  · intro hchanging k dest hmem
    show ∃ p ∈ (s.setPhase i call phase).packets, _
    rw [hpackets]
    exact hentry hchanging k dest hmem

theorem mem_packets (hcall : s.calls[i]? = some call) : call.packet ∈ s.packets :=
  mem_map_of_mem (mem_of_getElem? hcall)

theorem checkCache_cases (e : Engine) (packet : Packet) :
    (e.checkCache packet).2 = { e with cache := (e.checkCache packet).2.cache } ∧
    (∀ x, x ∈ (e.checkCache packet).2.cache.entries → x ∈ e.cache.entries) ∧
    ∀ dest, (e.checkCache packet).1 = some dest → ∃ addr, packet.dstAddr = some addr ∧
    (addr.string, dest) ∈ e.cache.entries := by
  unfold Engine.checkCache
  cases haddr : packet.dstAddr with
  | none => exact ⟨rfl, fun _ hx => hx, nofun⟩
  | some addr => exact ⟨rfl, fun _ hx => Lru.mem_get hx, fun dest hdest => ⟨addr, rfl, Lru.get_eq_some hdest⟩⟩

theorem updateCache_cases (e : Engine) (packet : Packet) (dest : Destination) :
    e.updateCache packet dest = { e with cache := (e.updateCache packet dest).cache } ∧
    ∀ k d, (k, d) ∈ (e.updateCache packet dest).cache.entries →
      (k, d) ∈ e.cache.entries ∨ (d = dest ∧ ∃ addr, packet.dstAddr = some addr ∧ addr.string = k) := by
  unfold Engine.updateCache
  cases haddr : packet.dstAddr with
  | none => exact ⟨rfl, fun _ _ hx => .inl hx⟩
  | some addr =>
    refine ⟨rfl, fun k d hx => ?_⟩
    rcases Lru.mem_add hx with he | ⟨-, hx⟩
    · cases he
      exact .inr ⟨rfl, addr, rfl, rfl⟩
    · exact .inl hx

section
variable (h : s.Consistent lib)
include h

section
variable (hcall : s.calls[i]? = some call)
include hcall

theorem Consistent.check (hphase : call.phase = .check) (hs : stepRoute lib s i call = some t) : t.Consistent lib := by
  have hfits := h.calls call (mem_of_getElem? hcall)
  -- after a miss, and past a cache that is switched off, the call holds nothing yet
  have hread : s.Fits lib { call with phase := .read } :=
    ⟨hfits.since, fun _ _ hscan => (by cases hscan), fun _ hret => (by cases hret)⟩
  obtain ⟨hengine, hsub, hhit⟩ := checkCache_cases s.engine call.packet
  simp only [stepRoute, hphase] at hs
  split at hs
  · split at hs <;> cases hs
    · rename_i dest hdest
      rw [hengine]
      refine h.setPhase hcall ⟨hfits.since, fun _ _ hscan => (by cases hscan), ?_⟩
        fun hchanging k d hmem => h.entry hchanging k d (hsub _ hmem)
      -- while no change is on its way, the entry is what the rules decide for a packet with this destination
      intro dest' hret hsince
      cases hret
      have hquiet := (hfits.since _ hsince).2 rfl
      obtain ⟨addr, haddr, hmem⟩ := hhit dest hdest
      have hnot : s.changing ≠ some .replaced := fun hreplaced => by cases hquiet.symm.trans hreplaced
      obtain ⟨p, hp, a, ha, hkey, hdecision⟩ := h.entry hnot _ _ hmem
      have hpacket := mem_packets hcall
      exact hdecision.trans (h.decision_eq hp hpacket ha haddr hkey)
    · rw [hengine]
      exact h.setPhase hcall hread fun hchanging k d hmem => h.entry hchanging k d (hsub _ hmem)
  · cases hs
    exact h.setPhase hcall hread h.entry

theorem Consistent.read (hphase : call.phase = .read) (hs : stepRoute lib s i call = some t) : t.Consistent lib := by
  have hfits := h.calls call (mem_of_getElem? hcall)
  simp only [stepRoute, hphase] at hs
  split at hs <;> cases hs
  refine h.setPhase hcall ⟨hfits.since, fun compiled v hscan => ?_, fun _ hret => (by cases hret)⟩ h.entry
  cases hscan
  exact ⟨le_rfl, fun _ => rfl, fun w hw => (hfits.since w hw).1⟩

theorem Consistent.scan {compiled : List CompiledRule} {v : Nat}
    (hphase : call.phase = .scan compiled v) (hmay : s.MayStore call.phase) (hs : stepRoute lib s i call = some t) :
    t.Consistent lib := by
  have hfits := h.calls call (mem_of_getElem? hcall)
  obtain ⟨hle, hsame, hafter⟩ := hfits.scan compiled v hphase
  have hdest : v = s.version → ({ s.engine with compiled := compiled } : Engine).scan lib call.packet =
      s.decision lib call.packet := by
    intro hv
    rw [hsame hv]
    exact h.scan_eq call.packet
  rw [hphase] at hmay
  simp only [stepRoute, hphase] at hs
  generalize ({ s.engine with compiled := compiled } : Engine).scan lib call.packet = answer at hs hdest
  have hreturned : s.Fits lib { call with phase := .returned answer } := by
    refine ⟨hfits.since, fun _ _ hscan => (by cases hscan), fun dest hret hsince => ?_⟩
    cases hret
    exact hdest (le_antisymm hle (hafter _ hsince))
  split at hs <;> cases hs
  · rename_i hcache
    obtain ⟨hengine, hentries⟩ := updateCache_cases s.engine call.packet answer
    rw [hengine]
    refine h.setPhase hcall hreturned fun hchanging k d hmem => ?_
    rcases hentries k d hmem with hmem | ⟨rfl, addr, haddr, hkey⟩
    · exact h.entry hchanging k d hmem
    · rcases hmay hcache with hv | hreplaced
      · exact ⟨call.packet, mem_packets hcall, addr, haddr, hkey, hdest hv⟩
      · exact absurd hreplaced hchanging
  · exact h.setPhase hcall hreturned h.entry

theorem Consistent.next (hp : s.Timely (.next i)) (hs : stepRoute lib s i call = some t) : t.Consistent lib := by
  cases hphase : call.phase with
  | check => exact h.check hcall hphase hs
  | read => exact h.read hcall hphase hs
  | scan compiled v => exact h.scan hcall hphase (hp call hcall) hs
  | returned dest =>
    simp only [stepRoute, hphase] at hs
    cases hs

end

end

theorem change_ok (hsort : ∀ rules, (lib.sortRules rules).Perm rules) {e e' : Engine} {c : RuleChange}
    (h : change lib e c = .ok e') :
    ∃ rules byID, e' = e.setRules lib rules byID ∧ ∀ r ∈ rules, r ∈ e.rules ∨ r ∈ c.rules := by
  cases c with
  | addRule rule =>
    simp only [change, Engine.addRule] at h
    repeat' split at h
    all_goals cases h
    exact ⟨_, _, rfl, fun r hr => mem_append.mp ((hsort _).mem_iff.mp hr)⟩
  | removeRule id =>
    simp only [change, Engine.removeRule] at h
    split at h <;> cases h
    exact ⟨_, _, rfl, fun r hr => .inl (mem_filter.mp hr).1⟩
  | updateRules rules =>
    simp only [change, Engine.updateRules] at h
    split at h <;> cases h
    exact ⟨_, _, rfl, fun r hr => .inr ((hsort _).mem_iff.mp hr)⟩

theorem Consistent.replace (h : s.Consistent lib) {rules : List RoutingRule} {byID : List String}
    (hrules : ∀ r ∈ rules, r.OnDestination) :
    Consistent lib { s with
      engine := { s.engine.setRules lib rules byID with cache := s.engine.cache }
      version := s.version + 1, changing := some .replaced } where
  compiled := rfl
  rules := hrules
  kinds := h.kinds
  calls c hc := by
    obtain ⟨hsince, hscan, -⟩ := h.calls c hc
    refine ⟨fun v hv => ⟨?_, fun heq => ?_⟩, fun compiled v hphase => ⟨?_, fun heq => ?_, ?_⟩, fun dest _ heq => ?_⟩
    · exact Nat.le_succ_of_le (hsince v hv).1
    · exact absurd (heq ▸ (hsince v hv).1) (Nat.not_succ_le_self _)
    · exact Nat.le_succ_of_le (hscan compiled v hphase).1
    · exact absurd (heq ▸ (hscan compiled v hphase).1) (Nat.not_succ_le_self _)
    · exact (hscan compiled v hphase).2.2
    · exact absurd (hsince _ heq).1 (Nat.not_succ_le_self _)
  entry hchanging := absurd rfl hchanging

theorem Consistent.route {packet : Packet} (h : s.Consistent lib) (hp : s.Timely (.route packet)) :
    Consistent lib { s with
      calls := s.calls ++ [{ packet, since := if s.changing = none then some s.version else none }] } := by
  have hpackets : ∀ since : Option Nat, (s.calls ++ [({ packet, since } : RouteCall)]).map RouteCall.packet =
      s.packets ++ [packet] := fun _ => map_append
  refine ⟨h.compiled, h.rules, fun p hmem q hmem' => ?_, fun c hc => ?_, fun hchanging k d hmem => ?_⟩
  · rw [packets, hpackets] at hmem hmem'
    rcases mem_append.mp hmem with hp₁ | hp₁ <;> rcases mem_append.mp hmem' with hq₁ | hq₁
    · exact h.kinds p hp₁ q hq₁
    · obtain rfl := mem_singleton.mp hq₁
      exact hp p hp₁
    · obtain rfl := mem_singleton.mp hp₁
      exact fun a ha b hb hs => (hp q hq₁ b hb a ha hs.symm).symm
    · obtain rfl := mem_singleton.mp hp₁
      obtain rfl := mem_singleton.mp hq₁
      intro a ha b hb _
      cases ha.symm.trans hb
      rfl
  · rcases mem_append.mp hc with hc | hc
    · exact (h.calls c hc).of_same rfl rfl rfl rfl
    · obtain rfl := mem_singleton.mp hc
      refine ⟨fun v hv => ?_, fun _ _ hscan => (by cases hscan), fun _ hret => (by cases hret)⟩
      split at hv <;> cases hv
      exact ⟨le_rfl, fun _ => ‹_›⟩
  · obtain ⟨p, hmem, hrest⟩ := h.entry hchanging k d hmem
    refine ⟨p, ?_, hrest⟩
    rw [packets, hpackets]
    exact mem_append_left _ hmem

theorem Consistent.step {act : Act} (hsort : ∀ rules, (lib.sortRules rules).Perm rules) (h : s.Consistent lib)
    (hp : s.Timely act) (hs : s.step lib act = some t) : t.Consistent lib := by
  cases act with
  | change c =>
    simp only [RouterCalls.step] at hs
    split at hs
    · split at hs <;> cases hs
      · exact h
      · rename_i e hok
        obtain ⟨rules, byID, rfl, hsub⟩ := change_ok hsort hok
        refine h.replace fun r hr => ?_
        rcases hsub r hr with hr | hr
        · exact h.rules r hr
        · exact hp r hr
    · cases hs
  | clear =>
    simp only [RouterCalls.step] at hs
    split at hs <;> cases hs
    rename_i hreplaced
    refine ⟨h.compiled, h.rules, h.kinds, fun c hc => ?_, fun _ k d hmem => absurd hmem not_mem_nil⟩
    obtain ⟨hsince, hscan, hreturned⟩ := h.calls c hc
    refine ⟨fun v hv => ⟨(hsince v hv).1, fun heq => ?_⟩, hscan, hreturned⟩
    cases hreplaced.symm.trans ((hsince v hv).2 heq)
  | unlock =>
    simp only [RouterCalls.step] at hs
    split at hs <;> cases hs
    rename_i hcleared
    refine ⟨h.compiled, h.rules, h.kinds, fun c hc => ?_, fun _ => h.entry (by rw [hcleared]; exact nofun)⟩
    obtain ⟨hsince, hscan, hreturned⟩ := h.calls c hc
    exact ⟨fun v hv => ⟨(hsince v hv).1, fun _ => rfl⟩, hscan, hreturned⟩
  | route packet =>
    cases hs
    exact h.route hp
  | next i =>
    obtain ⟨call, hcall, hs⟩ := Option.bind_eq_some_iff.mp hs
    exact h.next hcall hp hs

end

theorem consistent_start (lib : RouterLib) (cfg : RouterConfig) : (start cfg).Consistent lib where
  compiled := rfl
  rules _ hr := absurd hr not_mem_nil
  kinds _ hp := absurd hp not_mem_nil
  calls _ hc := absurd hc not_mem_nil
  entry _ _ _ hmem := absurd hmem not_mem_nil

end RouterCalls

open RouterCalls

/-- A call that starts when every change has returned, and before the next one, returns what the rules in
    force decide, if the rules test only the destination, packets with the same destination text are all of an
    address with host and port or all of none, and no call stores the answer of old rules after the change has
    cleared the cache. -/
theorem changes_take_effect (lib : RouterLib) (hsort : ∀ rules, (lib.sortRules rules).Perm rules) (cfg : RouterConfig)
    (acts : List Act) (s : RouterCalls) (hrun : Run (RouterCalls.step lib) Timely (RouterCalls.start cfg) acts s)
    (call : RouteCall) (hcall : call ∈ s.calls) (dest : Destination) (hreturned : call.phase = .returned dest)
    (hsince : call.since = some s.version) :
    dest = firstMatch lib s.engine.rules s.engine.config.defaultDestination call.packet :=
  have hconsistent := hrun.invariant (fun h hp hs => h.step hsort hp hs) (consistent_start lib cfg)
  (hconsistent.calls call hcall).returned dest hreturned hsince

def blockWeb : RoutingRule where
  id := "web"
  conditions := [{ field := .dstIP, operator := .eq, value := .str ['1', '.', '2', '.', '3', '.', '4'] }]
  destination := { type := .block }

def answers (s : RouterCalls) : List (Option Nat × Option Destination) :=
  s.calls.map fun call => (call.since, match call.phase with | .returned dest => some dest | _ => none)

def timelyActs : List Act :=
  [.route (toWeb 1), .next 0, .next 0, .change (.addRule blockWeb), .next 0, .clear, .unlock,
   .route (toWeb 1), .next 1, .next 1,
    .next 1]

theorem changes_take_effect_in_time : ∃ s, Run (RouterCalls.step sampleLib) Timely (RouterCalls.start {}) timelyActs s ∧
    ∃ call ∈ s.calls, ∃ dest, call.phase = .returned dest ∧ call.since = some s.version ∧
      dest = { type := .block } ∧
      dest = firstMatch sampleLib s.engine.rules s.engine.config.defaultDestination call.packet := by
  refine Run.exists_of_exec (Q := fun s => s.version = 1 ∧ (answers s)[1]? = some (some 1, some { type := .block }))
    (by decide +kernel) ?_
  rintro s hrun ⟨hversion, hanswer⟩
  rw [answers, getElem?_map, Option.map_eq_some_iff] at hanswer
  obtain ⟨call, hcall, hpair⟩ := hanswer
  obtain ⟨hsince, hphase⟩ := Prod.mk.inj hpair
  split at hphase <;> cases hphase
  rename_i dest hreturned
  rw [← hversion] at hsince
  have hmem := mem_of_getElem? hcall
  exact ⟨call, hmem, _, hreturned, hsince, rfl,
    changes_take_effect sampleLib (fun _ => .refl _) {} _ s hrun call hmem _ hreturned hsince⟩

/-- A call that has read the old rules stores their answer after the change has cleared the cache. -/
theorem change_without_effect : ∃ s, AnyRun (RouterCalls.step sampleLib) (RouterCalls.start {})
    [.route (toWeb 1), .next 0, .next 0, .change (.addRule blockWeb), .clear, .unlock, .next 0,
     .route (toWeb 1), .next 1] s ∧
    s.version = 1 ∧ s.changing = none ∧ (answers s)[1]? = some (some 1, some { type := .direct }) ∧
    firstMatch sampleLib s.engine.rules s.engine.config.defaultDestination (toWeb 1) = { type := .block } :=
  AnyRun.exists_of_exec (by decide +kernel)

end Whispera
