import Whispera.Dialing
import Whispera.Theorems.Router

/-! Without an address there is no port either, so a rule on the port counts only if something else asks for
addresses; and of several addresses only the first is checked. -/

namespace Whispera
open List Net RelayServer RoutedEngine Transition

def relayPacket (ips : List IP) (port : UInt16) : Packet := { dstAddr := firstTCPAddr ips port }

/-- Calls of the router as the relay makes them, and any changes of the rules. -/
def RelayCall : EngineCall → Prop
  | .route packet => ∃ ips port, packet = relayPacket ips port
  | _ => True

section
variable {lib : RouterLib} {s t : RoutedEngine}

theorem matchCompiledCond_of_source {c : RuleCondition} (hc : c.OnSource) {p q : Packet} (hs : p.srcAddr = q.srcAddr)
    (hi : p.sessionID = q.sessionID) :
    matchCompiledCond lib (compileCond lib c) p = matchCompiledCond lib (compileCond lib c) q := by
  simp only [matchCompiledCond, compileCond_raw, matchCondition]
  rcases hc with hc | hc | hc <;> simp [hc, hs, hi, matchSessionID, compileCond]

def Relayed (s : RoutedEngine) : Prop := ∀ k p, s.filler k = some p → ∃ ips port, p = relayPacket ips port

theorem Relayed.step (h : Relayed s) {call : EngineCall} (hc : RelayCall call)
    (hs : step lib s call = some t) : Relayed t := by
  have hchange : ∀ r : Except RuleError Engine, Relayed (s.change r)
    | .error _ => h
    | .ok _ => h
  cases call with
  | route packet =>
    cases hs
    rcases fill_cases s packet with hf | ⟨addr, hf⟩
    · exact hf ▸ h
    · intro k p hp
      simp only [hf] at hp
      split at hp
      · exact Option.some.inj hp ▸ hc
      · exact h k p hp
  | addRule rule | removeRule id | updateRules rules => cases hs; exact hchange _

theorem relayPacket_inet {ips : List IP} {port : UInt16} {addr : Addr}
    (h : (relayPacket ips port).dstAddr = some addr) :
    addr.inet.isSome = true := by
  cases ips with
  | nil => cases h
  | cons ip ips => cases h; rfl

theorem Relayed.apt (h : Relayed s) (hcached : Cached lib s) (ips : List IP) (port : UInt16) :
    Apt lib s (.route (relayPacket ips port)) := by
  intro p hp
  obtain ⟨addr, dest, haddr, hfill, hentry⟩ := mem_hit hp
  obtain ⟨p', addr', hfill', haddr', -, -⟩ := hcached.entry _ _ hentry
  obtain ⟨ips', port', rfl⟩ := h _ _ hfill
  have hp' : relayPacket ips' port' = p' := Option.some.inj (hfill.symm.trans hfill')
  subst hp'
  refine ⟨?_, fun r _ c _ hc => matchCompiledCond_of_source hc rfl rfl⟩
  rw [haddr, haddr']
  exact (relayPacket_inet haddr').trans (relayPacket_inet haddr).symm

theorem route_relayPacket {cfg : RouterConfig} {calls : List EngineCall}
    (hrun : Run (step lib) (fun _ call => RelayCall call) (start cfg) calls s) (ips : List IP) (port : UInt16) :
    (s.engine.route lib (relayPacket ips port)).1 =
      firstMatch lib s.engine.rules s.engine.config.defaultDestination (relayPacket ips port) := by
  have hinv : Cached lib s ∧ Relayed s :=
    hrun.invariant (I := fun s => Cached lib s ∧ Relayed s) (fun h hc hs => ⟨h.1.step hs, h.2.step hc hs⟩)
      ⟨cached_start cfg, nofun⟩
  exact hinv.1.route_eq (hinv.2.apt hinv.1 ips port)

end

def RuleCondition.admitsPort (c : RuleCondition) (port : UInt16) : Bool :=
  match c.field with
  | .dstPort => matchPort (some (.tcp [] port.toNat [])) c
  | .sessionID => matchSessionID {} c
  | _ => false

def RoutingRule.admitsPort (r : RoutingRule) (port : UInt16) : Bool := r.conditions.all fun c => c.admitsPort port

def RoutingRule.onPort (r : RoutingRule) : Bool := r.conditions.any fun c => c.field = .dstPort

section
variable {lib : RouterLib} {r : RoutingRule} {port : UInt16}

def RoutingRule.Addressless (r : RoutingRule) : Prop := ∀ c ∈ r.conditions, c.field ≠ .dstIP ∧ c.field ≠ .srcIP

theorem addressless_of_mem {e : Engine} (h : e.routesOnAddress = false) (hr : r ∈ e.rules) : r.Addressless := by
  intro c hc
  have hnot := any_eq_false.mp h r hr
  have hcond := any_eq_false.mp (Bool.eq_false_of_not_eq_true hnot) c hc
  simpa using hcond

theorem matchCompiledCond_relayPacket {c : RuleCondition} (hd : c.field ≠ .dstIP) (hs : c.field ≠ .srcIP)
    (ips : List IP) :
    matchCompiledCond lib (compileCond lib c) (relayPacket ips port) =
      if c.field = .dstPort then matchPort (firstTCPAddr ips port) c else c.admitsPort port := by
  have hplain : compileCond lib c = { raw := c } := by
    unfold compileCond
    split <;> simp_all
  rw [hplain]
  show matchCondition lib c (relayPacket ips port) = _
  cases hf : c.field with
  | dstIP => exact absurd hf hd
  | srcIP => exact absurd hf hs
  | dstPort => simp only [matchCondition, hf, relayPacket, if_true]
  | srcPort => simp [matchCondition, hf, RuleCondition.admitsPort, relayPacket, matchPort, addrPort]
  | sessionID =>
    simp only [matchCondition, hf, RuleCondition.admitsPort, reduceCtorEq, if_false]
    rfl
  | unsupported name => simp only [matchCondition, hf, RuleCondition.admitsPort, reduceCtorEq, if_false]

theorem matches_relayPacket_cons (h : r.Addressless) (ip : IP) (ips : List IP) :
    r.matches lib (relayPacket (ip :: ips) port) = r.admitsPort port := by
  rw [Bool.eq_iff_iff, RoutingRule.matches, RoutingRule.admitsPort, all_eq_true, all_eq_true]
  refine forall₂_congr fun c hc => ?_
  rw [matchCompiledCond_relayPacket (h c hc).1 (h c hc).2]
  split
  · rename_i hf
    rw [RuleCondition.admitsPort, hf]
    rfl
  · rfl

theorem matches_relayPacket_nil (h : r.Addressless) :
    r.matches lib (relayPacket [] port) = (r.admitsPort port && !r.onPort) := by
  rw [Bool.eq_iff_iff, Bool.and_eq_true, RoutingRule.matches, RoutingRule.admitsPort, RoutingRule.onPort,
    all_eq_true, all_eq_true, Bool.not_eq_true', any_eq_false, ← forall₂_and]
  refine forall₂_congr fun c hc => ?_
  rw [matchCompiledCond_relayPacket (h c hc).1 (h c hc).2]
  by_cases hf : c.field = .dstPort
  · simp [hf, firstTCPAddr, matchPort, addrPort]
  · simp [hf]

def portless (rules : List RoutingRule) (port : UInt16) : Option RoutingRule :=
  rules.find? fun r => r.admitsPort port && !r.onPort

/-- The first rule that the port satisfies looks at no port, or comes to the same as the first of the others.
    -/
def PortIgnored (server : RelayServer) (rules : List RoutingRule) (default : Destination) (port : UInt16) : Prop :=
  ∀ r, rules.find? (fun r => r.admitsPort port) = some r → r.onPort = true →
    server.verdict r.destination = server.verdict (((portless rules port).map RoutingRule.destination).getD default)

variable {rules : List RoutingRule}

theorem portless_of_find (h : rules.find? (fun r => r.admitsPort port) = some r)
    (hport : r.onPort = false) : portless rules port = some r := by
  obtain ⟨hr, as, bs, rfl, has⟩ := find?_eq_some_iff_append.mp h
  refine find?_eq_some_iff_append.mpr ⟨by simp [hr, hport], as, bs, rfl, fun a ha => ?_⟩
  simp_all

theorem portless_of_none (h : rules.find? (fun r => r.admitsPort port) = none) : portless rules port = none := by
  rw [find?_eq_none] at h
  refine find?_eq_none.mpr fun a ha => ?_
  simp_all

end

/-- While no rule looks at an address, the relay does not look up the host. Its decision is the one on any
    address of the host exactly if the rules do not decide on the port. -/
theorem skipping_resolution_iff (lib : RouterLib) (cfg : RouterConfig) (calls : List EngineCall) (s : RoutedEngine)
    (hrun : Run (step lib) (fun _ call => RelayCall call) (start cfg) calls s) (server : RelayServer)
    (hrouter : server.router = some s.engine) (hno : s.engine.routesOnAddress = false) (host : List Char)
    (found : Option (List IP)) (port : UInt16) (ip : IP) (ips : List IP) :
    (server.resolveProxyDialer lib .tcp port (server.routeIPs lib host found)).1 =
        (server.resolveProxyDialer lib .tcp port (ip :: ips)).1 ↔
      PortIgnored server s.engine.rules s.engine.config.defaultDestination port := by
  have hskip : server.routeIPs lib host found = [] := by simp [routeIPs, hrouter, hno]
  have hdecide : ∀ ips, (server.resolveProxyDialer lib .tcp port ips).1 =
      server.verdict (firstMatch lib s.engine.rules s.engine.config.defaultDestination (relayPacket ips port)) := by
    intro ips
    rw [← route_relayPacket hrun]
    simp only [resolveProxyDialer, hrouter, relayPacket]
  have hwith : s.engine.rules.find? (fun r => r.matches lib (relayPacket (ip :: ips) port)) =
      s.engine.rules.find? fun r => r.admitsPort port :=
    find?_congr fun r hr => matches_relayPacket_cons (addressless_of_mem hno hr) ip ips
  have hwithout : s.engine.rules.find? (fun r => r.matches lib (relayPacket [] port)) = portless s.engine.rules port :=
    find?_congr fun r hr => matches_relayPacket_nil (addressless_of_mem hno hr)
  rw [hskip, hdecide, hdecide, firstMatch, firstMatch, hwith, hwithout, PortIgnored]
  cases hfind : s.engine.rules.find? fun r => r.admitsPort port with
  | none => simp [portless_of_none hfind]
  | some r =>
    cases hport : r.onPort with
    | false => simp [portless_of_find hfind hport, hport]
    | true =>
      simp only [Option.some.injEq, forall_eq', hport, true_implies]
      exact eq_comm

def blockPort : RoutingRule where
  id := "port"
  conditions := [{ field := .dstPort, operator := .eq, value := .int 443 }]
  destination := { type := .block }

def portEngine : RoutedEngine := (start {}).change ((Engine.new {}).addRule sampleLib blockPort)

def portServer : RelayServer := { router := some portEngine.engine }

theorem skipping_resolution_off_port :
    (portServer.resolveProxyDialer sampleLib .tcp 80 (portServer.routeIPs sampleLib ['h'] none)).1 =
      (portServer.resolveProxyDialer sampleLib .tcp 80 [[1, 2, 3, 4]]).1 := by
  have hrun : Run (step sampleLib) (fun _ call => RelayCall call) (start {}) ([] ++ [.addRule blockPort]) portEngine :=
    Run.nil.snoc trivial rfl
  have hfind : portEngine.engine.rules.find? (fun r => r.admitsPort 80) = none := by decide +kernel
  refine (skipping_resolution_iff sampleLib {} _ portEngine hrun portServer rfl (by decide +kernel) ['h'] none 80
    [1, 2, 3, 4] []).mpr fun r hr => ?_
  cases hr

/-- The port is blocked, but a name is not looked up, and so its port is not seen. -/
theorem blocked_port_is_dialled :
    (∃ calls, AnyRun (step sampleLib) (start {}) calls portEngine) ∧ portEngine.engine.routesOnAddress = false ∧
      (portServer.resolveProxyDialer sampleLib .tcp 443 (portServer.routeIPs sampleLib ['h'] none)).1 =
      some (.direct, "") ∧
      (portServer.resolveProxyDialer sampleLib .tcp 443 [[1, 2, 3, 4]]).1 = none := by
  refine ⟨⟨[] ++ [.addRule blockPort], Run.nil.snoc trivial rfl⟩, ?_⟩
  decide +kernel

section
variable {lib : RouterLib} {s : RelayServer} {e : Engine}

variable {host : List Char} {found : Option (List IP)}

theorem openTarget_blocked (hrouter : s.router = some e) {port : UInt16}
    (hblock : (e.route lib (relayPacket (s.routeIPs lib host found) port)).1.type = .block) (reach : Dial → Bool) :
    (s.openTarget lib reach .tcp host port found).1 = [] := by
  have hresolve : (s.resolveProxyDialer lib .tcp port (s.routeIPs lib host found)).1 = none := by
    simp only [resolveProxyDialer, hrouter, verdict]
    rw [relayPacket] at hblock
    rw [hblock]
  rw [openTarget]
  split
  · rfl
  · rename_i h
    rw [h] at hresolve
    cases hresolve

theorem serve_eq (reach : Dial → Bool) (found : Option (List IP)) (stream : ClientStream) :
    s.serve lib reach found stream = s.openTarget lib reach stream.network stream.host stream.port found := by
  cases stream <;> rfl

variable {ip : IP} {reach : Dial → Bool}

theorem routeIPs_cons {ips : List IP}
    (h : s.routeIPs lib host found = ip :: ips) : (lib.parseIP host = some ip ∧ ips = []) ∨
    lib.parseIP host = none := by
  unfold routeIPs at h
  split at h
  · cases h
  · split at h
    · unfold targetIPs at h
      split at h
      · rename_i ip' hparse
        obtain ⟨rfl, rfl⟩ := List.cons.inj h
        exact .inl ⟨hparse, rfl⟩
      · exact .inr ‹_›
    · cases h

theorem dialTarget_single {dialer : Dialer} {network : Network} {port : UInt16}
    (h : lib.parseIP host = some ip ∨ lib.parseIP host = none) {d : Dial}
    (hd : d ∈ dialTarget lib reach dialer network host port [ip]) (hdirect : d.dialer = .direct) :
    d.endpoint = .addr ip ∧ d.port = port := by
  unfold dialTarget at hd
  split at hd
  · rename_i hcond
    cases mem_singleton.mp hd
    rcases h with h | h
    · exact ⟨by simp only [endpoint, h], rfl⟩
    · rcases hcond with hne | hne | hne
      · exact absurd hdirect hne
      · exact absurd h hne
      · cases hne
  · have hprefer : preferIPv6 [ip] = [ip] := by
      unfold preferIPv6
      cases h4 : ip.to4 with
      | none | some ip4 => simp [h4]
    rw [hprefer, dialLoop, dialLoop, ite_self] at hd
    cases mem_singleton.mp hd
    exact ⟨rfl, rfl⟩

theorem openTarget_single {port : UInt16}
    (h : s.routeIPs lib host found = [ip]) {d : Dial} (hd : d ∈ (s.openTarget lib reach .tcp host port found).1)
    (hdirect : d.dialer = .direct) : d.endpoint = .addr ip ∧ d.port = port := by
  have hhost : lib.parseIP host = some ip ∨ lib.parseIP host = none := by
    rcases routeIPs_cons h with h | h
    · exact .inl h.1
    · exact .inr h
  simp only [openTarget, h] at hd
  split at hd
  · cases hd
  · simp only [dialProxyTarget] at hd
    split at hd
    · cases mem_singleton.mp hd
      cases hdirect
    · exact dialTarget_single hhost hd hdirect

end

/-- What the engine says of the address and the port. -/
def answer (lib : RouterLib) (e : Engine) (ip : IP) (port : UInt16) : Destination :=
  (e.route lib { dstAddr := some (.tcp ip port.toNat []) }).1

theorem direct_of_mem_dialLoop {reach : Dial → Bool} {network : Network} {port : UInt16} {d : Dial} {ips : List IP}
    (hd : d ∈ dialLoop reach network port ips) : d.dialer = .direct := by
  induction ips with
  | nil => cases hd
  | cons ip ips ih =>
    rcases mem_cons.mp hd with rfl | hd
    · rfl
    · split at hd
      · cases hd
      · exact ih hd

theorem dialLoop_ne_nil (reach : Dial → Bool) {network : Network} {port : UInt16} {ips : List IP} (h : ips ≠ []) :
    dialLoop reach network port ips ≠ [] := by
  cases ips with
  | nil => exact absurd rfl h
  | cons ip ips => exact cons_ne_nil _ _

theorem preferIPv6_ne_nil {ips : List IP} (h : ips ≠ []) : preferIPv6 ips ≠ [] := by
  obtain ⟨ip, hip⟩ := exists_mem_of_ne_nil ips h
  by_cases hv4 : ip.to4 = none
  · exact ne_nil_of_mem (mem_append_left _ (mem_filter.mpr ⟨hip, decide_eq_true hv4⟩))
  · exact ne_nil_of_mem (mem_append_right _ (mem_filter.mpr ⟨hip, decide_eq_true hv4⟩))

/-- The router is not asked about a UDP stream, whose target is dialled directly. -/
theorem serve_udp (lib : RouterLib) (s : RelayServer) {stream : ClientStream} (reach : Dial → Bool)
    (found : Option (List IP))
    (h : stream.network = .udp) :
    (s.serve lib reach found stream).1 =
      if lib.parseIP stream.host ≠ none ∨ s.routeIPs lib stream.host found = [] then
        [{ dialer := .direct, network := .udp, endpoint := endpoint lib stream.host, port := stream.port }]
      else dialLoop reach .udp stream.port (preferIPv6 (s.routeIPs lib stream.host found)) := by
  rw [serve_eq, h]
  simp [openTarget, resolveProxyDialer, dialProxyTarget, dialTarget]

/-- If the router is asked about an address of a TCP stream and blocks it, nothing is dialled. UDP streams and
    datagrams go to their target whatever the router would say. -/
theorem blocked_address_is_refused (lib : RouterLib) (e : Engine) (s : RelayServer) (hrouter : s.router = some e)
    (reach : Dial → Bool) (found : Option (List IP)) (stream : ClientStream) :
    (stream.network = .tcp → ∀ ip ips, s.routeIPs lib stream.host found = ip :: ips →
      ((answer lib e ip stream.port).type = .block → (s.serve lib reach found stream).1 = []) ∧
      (ips = [] → ∀ d ∈ (s.serve lib reach found stream).1, d.dialer = .direct →
        ∀ a, d.endpoint = .addr a → (answer lib e a d.port).type ≠ .block)) ∧
    (stream.network = .udp →
      (s.serve lib reach found stream).1 =
        (if lib.parseIP stream.host ≠ none ∨ s.routeIPs lib stream.host found = [] then
          [{ dialer := .direct, network := .udp, endpoint := endpoint lib stream.host, port := stream.port }]
        else dialLoop reach .udp stream.port (preferIPv6 (s.routeIPs lib stream.host found))) ∧
      (s.serve lib reach found stream).1 ≠ [] ∧
      ∀ d ∈ (s.serve lib reach found stream).1, d.dialer = .direct) ∧
    (∀ (session : DatagramSession) payload host port rest, decodeAddr payload = some (host, port, rest) →
      joinHostPort host (Text.itoa port.toNat) ∉ session.targets →
      (session.handlePayload lib reach payload).1 =
        [{ dialer := .direct, network := .udp, endpoint := endpoint lib host, port := port }]) := by
  refine ⟨fun hnet ip ips hips => ?_, fun hnet => ?_, fun session payload host port rest hdecode hnew => ?_⟩
  · have hrefuse : (answer lib e ip stream.port).type = .block → (s.serve lib reach found stream).1 = [] := by
      intro hblock
      rw [serve_eq, hnet]
      exact openTarget_blocked hrouter (by rw [hips]; exact hblock) reach
    refine ⟨hrefuse, ?_⟩
    rintro rfl d hd hdirect a ha hblock
    have hserve := hd
    rw [serve_eq, hnet] at hd
    obtain ⟨hend, hport⟩ := openTarget_single hips hd hdirect
    cases hend.symm.trans ha
    rw [hport] at hblock
    rw [hrefuse hblock] at hserve
    cases hserve
  · have hudp := serve_udp lib s reach found hnet
    refine ⟨hudp, ?_⟩
    rw [hudp]
    split
    · simp
    · rename_i hips
      exact ⟨dialLoop_ne_nil reach (preferIPv6_ne_nil fun h => hips (.inr h)), fun d hd => direct_of_mem_dialLoop hd⟩
  · have hcontains : ¬session.targets.contains (joinHostPort host (Text.itoa port.toNat)) = true :=
      fun h => hnew (contains_iff_mem.mp h)
    simp only [DatagramSession.handlePayload, hdecode, if_neg hcontains]

def blockAddress : RoutingRule where
  id := "address"
  conditions := [{ field := .dstIP, operator := .eq, value := .str ['1', '.', '2', '.', '3', '.', '4'] }]
  destination := { type := .block }

def addressEngine : Engine := ((start {}).change ((Engine.new {}).addRule sampleLib blockAddress)).engine

theorem blocked_address_is_refused_by_name :
    (({ router := some addressEngine } : RelayServer).serve sampleLib (fun _ => true) (some [[1, 2, 3, 4]])
      (.mux 0x06 ['h'] [] 443)).1 = [] :=
  ((blocked_address_is_refused sampleLib addressEngine { router := some addressEngine } rfl (fun _ => true)
    (some [[1, 2, 3, 4]]) (.mux 0x06 ['h'] [] 443)).1 rfl [1, 2, 3, 4] [] (by decide +kernel)).1 (by decide +kernel)

theorem blocked_address_is_dialled_over_udp : (answer sampleLib addressEngine [1, 2, 3, 4] 53).type = .block ∧
      (({ router := some addressEngine } : RelayServer).serve sampleLib (fun _ => true) none
        (.perFlow { proto := 0x11, splice := false, keepAlive := false, torrent := false,
                    addr := [49, 46, 50, 46, 51, 46, 52], port := 53 })).1 =
        [{ dialer := .direct, network := .udp, endpoint := .addr [1, 2, 3, 4], port := 53 }] ∧
      (({} : DatagramSession).handlePayload sampleLib (fun _ => true) [0x01, 1, 2, 3, 4, 0, 53]).1 =
        [{ dialer := .direct, network := .udp, endpoint := .addr [1, 2, 3, 4], port := 53 }] := by
  decide +kernel

end Whispera
