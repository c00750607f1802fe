import Whispera.CamoConn
import Whispera.Theorems.Selector
import Whispera.Lib.Transition

/-! A packet is returned only while its peer is trusted: a packet of the peer authenticated, and each one
since came before the trust, which it renewed, had run out. -/

namespace Whispera
open List Option Transition

variable {p : CamoPacket} {handled : List (CamoPacket × CamoVerdict)} {v : CamoVerdict} {key : String} {exp : Int}

namespace CamoConn

/-- Packets that were returned, each checked before the trust from the one before had run out. -/
def Kept (last : Int) : List (CamoPacket × CamoVerdict) → Prop
  | [] => True
  | (p, v) :: es => p.checkedAt - last < quicCamoTrustWindow ∧ ∃ t, v = .returned t ∧ Kept t es

def lastTrust (last : Int) : List (CamoPacket × CamoVerdict) → Int
  | [] => last
  | (_, .returned t) :: es => lastTrust t es
  | (_, .authenticated _) :: es | (_, .diverted) :: es => lastTrust last es

theorem kept_snoc {t : Int} : ∀ {es : List (CamoPacket × CamoVerdict)} {last : Int}, Kept last es →
    p.checkedAt - lastTrust last es < quicCamoTrustWindow →
    Kept last (es ++ [(p, .returned t)]) ∧ lastTrust last (es ++ [(p, .returned t)]) = t
  | [], _, _, hcheck => ⟨⟨hcheck, t, rfl, trivial⟩, rfl⟩
  | (q, v) :: es, last, h, hcheck => by
    obtain ⟨hq, u, rfl, hes⟩ := h
    obtain ⟨hkept, hlast⟩ := kept_snoc hes hcheck
    exact ⟨⟨hq, u, rfl, hkept⟩, hlast⟩

def ofPeer (key : String) (handled : List (CamoPacket × CamoVerdict)) : List (CamoPacket × CamoVerdict) :=
  handled.filter fun e => e.1.key = key

theorem ofPeer_snoc_self (handled : List (CamoPacket × CamoVerdict)) (p : CamoPacket) (v : CamoVerdict) :
    ofPeer p.key (handled ++ [(p, v)]) = ofPeer p.key handled ++ [(p, v)] := by
  simp [ofPeer, filter_append]

theorem ofPeer_snoc_other (h : p.key ≠ key) : ofPeer key (handled ++ [(p, v)]) = ofPeer key handled := by
  simp [ofPeer, filter_append, h]

def Trusted (handled : List (CamoPacket × CamoVerdict)) (key : String) (exp : Int) : Prop :=
  ∃ before q since es, ofPeer key handled = before ++ (q, .authenticated since) :: es ∧ Kept since es ∧
    lastTrust since es + quicCamoTrustWindow = exp

def Justified (handled : List (CamoPacket × CamoVerdict)) (p : CamoPacket) (t : Int) : Prop :=
  ∃ before q since es, ofPeer p.key handled = before ++ (q, .authenticated since) :: es ∧
    Kept since (es ++ [(p, .returned t)])

theorem Trusted.refresh (h : Trusted handled p.key exp) (hcheck : p.checkedAt < exp) (t : Int) :
    Justified handled p t ∧ Trusted (handled ++ [(p, .returned t)]) p.key (t + quicCamoTrustWindow) := by
  obtain ⟨before, q, since, es, hpeer, hkept, rfl⟩ := h
  obtain ⟨hkept', hlast⟩ := kept_snoc (t := t) hkept (Int.sub_lt_iff.mpr (by rwa [Int.add_comm] at hcheck))
  refine ⟨⟨before, q, since, es, hpeer, hkept'⟩, before, q, since, es ++ [(p, .returned t)], ?_, hkept', by rw [hlast]⟩
  rw [ofPeer_snoc_self, hpeer, append_assoc, cons_append]

end CamoConn

def CamoPc.packet : CamoPc → Option CamoPacket
  | .waiting => none
  | .inspecting p | .accepted p | .refused p _ | .dialled p _ | .forwarding p => some p

def CamoPc.Decoyed : CamoPc → Prop
  | .forwarding _ => True
  | _ => False

namespace CamoConn

/-- A trusted peer has authenticated, and has no decoy session. -/
structure Guarded (s : CamoConn) : Prop where
  trusted : ∀ key exp, s.realPeers.lookup key = some exp → Trusted s.handled key exp
  justified : ∀ n ∈ s.returned, ∃ p t, s.handled[n]? = some (p, .returned t) ∧ Justified (s.handled.take n) p t
  separate : ∀ key ∈ s.realPeers, key ∉ s.decoySessions
  untrusted : ∀ p ∈ s.pc.packet, p.key ∉ s.realPeers
  undecoyed : ∀ p ∈ s.pc.packet, ¬s.pc.Decoyed → p.key ∉ s.decoySessions

theorem guarded_start (now : Int) : Guarded (newCamoConn now) where
  trusted := by
    intro key exp h
    cases h
  justified := by
    intro n h
    cases h
  separate := by
    intro key h
    cases h
  untrusted := by simp [newCamoConn, CamoPc.packet]
  undecoyed := by simp [newCamoConn, CamoPc.packet]

variable {s t : CamoConn}

theorem Guarded.justified_snoc (h : Guarded s) (e : CamoPacket × CamoVerdict) : ∀ n ∈ s.returned, ∃ p t,
    (s.handled ++ [e])[n]? = some (p, .returned t) ∧ Justified ((s.handled ++ [e]).take n) p t := by
  intro n hn
  obtain ⟨p, t, hat, hjust⟩ := h.justified n hn
  obtain ⟨hlt, -⟩ := List.getElem?_eq_some_iff.mp hat
  rw [getElem?_append_left hlt, take_append_of_le_length (Nat.le_of_lt hlt)]
  exact ⟨p, t, hat, hjust⟩

theorem Trusted.snoc_other (h : Trusted handled key exp) (hother : p.key ≠ key) :
    Trusted (handled ++ [(p, v)]) key exp := by
  obtain ⟨before, q, since, es, hpeer, hrest⟩ := h
  exact ⟨before, q, since, es, by rwa [ofPeer_snoc_other hother], hrest⟩

theorem mem_of_lookup {m : AList fun _ : String => Int} (h : m.lookup key = some exp) : key ∈ m :=
  AList.lookup_isSome.mp (isSome_iff_exists.mpr ⟨exp, h⟩)

theorem Guarded.mono (h : Guarded s)
    (hpeers : ∀ key exp, t.realPeers.lookup key = some exp → s.realPeers.lookup key = some exp)
    (hsessions : ∀ key ∈ t.decoySessions, key ∈ s.decoySessions) (hhandled : t.handled = s.handled)
    (hreturned : t.returned = s.returned) (huntrusted : ∀ p ∈ t.pc.packet, p.key ∉ t.realPeers)
    (hundecoyed : ∀ p ∈ t.pc.packet, ¬t.pc.Decoyed → p.key ∉ t.decoySessions) : Guarded t := by
  refine ⟨fun key exp hexp => ?_, ?_, fun key hkey hdecoy => ?_, huntrusted, hundecoyed⟩
  · rw [hhandled]
    exact h.trusted key exp (hpeers key exp hexp)
  · rw [hhandled, hreturned]
    exact h.justified
  · obtain ⟨exp, hexp⟩ := isSome_iff_exists.mp (AList.lookup_isSome.mpr hkey)
    exact h.separate key (mem_of_lookup (hpeers key exp hexp)) (hsessions key hdecoy)

theorem Guarded.finish (h : Guarded s) (hp : p.key ∉ s.realPeers) : Guarded (s.finish p .diverted) := by
  refine ⟨fun key exp hexp => ?_, h.justified_snoc _, h.separate, by simp [CamoConn.finish, CamoPc.packet],
    by simp [CamoConn.finish, CamoPc.packet]⟩
  refine (h.trusted key exp hexp).snoc_other ?_
  rintro rfl
  exact hp (mem_of_lookup hexp)

/-- The trust in the packet's peer is set or renewed. -/
theorem Guarded.insert (h : Guarded s) (hp : p.key ∉ s.decoySessions)
    (htrusted : Trusted (s.handled ++ [(p, v)]) p.key exp)
    (hpc : s.pc = .waiting) :
    Guarded { s with realPeers := s.realPeers.insert p.key exp, handled := s.handled ++ [(p, v)] } := by
  refine ⟨fun key e he => ?_, h.justified_snoc _, fun key hkey => ?_, by simp [hpc, CamoPc.packet],
    by simp [hpc, CamoPc.packet]⟩
  · simp only at he ⊢
    by_cases hkey : key = p.key
    · rw [hkey, AList.lookup_insert] at he
      cases he
      exact hkey ▸ htrusted
    · rw [AList.lookup_insert_ne hkey] at he
      exact (h.trusted key e he).snoc_other (Ne.symm hkey)
  · rcases (AList.mem_insert _).mp hkey with rfl | hold
    · exact hp
    · exact h.separate key hold

theorem lookup_filter {m : AList fun _ : String => Int} {f : (Sigma fun _ : String => Int) → Bool}
    (h : (AList.mk (m.entries.filter f) (m.nodupKeys.sublist filter_sublist)).lookup key = some exp) :
    m.lookup key = some exp := by
  rw [← mem_def, AList.mem_lookup_iff] at h ⊢
  exact (mem_filter.mp h).1

theorem lookup_cleanup {now : Int} {idleAt : String → Int} :
    ((s.cleanupLocked now idleAt).realPeers.lookup key = some exp → s.realPeers.lookup key = some exp) ∧
      ((s.cleanupLocked now idleAt).decoySessions.lookup key = some exp → s.decoySessions.lookup key = some exp) := by
  unfold cleanupLocked
  split
  · exact ⟨id, id⟩
  · exact ⟨lookup_filter, lookup_filter⟩

@[simp] theorem handled_cleanup (s : CamoConn) (now : Int) (idleAt : String → Int) :
    (s.cleanupLocked now idleAt).handled = s.handled := by
  unfold cleanupLocked
  split <;> rfl

@[simp] theorem returned_cleanup (s : CamoConn) (now : Int) (idleAt : String → Int) :
    (s.cleanupLocked now idleAt).returned = s.returned := by
  unfold cleanupLocked
  split <;> rfl

theorem notMem_of_lookup {m m' : AList fun _ : String => Int}
    (h : ∀ key exp, m'.lookup key = some exp → m.lookup key = some exp)
    (hkey : key ∉ m) : key ∉ m' := by
  intro hmem
  obtain ⟨exp, hexp⟩ := isSome_iff_exists.mp (AList.lookup_isSome.mpr hmem)
  exact hkey (mem_of_lookup (h key exp hexp))

theorem packet_lookupDecoy (s : CamoConn) (p : CamoPacket) (clean : Int) (idleAt : String → Int) :
    (s.lookupDecoy p clean idleAt).pc.packet = some p := by
  simp only [CamoConn.lookupDecoy]
  split <;> rfl

theorem Guarded.lookupDecoy (h : Guarded s) (hp : p.key ∉ s.realPeers) (clean : Int) (idleAt : String → Int) :
    Guarded (s.lookupDecoy p clean idleAt) := by
  have hpeers : ∀ key exp, (s.lookupDecoy p clean idleAt).realPeers.lookup key = some exp →
    s.realPeers.lookup key = some exp :=
    fun key exp => lookup_cleanup.1
  have hsessions : ∀ key last, (s.lookupDecoy p clean idleAt).decoySessions.lookup key = some last →
      s.decoySessions.lookup key = some last := fun key last => lookup_cleanup.2
  have hpacket := packet_lookupDecoy s p clean idleAt
  refine h.mono hpeers (fun key hkey => ?_) (handled_cleanup s clean idleAt) (returned_cleanup s clean idleAt)
    (fun q hq => ?_) fun q hq hno => ?_
  · by_contra hnot
    exact notMem_of_lookup hsessions hnot hkey
  · rw [hpacket] at hq
    cases hq
    exact notMem_of_lookup hpeers hp
  · rw [hpacket] at hq
    cases hq
    refine notMem_of_lookup hsessions fun hmem => hno ?_
    simp only [CamoConn.lookupDecoy, AList.lookup_isSome.mpr hmem, if_true]
    trivial

theorem Guarded.check (h : Guarded s) (hpc : s.pc = .waiting) (p : CamoPacket) (refresh clean : Int)
    (idleAt : String → Int) :
    Guarded (s.check p refresh clean idleAt) := by
  unfold CamoConn.check
  split
  · rename_i exp hexp
    split
    · rename_i hcheck
      obtain ⟨hjust, htrusted⟩ := (h.trusted p.key exp hexp).refresh hcheck refresh
      have hrenewed := h.insert (h.separate p.key (mem_of_lookup hexp)) htrusted hpc
      refine ⟨hrenewed.trusted, fun n hn => ?_, hrenewed.separate, hrenewed.untrusted, hrenewed.undecoyed⟩
      rcases mem_cons.mp hn with rfl | hold
      · exact ⟨p, refresh, getElem?_concat_length .., by simpa using hjust⟩
      · exact hrenewed.justified n hold
    · have hless : ∀ key exp, (s.realPeers.erase p.key).lookup key = some exp → s.realPeers.lookup key = some exp := by
        intro key exp hexp
        by_cases hkey : key = p.key
        · rw [hkey, AList.lookup_erase] at hexp
          cases hexp
        · rwa [AList.lookup_erase_ne hkey] at hexp
      have herased : Guarded { s with realPeers := s.realPeers.erase p.key } :=
        h.mono hless (fun key hkey => hkey) rfl rfl (by simp [hpc, CamoPc.packet]) (by simp [hpc, CamoPc.packet])
      exact herased.lookupDecoy (by simp [AList.mem_erase]) clean idleAt
  · rename_i hnone
    exact h.lookupDecoy (AList.lookup_eq_none.mp hnone) clean idleAt

/-- The packet that a step takes from the socket. -/
def Act.packet : Act → Option CamoPacket
  | .read key data now _ _ _ => some { key, data, checkedAt := now }
  | _ => none

/-- A step, with the packet that it takes in. -/
inductive Moves (s : CamoConn) : Option CamoPacket → CamoConn → Prop
  | read (p : CamoPacket) (refresh clean : Int) (idleAt : String → Int) : s.pc = .waiting →
      Moves s (some p) (s.check p refresh clean idleAt)
  | judge (p : CamoPacket) (pc : CamoPc) : s.pc.packet = some p → ¬s.pc.Decoyed → pc.packet = some p →
      Moves s none { s with pc }
  | trust (p : CamoPacket) (now : Int) : s.pc = .accepted p →
      Moves s none ({ s with
        realPeers := s.realPeers.insert p.key (now + quicCamoTrustWindow) }.finish p (.authenticated now))
  | giveUp (p : CamoPacket) : s.pc.packet = some p → Moves s none (s.finish p .diverted)
  | store (p : CamoPacket) (lastActive : Int) : s.pc = .dialled p lastActive →
      Moves s none { s with decoySessions := s.decoySessions.insert p.key lastActive, pc := .forwarding p }
  | forward (p : CamoPacket) (now : Int) : s.pc = .forwarding p →
      Moves s none ({ s with decoySessions := s.decoySessions.replace p.key now }.finish p .diverted)
  | pump (key : String) (now : Int) : Moves s none { s with decoySessions := s.decoySessions.replace key now }

theorem moves {crypto : Crypto} {parse : Bytes → Option ParsedInitial} {a : Act}
    (h : s.step crypto parse a = some t) : Moves s a.packet t := by
  -- one goal for each way through `step` that leads to a state, in the order of its cases
  cases a <;> simp only [CamoConn.step] at h <;> (try split at h) <;> try cases h
  · exact .read _ _ _ _ ‹_›
  · rename_i p hpc
    have hp : s.pc.packet = some p := by rw [hpc]; rfl
    have hno : ¬s.pc.Decoyed := by rw [hpc]; exact id
    split at h <;> cases h
    · refine .judge p _ hp hno ?_
      split <;> rfl
    · exact .judge p _ hp hno rfl
  · exact .trust _ _ ‹_›
  · rename_i p sni hpc
    have hp : s.pc.packet = some p := by rw [hpc]; rfl
    split at h
    · cases h
      exact .giveUp p hp
    · split at h <;> cases h
      · exact .giveUp p hp
      · exact .judge p _ hp (by rw [hpc]; exact id) rfl
  · exact .store _ _ ‹_›
  · exact .forward _ _ ‹_›
  · exact .pump _ _

variable {r : Option CamoPacket}

theorem Guarded.move (h : Guarded s) (hmove : Moves s r t) : Guarded t := by
  cases hmove with
  | read p refresh clean idleAt hpc => exact h.check hpc p refresh clean idleAt
  | judge p pc hp hno hpc =>
    refine ⟨h.trusted, h.justified, h.separate, fun q hq => ?_, fun q hq _ => ?_⟩
    · rw [hpc, ← hp] at hq
      exact h.untrusted q hq
    · rw [hpc, ← hp] at hq
      exact h.undecoyed q hq hno
  | trust p now hpc =>
    have hp := h.undecoyed p
    rw [hpc] at hp
    have hwaiting : Guarded { s with pc := .waiting } := ⟨h.trusted, h.justified, h.separate, nofun, nofun⟩
    exact hwaiting.insert (hp rfl id) ⟨_, p, now, [], ofPeer_snoc_self _ _ _, trivial, rfl⟩ rfl
  | giveUp p hp => exact h.finish (h.untrusted p hp)
  | store p lastActive hpc =>
    have hp := h.untrusted p
    rw [hpc] at hp
    refine ⟨h.trusted, h.justified, fun key hkey hmem => ?_, fun q hq => ?_, fun q _ hno => absurd trivial hno⟩
    · rcases (AList.mem_insert _).mp hmem with rfl | hold
      · exact hp rfl hkey
      · exact h.separate key hkey hold
    · cases hq
      exact hp rfl
  | forward p now hpc =>
    have hp := h.untrusted p
    rw [hpc] at hp
    refine Guarded.finish (s := { s with decoySessions := s.decoySessions.replace p.key now }) ?_ (hp rfl)
    refine h.mono (fun key exp hexp => hexp)
      (fun key hkey => AList.mem_replace.mp hkey) rfl rfl h.untrusted fun q hq hno hmem => ?_
    exact h.undecoyed q hq hno (AList.mem_replace.mp hmem)
  | pump key now =>
    refine h.mono (fun key exp hexp => hexp)
      (fun key hkey => AList.mem_replace.mp hkey) rfl rfl h.untrusted fun q hq hno hmem => ?_
    exact h.undecoyed q hq hno (AList.mem_replace.mp hmem)

/-- The packets that have been read, in order. -/
def packets (s : CamoConn) : List CamoPacket := s.handled.map Prod.fst ++ s.pc.packet.toList

theorem packets_check (hpc : s.pc = .waiting) (p : CamoPacket) (refresh clean : Int) (idleAt : String → Int) :
    (s.check p refresh clean idleAt).packets = s.packets ++ [p] := by
  have hold : s.packets = s.handled.map Prod.fst := by rw [packets, hpc, CamoPc.packet, toList_none, append_nil]
  have hlookup : ∀ peers, ({ s with realPeers := peers }.lookupDecoy p clean idleAt).packets = s.packets ++ [p] := by
    intro peers
    rw [packets, packet_lookupDecoy, CamoConn.lookupDecoy, handled_cleanup, hold, toList_some]
  unfold CamoConn.check
  split
  · split
    · simp [packets, hpc, CamoPc.packet]
    · exact hlookup _
  · exact hlookup _

theorem packets_move (hmove : Moves s r t) : t.packets = s.packets ++ r.toList := by
  cases hmove with
  | read p refresh clean idleAt hpc => exact packets_check hpc p refresh clean idleAt
  | judge p pc hp _ hpc => simp [packets, hp, hpc]
  | giveUp p hp =>
    rw [packets, packets, hp]
    simp [finish, CamoPc.packet]
  | trust p now hpc | store p now hpc | forward p now hpc => simp [packets, hpc, finish, CamoPc.packet]
  | pump key now => simp [packets]

variable (crypto : Crypto) (parse : Bytes → Option ParsedInitial)

/-- In the steps, `ReadFrom` parsed the packet and `authenticate` returned true for what it had parsed. -/
def AuthenticatedIn (start : Int) (acts : List Act) (q : CamoPacket) : Prop :=
  ∃ pre selects keys unix post t parsed, acts = pre ++ .inspect selects keys unix :: post ∧
    AnyRun (step crypto parse) (newCamoConn start) pre t ∧ t.pc = .inspecting q ∧ parse q.data = some parsed ∧
    authenticate crypto parsed selects keys unix = true

/-- The packet has authenticated its peer, whether or not the trust is stored yet. -/
def Passed (q : CamoPacket) (s : CamoConn) : Prop :=
  s.pc = .accepted q ∨ ∃ since, (q, .authenticated since) ∈ s.handled

variable {crypto parse}

theorem Passed.check {q : CamoPacket} {refresh clean : Int} {idleAt : String → Int} (hpc : s.pc = .waiting)
    (h : Passed q (s.check p refresh clean idleAt)) : Passed q s := by
  have hlookup : ∀ peers, Passed q ({ s with realPeers := peers }.lookupDecoy p clean idleAt) → Passed q s := by
    rintro peers (h | ⟨since, h⟩)
    · simp only [CamoConn.lookupDecoy] at h
      split at h <;> cases h
    · rw [CamoConn.lookupDecoy, handled_cleanup] at h
      exact .inr ⟨since, h⟩
  unfold CamoConn.check at h
  split at h
  · split at h
    · rcases h with h | ⟨since, h⟩
      · cases hpc.symm.trans h
      · rcases mem_append.mp h with h | h
        · exact .inr ⟨since, h⟩
        · cases mem_singleton.mp h
    · exact hlookup _ h
  · exact hlookup _ h

/-- A packet passes in the step that inspects it, and in no other. -/
theorem inspect_of_passed {q : CamoPacket} {a : Act} (hs : s.step crypto parse a = some t) (hno : ¬Passed q s)
    (h : Passed q t) : ∃ selects keys unix parsed, a = .inspect selects keys unix ∧ s.pc = .inspecting q ∧
      parse q.data = some parsed ∧ authenticate crypto parsed selects keys unix = true := by
  -- what a step other than `inspect` adds to the handled packets did not pass in it
  have hadded : ∀ {r v}, t.pc = .waiting → t.handled = s.handled ++ [(r, v)] →
      ∃ since, (q, v) = (r, .authenticated since) := by
    rintro r v hpc hhandled
    rcases h with h | ⟨since, h⟩
    · cases hpc.symm.trans h
    · rw [hhandled] at h
      rcases mem_append.mp h with h | h
      · exact absurd (.inr ⟨since, h⟩) hno
      · cases mem_singleton.mp h
        exact ⟨since, rfl⟩
  cases a with
  | read key data now refresh clean idleAt =>
    simp only [CamoConn.step] at hs
    split at hs <;> cases hs
    exact absurd (Passed.check ‹_› h) hno
  | inspect selects keys unix =>
    simp only [CamoConn.step] at hs
    split at hs <;> try cases hs
    rename_i p hpc
    split at hs <;> cases hs
    · rename_i parsed hparse
      rcases h with h | h
      · simp only at h
        split at h <;> cases h
        exact ⟨selects, keys, unix, parsed, rfl, hpc, hparse, ‹_›⟩
      · exact absurd (.inr h) hno
    · rcases h with h | h
      · cases h
      · exact absurd (.inr h) hno
  | trust now =>
    simp only [CamoConn.step] at hs
    split at hs <;> cases hs
    rename_i p hpc
    obtain ⟨since, heq⟩ := hadded rfl rfl
    cases heq
    exact absurd (.inl hpc) hno
  | divert allowed decoyAddr dialled =>
    simp only [CamoConn.step] at hs
    split at hs <;> try cases hs
    split at hs
    · cases hs
      obtain ⟨since, heq⟩ := hadded rfl rfl
      cases heq
    · split at hs <;> cases hs
      · obtain ⟨since, heq⟩ := hadded rfl rfl
        cases heq
      · rcases h with h | h
        · cases h
        · exact absurd (.inr h) hno
  | store =>
    simp only [CamoConn.step] at hs
    split at hs <;> cases hs
    rcases h with h | h
    · cases h
    · exact absurd (.inr h) hno
  | forward now =>
    simp only [CamoConn.step] at hs
    split at hs <;> cases hs
    obtain ⟨since, heq⟩ := hadded rfl rfl
    cases heq
  | pump key now =>
    cases hs
    exact absurd h hno

theorem packets_run {start : Int} {acts : List Act} (hrun : AnyRun (step crypto parse) (newCamoConn start) acts s) :
    s.packets = acts.filterMap Act.packet := by
  induction hrun with
  | nil => rfl
  | snoc _ _ hs ih => simp [packets_move (moves hs), ih, filterMap_eq_flatMap_toList]

theorem authenticatedIn_of_handled {start : Int} {acts : List Act} {q : CamoPacket} {since : Int}
    (hrun : AnyRun (step crypto parse) (newCamoConn start) acts s) (hq : (q, .authenticated since) ∈ s.handled) :
    AuthenticatedIn crypto parse start acts q := by
  have hstart : ¬Passed q (newCamoConn start) := by simp [Passed, newCamoConn]
  obtain ⟨pre, a, post, u, v, hacts, hpre, hs, hno, hpassed⟩ := hrun.exists_onset hstart (.inr ⟨since, hq⟩)
  obtain ⟨selects, keys, unix, parsed, rfl, hinspect⟩ := inspect_of_passed hs hno hpassed
  exact ⟨pre, selects, keys, unix, post, u, parsed, hacts, hpre, hinspect⟩

end CamoConn

open CamoConn

/-- A packet is returned only if an earlier packet of its peer was parsed and `authenticate` returned true for
    it, and every packet of the peer since then was checked within the trust window after the trust was last
    set or renewed; a packet that authenticates is not returned; and no peer is trusted and has a decoy
    session. -/
theorem returned_after_authentication (crypto : Crypto) (parse : Bytes → Option ParsedInitial) (start : Int)
    (acts : List Act) (s : CamoConn) (hrun : AnyRun (step crypto parse) (newCamoConn start) acts s) :
    s.packets = acts.filterMap Act.packet ∧
    (∀ n ∈ s.returned, ∃ p v, s.handled[n]? = some (p, v) ∧
      ∃ before q since es, ofPeer p.key (s.handled.take n) = before ++ (q, .authenticated since) :: es ∧
        AuthenticatedIn crypto parse start acts q ∧ Kept since (es ++ [(p, v)])) ∧
    (∀ n p since, s.handled[n]? = some (p, .authenticated since) → n ∉ s.returned) ∧
    ∀ key ∈ s.realPeers, key ∉ s.decoySessions := by
  have hguard := hrun.invariant (fun h _ hs => Guarded.move h (moves hs)) (guarded_start start)
  refine ⟨packets_run hrun, fun n hn => ?_, fun n p since hp hn => ?_, hguard.separate⟩
  · obtain ⟨p, t, hat, before, q, since, es, hpeer, hkept⟩ := hguard.justified n hn
    have hq : (q, .authenticated since) ∈ ofPeer p.key (s.handled.take n) := by rw [hpeer]; simp
    have hauth := authenticatedIn_of_handled hrun (mem_of_mem_take (mem_filter.mp hq).1)
    exact ⟨p, _, hat, before, q, since, es, hpeer, hauth, hkept⟩
  · obtain ⟨q, t, hq, -⟩ := hguard.justified n hn
    cases hp.symm.trans hq

def aliceInitial : ParsedInitial where
  sni := "www.example.org"
  random := (markerForWindow sampleCrypto aliceCamoKey 56666667 sampleKeyShare).val
  keyShare := sampleKeyShare

def camoActs : List Act := [
  .read "192.0.2.1:4000" [192] 1700000010000000000 0 1700000010000000001 fun _ => 0,
  .inspect false [aliceCamoKey] 1700000010,
  .trust 1700000010000000002,
  .read "192.0.2.2:4000" [192] 1700000020000000000 0 1700000020000000001 fun _ => 0, .inspect false [bobKey] 1700000020,
  .divert true (fun sni => sni ++ ":443") (some 1700000020000000002), .store, .forward 1700000020000000003,
  .read "192.0.2.1:4000" [64] 1700000099999999999 1700000100000000000 0 fun _ => 0]

theorem returned_after_authentication_of_alice :
    ∃ s, AnyRun (step sampleCrypto fun _ => some aliceInitial) (newCamoConn 1700000000000000000) camoActs s ∧
    s.returned = [2] ∧
      s.realPeers.keys = ["192.0.2.1:4000"] ∧ s.decoySessions.keys = ["192.0.2.2:4000"] ∧
      (s.packets.map fun p => p.data) = [[192], [192], [64]] ∧
      (∃ q, AuthenticatedIn sampleCrypto (fun _ => some aliceInitial) 1700000000000000000 camoActs q) ∧
      ∀ key ∈ s.realPeers, key ∉ s.decoySessions := by
  refine Run.exists_of_exec (Q := fun s => s.returned = [2] ∧ s.realPeers.keys = ["192.0.2.1:4000"] ∧
    s.decoySessions.keys = ["192.0.2.2:4000"]) (by decide +kernel) ?_
  rintro s hrun ⟨hreturned, hpeers, hdecoys⟩
  obtain ⟨hpackets, hback, -, hseparate⟩ := returned_after_authentication _ _ _ _ s hrun
  obtain ⟨-, -, -, -, q, -, -, -, hq, -⟩ := hback 2 (hreturned ▸ mem_cons_self)
  exact ⟨hreturned, hpeers, hdecoys, by rw [hpackets]; rfl, ⟨q, hq⟩, hseparate⟩

end Whispera
