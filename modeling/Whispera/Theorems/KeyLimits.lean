import Whispera.KeyLimits
import Whispera.Lib.Processes
import Whispera.Lib.Transition

/-! All calls keep the count equal to the table with what is owed: taken out and not yet subtracted. Only
`Admit` of an identifier that the key has already raises the count without adding to the table. -/

namespace Whispera
open Table Transition Processes

namespace KeyLimits

section
variable {m : KeyLimits} {key : KeyID} {sid : SessionID} {ip : List Char} {now : Int}

def Reinserted (m m' : KeyLimits) : Prop :=
  m'.sessions = m.sessions ∨ ∃ key : KeyID, m'.sessions = m.sessions.insert key (inner m.sessions key)

/-- Limits and closers are as before. -/
structure SameLimits (m m' : KeyLimits) : Prop where
  defaultLimits : m'.defaultLimits = m.defaultLimits
  keyLimits : m'.keyLimits = m.keyLimits
  closers : m'.closers = m.closers

theorem SameLimits.limitsFor {m m' : KeyLimits} (h : m.SameLimits m') (key : KeyID) :
    m'.limitsFor key = m.limitsFor key := by
  rw [KeyLimits.limitsFor, KeyLimits.limitsFor, h.keyLimits, h.defaultLimits]

theorem Reinserted.inner {m m' : KeyLimits} (h : m.Reinserted m') (key : KeyID) :
    Table.inner m'.sessions key = Table.inner m.sessions key := by
  rcases h with h | ⟨key', h⟩
  · rw [h]
  · rw [h]
    rcases eq_or_ne key key' with rfl | hne
    · rw [inner_insert_self]
    · rw [inner_insert_ne hne]

theorem Reinserted.size {m m' : KeyLimits} (h : m.Reinserted m') : size m'.sessions = size m.sessions := by
  rcases h with h | ⟨key, h⟩
  · rw [h]
  · have := size_insert m.sessions key (Table.inner m.sessions key)
    rw [h]
    omega

theorem admitSession_cases (m : KeyLimits) (key : KeyID) (sid : SessionID) (ip : List Char) (now : Int) :
    m.SameLimits (m.admitSession key sid ip now).2 ∧
    ((∃ r, (m.admitSession key sid ip now).1 = some r ∧ m.Reinserted (m.admitSession key sid ip now).2 ∧
        (m.admitSession key sid ip now).2.totalSessions = m.totalSessions) ∨
      ((m.admitSession key sid ip now).1 = none ∧
        (0 < (m.limitsFor key).maxActiveSessions →
          (normalCount (inner m.sessions key) : Int) < (m.limitsFor key).maxActiveSessions) ∧
        (m.admitSession key sid ip now).2.totalSessions = m.totalSessions + 1 ∧
        ∃ s : KeySession, s.isTorrent = false ∧
          (m.admitSession key sid ip now).2.sessions =
          m.sessions.insert key ((inner m.sessions key).insert sid s))) := by
  unfold admitSession
  dsimp only
  split
  · exact ⟨⟨rfl, rfl, rfl⟩, .inl ⟨_, rfl, .inl rfl, rfl⟩⟩
  · split
    · exact ⟨⟨rfl, rfl, rfl⟩, .inl ⟨_, rfl, .inr ⟨key, rfl⟩, rfl⟩⟩
    · rename_i hcap
      split
      · exact ⟨⟨rfl, rfl, rfl⟩, .inl ⟨_, rfl, .inr ⟨key, rfl⟩, rfl⟩⟩
      · refine ⟨⟨rfl, rfl, rfl⟩, .inr ⟨rfl, fun hpos => ?_, rfl, _, rfl, AList.insert_insert _⟩⟩
        exact Int.not_le.mp fun hle => hcap ⟨hpos, hle⟩

theorem tryAdmit_cases (m : KeyLimits) (key : KeyID) (sid : SessionID) (ip : List Char) (now : Int) :
    m.SameLimits (m.tryAdmit key sid ip now).2 ∧
    ((∃ r, (m.tryAdmit key sid ip now).1 = some r ∧ m.Reinserted (m.tryAdmit key sid ip now).2 ∧
        (m.tryAdmit key sid ip now).2.totalSessions = m.totalSessions) ∨
      ((m.tryAdmit key sid ip now).1 = none ∧
        (0 < (m.limitsFor key).maxActiveSessions →
          (normalCount (inner m.sessions key) : Int) < (m.limitsFor key).maxActiveSessions) ∧
        (m.tryAdmit key sid ip now).2.totalSessions = m.totalSessions + 1 ∧
        ∃ s : KeySession, s.isTorrent = false ∧
          (m.tryAdmit key sid ip now).2.sessions = m.sessions.insert key ((inner m.sessions key).insert sid s))) := by
  unfold tryAdmit
  split
  · split
    · exact ⟨⟨rfl, rfl, rfl⟩, .inl ⟨_, rfl, .inl rfl, rfl⟩⟩
    · obtain ⟨hlimits, hcases⟩ :=
        admitSession_cases (m.setBurst key { m.burstWindow key now with count := _ }) key sid ip now
      exact ⟨⟨hlimits.defaultLimits, hlimits.keyLimits, hlimits.closers⟩, hcases⟩
  · exact admitSession_cases m key sid ip now

theorem tryAdmit_globalCap_iff : (∃ msg, (m.tryAdmit key sid ip now).1 = some (.globalCap, msg)) ↔
      m.rateLimited key now = false ∧ 0 < m.defaultLimits.globalCap ∧ m.defaultLimits.globalCap ≤ m.totalSessions := by
  have hsession : ∀ m : KeyLimits, (∃ msg, (m.admitSession key sid ip now).1 = some (.globalCap, msg)) ↔
      0 < m.defaultLimits.globalCap ∧ m.defaultLimits.globalCap ≤ m.totalSessions := by
    intro m
    unfold admitSession
    dsimp only
    split
    · rename_i hcap
      exact iff_of_true ⟨_, rfl⟩ hcap
    · rename_i hcap
      refine iff_of_false ?_ hcap
      rintro ⟨msg, hmsg⟩
      split at hmsg
      · cases hmsg
      · split at hmsg
        · cases hmsg
        · cases hmsg
  unfold tryAdmit
  split
  · split
    · rename_i hlimited
      refine iff_of_false ?_ fun h => ?_
      · rintro ⟨msg, hmsg⟩
        cases hmsg
      · rw [h.1] at hlimited
        cases hlimited
    · rename_i hlimited
      rw [hsession]
      exact ⟨fun h => ⟨Bool.eq_false_iff.mpr hlimited, h⟩, fun h => h.2⟩
  · rename_i hburst
    rw [hsession]
    refine ⟨fun h => ⟨?_, h⟩, fun h => h.2⟩
    rw [rateLimited, decide_eq_false hburst, Bool.false_and]

theorem modifySession_cases (m : KeyLimits) (key : KeyID) (sid : SessionID) (f : KeySession → KeySession) :
    m.modifySession key sid f = m ∨ ∃ s, (inner m.sessions key).lookup sid = some s ∧
      m.modifySession key sid f = { m with
        sessions := m.sessions.insert key ((inner m.sessions key).insert sid (f s)) } := by
  unfold modifySession
  split
  · exact .inl rfl
  · exact .inr ⟨_, ‹_›, rfl⟩

theorem total_modifySession (m : KeyLimits) (key : KeyID) (sid : SessionID) (f : KeySession → KeySession) :
    (m.modifySession key sid f).totalSessions = m.totalSessions := by
  rcases m.modifySession_cases key sid f with h | ⟨s, -, h⟩
  · rw [h]
  · rw [h]

theorem size_modifySession (m : KeyLimits) (key : KeyID) (sid : SessionID) (f : KeySession → KeySession) :
    size (m.modifySession key sid f).sessions = size m.sessions := by
  rcases m.modifySession_cases key sid f with h | ⟨s, hs, h⟩
  · rw [h]
  · have hsize := size_insert m.sessions key ((inner m.sessions key).insert sid (f s))
    have hcard := weight_insert (fun _ _ => 1) (inner m.sessions key) sid (f s)
    rw [hs, Option.elim_some, ← card_eq_weight, ← card_eq_weight] at hcard
    rw [h]
    dsimp only
    omega

theorem sameLimits_modifySession (m : KeyLimits) (key : KeyID) (sid : SessionID) (f : KeySession → KeySession) :
    m.SameLimits (m.modifySession key sid f) := by
  rcases m.modifySession_cases key sid f with h | ⟨s, -, h⟩
  · rw [h]
    exact ⟨rfl, rfl, rfl⟩
  · rw [h]
    exact ⟨rfl, rfl, rfl⟩

theorem lookup_modifySession_ne {key' : KeyID} {sid' : SessionID} (hne : key' = key → sid' ≠ sid)
    (f : KeySession → KeySession) :
    (inner (m.modifySession key sid f).sessions key').lookup sid' = (inner m.sessions key').lookup sid' := by
  rcases m.modifySession_cases key sid f with h | ⟨s, -, h⟩
  · rw [h]
  · rw [h]
    rcases eq_or_ne key' key with rfl | hkey
    · rw [inner_insert_self, AList.lookup_insert_ne (hne rfl)]
    · rw [inner_insert_ne hkey]

theorem normalCount_markTorrent_le (m : KeyLimits) (key : KeyID) (sid : SessionID) (key' : KeyID) :
    normalCount (inner (m.markTorrent key sid).sessions key') ≤ normalCount (inner m.sessions key') := by
  rw [markTorrent]
  rcases m.modifySession_cases key sid (fun s => { s with isTorrent := true }) with h | ⟨s, -, h⟩
  · rw [h]
  · rw [h]
    rcases eq_or_ne key' key with rfl | hkey
    · rw [inner_insert_self]
      exact count_insert_neg_le rfl _
    · rw [inner_insert_ne hkey]

theorem inner_takeOut_self {ν : Type} (t : Map KeyID (Map SessionID ν)) (key : KeyID) (sid : SessionID) :
    inner (takeOut t key sid) key = (inner t key).erase sid := by
  unfold takeOut
  dsimp only
  split
  · rename_i hempty
    rw [inner_erase_self]
    exact AList.ext (List.isEmpty_iff.mp hempty).symm
  · rw [inner_insert_self]

theorem inner_takeOut_ne {ν : Type} {key key' : KeyID} (h : key' ≠ key) (t : Map KeyID (Map SessionID ν))
    (sid : SessionID) :
    inner (takeOut t key sid) key' = inner t key' := by
  unfold takeOut
  dsimp only
  split
  · rw [inner_erase_ne h]
  · rw [inner_insert_ne h]

theorem size_takeOut {ν : Type} {t : Map KeyID (Map SessionID ν)} {key : KeyID} {sid : SessionID} {v : ν}
    (h : (inner t key).lookup sid = some v) : size (takeOut t key sid) + 1 = size t := by
  have hcard := card_erase h
  unfold takeOut
  dsimp only
  split
  · rename_i hempty
    have hsize := size_erase t key
    have hzero : card ((inner t key).erase sid) = 0 := by rw [card, List.isEmpty_iff.mp hempty, List.length_nil]
    omega
  · have hsize := size_insert t key ((inner t key).erase sid)
    omega

theorem deleteSession_cases (m : KeyLimits) (key : KeyID) (sid : SessionID) :
    ((inner m.sessions key).lookup sid = none ∧ m.deleteSession key sid = (false, m)) ∨
    ∃ s, (inner m.sessions key).lookup sid = some s ∧
      m.deleteSession key sid = (true, { m with sessions := takeOut m.sessions key sid }) := by
  unfold deleteSession
  split
  · exact .inl ⟨‹_›, rfl⟩
  · exact .inr ⟨_, ‹_›, rfl⟩

theorem sameLimits_deleteSession (m : KeyLimits) (key : KeyID) (sid : SessionID) :
    m.SameLimits (m.deleteSession key sid).2 := by
  rcases m.deleteSession_cases key sid with ⟨-, h⟩ | ⟨s, -, h⟩
  · rw [h]
    exact ⟨rfl, rfl, rfl⟩
  · rw [h]
    exact ⟨rfl, rfl, rfl⟩

theorem lookup_deleteSession_ne {key' : KeyID} {sid' : SessionID} (hne : key' = key → sid' ≠ sid) :
    (inner (m.deleteSession key sid).2.sessions key').lookup sid' = (inner m.sessions key').lookup sid' := by
  rcases m.deleteSession_cases key sid with ⟨-, h⟩ | ⟨s, -, h⟩
  · rw [h]
  · rw [h]
    rcases eq_or_ne key' key with rfl | hkey
    · rw [inner_takeOut_self, AList.lookup_erase_ne (hne rfl)]
    · rw [inner_takeOut_ne hkey]

theorem normalCount_deleteSession_le (m : KeyLimits) (key : KeyID) (sid : SessionID) (key' : KeyID) :
    normalCount (inner (m.deleteSession key sid).2.sessions key') ≤ normalCount (inner m.sessions key') := by
  rcases m.deleteSession_cases key sid with ⟨-, h⟩ | ⟨s, -, h⟩
  · rw [h]
  · rw [h]
    rcases eq_or_ne key' key with rfl | hkey
    · rw [inner_takeOut_self]
      exact count_erase_le _ _ _
    · rw [inner_takeOut_ne hkey]

theorem size_deleteSession (m : KeyLimits) (key : KeyID) (sid : SessionID) :
    size (m.deleteSession key sid).2.sessions + (if (m.deleteSession key sid).1 then 1 else 0) = size m.sessions ∧
      (m.deleteSession key sid).2.totalSessions = m.totalSessions := by
  rcases m.deleteSession_cases key sid with ⟨-, h⟩ | ⟨s, hs, h⟩
  · rw [h]
    exact ⟨rfl, rfl⟩
  · rw [h]
    exact ⟨size_takeOut hs, rfl⟩

theorem size_deleteSessions (m : KeyLimits) (es : List (KeyID × SessionID)) :
    size (m.deleteSessions es).2.sessions + (m.deleteSessions es).1 = size m.sessions ∧
      (m.deleteSessions es).2.totalSessions = m.totalSessions := by
  induction es generalizing m with
  | nil => exact ⟨rfl, rfl⟩
  | cons e es ih =>
    obtain ⟨hsize, htotal⟩ := m.size_deleteSession e.1 e.2
    obtain ⟨hsize', htotal'⟩ := ih (m.deleteSession e.1 e.2).2
    simp only [deleteSessions]
    refine ⟨?_, htotal'.trans htotal⟩
    split at hsize
    · rename_i hdeleted
      rw [if_pos hdeleted]
      omega
    · rename_i hdeleted
      rw [if_neg hdeleted]
      omega

theorem takeClosers_frame (m : KeyLimits) (es : List (KeyID × SessionID)) :
    (m.takeClosers es).2.sessions = m.sessions ∧ (m.takeClosers es).2.totalSessions = m.totalSessions ∧
      (m.takeClosers es).2.defaultLimits = m.defaultLimits ∧ (m.takeClosers es).2.keyLimits = m.keyLimits := by
  induction es generalizing m with
  | nil => exact ⟨rfl, rfl, rfl, rfl⟩
  | cons e es ih =>
    simp only [takeClosers]
    split
    · exact ih m
    · exact ih { m with closers := takeOut m.closers e.1 e.2 }

end
end KeyLimits

def TakingOut.owed : TakingOut → Nat
  | .subtract n _ _ => n
  | .evict _ _ | .close _ _ => 0

namespace KeyLimiter

theorem owed_afterDelete (deleted : Nat) (gone : List (KeyID × SessionID)) (call : Bool) :
    (afterDelete deleted gone call).owed = deleted := by
  unfold afterDelete
  split
  · rfl
  · rename_i h
    exact (Nat.eq_zero_of_not_pos h).symm

def Balanced (s : KeyLimiter) : Prop :=
  s.manager.totalSessions = (size s.manager.sessions : Int) + (weigh TakingOut.owed s.calls : Int)

/-- A session is admitted under an id that is not in use. -/
def Fresh (s : KeyLimiter) : Act → Prop
  | .tryAdmit key sid _ _ => (inner s.manager.sessions key).lookup sid = none
  | _ => True

instance (s : KeyLimiter) (act) : Decidable (s.Fresh act) := by
  unfold Fresh
  split <;> infer_instance

variable {s t : KeyLimiter}

theorem Balanced.tryAdmit {key : KeyID} {sid : SessionID} {ip : List Char} {now : Int} (h : s.Balanced)
    (hfresh : (inner s.manager.sessions key).lookup sid = none) :
    Balanced { s with manager := (s.manager.tryAdmit key sid ip now).2 } := by
  rw [Balanced] at h ⊢
  obtain ⟨-, ⟨_, -, hsame, htotal⟩ | ⟨-, -, htotal, sess, -, hsessions⟩⟩ := s.manager.tryAdmit_cases key sid ip now
  · simp only [htotal, hsame.size]
    exact h
  · have hsize := size_insert s.manager.sessions key ((inner s.manager.sessions key).insert sid sess)
    rw [card_insert hfresh] at hsize
    simp only [htotal, hsessions]
    omega

theorem Balanced.of_eq {m : KeyLimits} (h : s.Balanced) (hsize : size m.sessions = size s.manager.sessions)
    (htotal : m.totalSessions = s.manager.totalSessions) : Balanced { s with manager := m } := by
  rw [Balanced] at h ⊢
  simp only [hsize, htotal]
  exact h

theorem Balanced.release (h : s.Balanced) (key : KeyID) (sid : SessionID) : (s.release key sid).Balanced := by
  obtain ⟨hsize, htotal⟩ := s.manager.size_deleteSession key sid
  rw [Balanced] at h ⊢
  simp only [KeyLimiter.release, begin, weigh_begin, owed_afterDelete, htotal]
  omega

theorem Balanced.gcExpired (h : s.Balanced) (now : Int) : (s.gcExpired now).Balanced := by
  have hsize := size_sweep (s.manager.alive now) s.manager.sessions
  rw [Balanced] at h
  unfold KeyLimiter.gcExpired
  dsimp only [KeyLimits.expire]
  split
  · rename_i hempty
    rw [List.isEmpty_iff.mp hempty, List.length_nil] at hsize
    rw [Balanced]
    dsimp only
    omega
  · simp only [Balanced, begin, weigh_begin, TakingOut.owed]
    omega

theorem Balanced.next {i : Nat} {call : TakingOut} {order : List ((KeyID × SessionID) × Int)} (h : s.Balanced)
    (hcall : s.calls[i]? = some call) (hs : s.next i call order = some t) : t.Balanced := by
  rw [Balanced] at h ⊢
  cases call with
  | evict found n =>
    simp only [KeyLimiter.next] at hs
    split at hs <;> cases hs
    obtain ⟨hsize, htotal⟩ := s.manager.size_deleteSessions ((order.map (·.1)).take n)
    have howed := weigh_set TakingOut.owed hcall
      (afterDelete (s.manager.deleteSessions ((order.map (·.1)).take n)).1 ((order.map (·.1)).take n) true)
    rw [owed_afterDelete] at howed
    simp only [TakingOut.owed, htotal] at howed ⊢
    omega
  | subtract n gone call =>
    cases hs
    have howed := weigh_set TakingOut.owed hcall (.close gone call)
    simp only [TakingOut.owed] at howed ⊢
    omega
  | close gone call =>
    cases hs
    obtain ⟨hsessions, htotal, -, -⟩ := s.manager.takeClosers_frame gone
    have howed := weigh_eraseIdx TakingOut.owed hcall
    simp only [TakingOut.owed, hsessions, htotal] at howed ⊢
    omega

theorem Balanced.step {act : Act} (h : s.Balanced) (hp : s.Fresh act) (hs : s.step act = some t) : t.Balanced := by
  cases act with
  | tryAdmit key sid ip now => cases hs; exact h.tryAdmit hp
  | markTorrent key sid | touch key sid now =>
    cases hs; exact h.of_eq (KeyLimits.size_modifySession _ _ _ _) (KeyLimits.total_modifySession _ _ _ _)
  | registerCloser key sid fn | setLimits key l | clearLimits key | setDefault l => cases hs; exact h.of_eq rfl rfl
  | release key sid => cases hs; exact h.release key sid
  | evictOldest key n | evictOldestGlobal n =>
    cases hs
    rw [Balanced, begin, weigh_begin]
    exact h
  | gcExpired now => cases hs; exact h.gcExpired now
  | next i order =>
    obtain ⟨call, hcall, hs⟩ := Option.bind_eq_some_iff.mp hs
    exact h.next hcall hs

end KeyLimiter

open KeyLimiter

/-- When no call is in progress the count is the number of sessions of all keys, and the cap of the server
    refuses exactly when that many are held, as long as no identifier is admitted that its key has already. -/
theorem count_is_table_size (defaults : KeyLimit) (acts : List Act) (s : KeyLimiter)
    (hrun : Run KeyLimiter.step Fresh (.new defaults) acts s) (hquiet : s.calls = []) :
    s.manager.totalSessions = (size s.manager.sessions : Int) ∧
    ∀ key sid ip now, (∃ msg, (s.manager.tryAdmit key sid ip now).1 = some (.globalCap, msg)) ↔
      s.manager.rateLimited key now = false ∧ 0 < s.manager.defaultLimits.globalCap ∧
        s.manager.defaultLimits.globalCap ≤ (size s.manager.sessions : Int) := by
  have hbalanced : s.Balanced := hrun.invariant Balanced.step rfl
  rw [KeyLimiter.Balanced, hquiet, weigh_nil, Int.natCast_zero, Int.add_zero] at hbalanced
  refine ⟨hbalanced, fun key sid ip now => ?_⟩
  rw [KeyLimits.tryAdmit_globalCap_iff, hbalanced]

def evictionActs : List Act :=
  [.tryAdmit ['k'] ['a'] ['x'] 0, .tryAdmit ['k'] ['b'] ['x'] 1, .tryAdmit ['l'] ['a'] ['y'] 2, .evictOldest ['k'] 1,
    .release ['l'] ['a'], .next 0 [((['k'], ['a']), 0), ((['k'], ['b']), 1)], .next 1 [], .next 0 [],
    .next 1 [], .next 0 []]

theorem count_is_table_size_after_eviction : ∃ s,
    Run KeyLimiter.step Fresh (.new { globalCap := 3 }) evictionActs s ∧ s.calls = [] ∧
    s.manager.totalSessions = 1 ∧ s.manager.totalSessions = (size s.manager.sessions : Int) ∧
    ∀ key sid ip now, (∃ msg, (s.manager.tryAdmit key sid ip now).1 = some (.globalCap, msg)) ↔
      s.manager.rateLimited key now = false ∧ 0 < s.manager.defaultLimits.globalCap ∧
        s.manager.defaultLimits.globalCap ≤ (size s.manager.sessions : Int) :=
  Run.exists_of_exec (Q := fun s => s.calls = [] ∧ s.manager.totalSessions = 1) (by decide +kernel) fun s hrun hs =>
    ⟨hs.1, hs.2, count_is_table_size _ _ s hrun hs.1⟩

/-- Two connections of one session are counted twice, and the cap of two refuses the second session. -/
theorem second_flow_counts : ∃ s,
    AnyRun KeyLimiter.step (.new { globalCap := 2 }) [.tryAdmit ['k'] ['a'] ['x'] 0, .tryAdmit ['k'] ['a'] ['x'] 1] s ∧
    s.calls = [] ∧ s.manager.totalSessions = 2 ∧ size s.manager.sessions = 1 ∧
    (s.manager.tryAdmit ['l'] ['b'] ['y'] 2).1 =
    some (.globalCap, "Server connection limit reached (2). Try again later.") :=
  AnyRun.exists_of_exec (by decide +kernel)

end Whispera
