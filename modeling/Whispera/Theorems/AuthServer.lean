import Whispera.AuthServer
import Whispera.Theorems.SelectorIndex

/-! The steps of the server that authenticates, by what they require and what they do. -/

namespace Whispera
open Transition

namespace AuthServer

/-- How the handler `i` goes on. -/
inductive Moves (crypto : Crypto) (cfg : ServerConfig) (s : AuthServer) (i : Nat) : Act → HandlerPc → HandlerPc → Prop
  | stop (a : Act) (pc : HandlerPc) : Moves crypto cfg s i a pc .finished
  | selected {random keyShare : Bytes} {since : Nat} {byTag : TagMap} {entry : SelectorEntry} :
      (s.table.calls i).pc = .returned byTag → resolveBySelector crypto cfg byTag random keyShare s.clock = .ok entry →
      Moves crypto cfg s i (.select i) (.hello random keyShare since)
        (.passed { id := entry.userID, psk := entry.psk } since)
  | scanned (random keyShare : Bytes) (since : Nat) :
      Moves crypto cfg s i (.scan i) (.scan random keyShare since) (.passed { id := "", psk := [] } since)
  | preamble (sessionID token : Bytes) (known : KnownUser) (since : Nat) :
      Moves crypto cfg s i (.preamble i sessionID token) (.passed known since)
        (.known { perflow := true, sessionID, token, since } known)
  | datagram (sessionID token : Bytes) : Moves crypto cfg s i (.datagram i sessionID token) .idle
      (.known { perflow := false, sessionID, token, since := s.table.completed.length } (userHint s.cache sessionID).1)
  | known {req : AuthRequest} {known : KnownUser} : known.psk.length = 32 →
      verifyAuthToken crypto (authKey crypto known.psk) req.token req.sessionID s.clock = true →
      Moves crypto cfg s i (.tryKnown i) (.known req known) (.resolved req { secret := known.psk, userID := known.id })
  | unknown (req : AuthRequest) (known : KnownUser) : Moves crypto cfg s i (.tryKnown i) (.known req known)
      (.shared req)
  | shared {req : AuthRequest} {raw : Bytes} : Base64.decode req.token = some raw → cfg.sharedSecret.length = 32 →
      verifyAuthTokenRaw crypto (authKey crypto cfg.sharedSecret) raw req.sessionID s.clock = true →
      Moves crypto cfg s i (.tryShared i) (.shared req)
        (.resolved req { secret := cfg.sharedSecret, userID := "default" })
  | unshared {req : AuthRequest} {raw : Bytes} : Base64.decode req.token = some raw →
      Moves crypto cfg s i (.tryShared i) (.shared req) (.walk req raw)
  | walk (req : AuthRequest) (raw : Bytes) {users : List UserEntry} : users.Perm s.table.users →
      Moves crypto cfg s i (.walk i users) (.walk req raw) (.users req raw users)
  | user {req : AuthRequest} {raw : Bytes} {u : UserEntry} (rest : List UserEntry) :
      verifyAuthTokenRaw crypto (authKey crypto u.psk) raw req.sessionID s.clock = true →
      Moves crypto cfg s i (.tryUser i) (.users req raw (u :: rest))
        (.resolved req { secret := u.psk, userID := u.userID })
  | next (req : AuthRequest) (raw : Bytes) (u : UserEntry) (rest : List UserEntry) :
      Moves crypto cfg s i (.tryUser i) (.users req raw (u :: rest)) (.users req raw rest)
  | remember (req : AuthRequest) (grant : Grant) : Moves crypto cfg s i (.remember i) (.resolved req grant)
      (.ready req grant)
  | stamp (req : AuthRequest) (grant : Grant) :
      Moves crypto cfg s i (.stamp i) (.ready req grant) (.stamped req grant s.clock)

/-- What a step of the server does to its tables and handlers. -/
inductive Step (crypto : Crypto) (cfg : ServerConfig) (s : AuthServer) : Act → AuthServer → Prop
  | table {a : UserTable.Act} {t : UserTable} : s.ownCall a = false → s.table.step crypto cfg a = some t →
      Step crypto cfg s (.table a) { s with table := t }
  | hello {i : Nat} {t : UserTable} (random keyShare : Bytes) : s.handlers i = .idle →
      s.table.step crypto cfg (.begin i) = some t → Step crypto cfg s (.hello i random keyShare)
        ({ s with table := t }.setHandler i (.hello random keyShare s.table.completed.length))
  | unselected {i since : Nat} {random keyShare : Bytes} {t : UserTable} :
      s.handlers i = .hello random keyShare since → s.table.step crypto cfg (.begin i) = some t →
      Step crypto cfg s (.select i) ({ s with table := t }.setHandler i (.scan random keyShare since))
  | move {i : Nat} {a : Act} {pc pc' : HandlerPc} (cache : UserCache) : s.handlers i = pc →
      Moves crypto cfg s i a pc pc' → Step crypto cfg s a ({ s with cache }.setHandler i pc')
  | accept {i now : Nat} {req : AuthRequest} {grant : Grant} {seen : SeenShard} :
      s.handlers i = .stamped req grant now →
      Whispera.consume (s.seen (tokenShardIndex req.token)) req.token now = (true, seen) →
      Step crypto cfg s (.consume i) { s.setHandler i .finished with
        seen := Function.update s.seen (tokenShardIndex req.token) seen
        accepted := s.accepted ++ [(req, grant)] }
  | tick {seconds : Nat} : s.clock + seconds < 2 ^ 63 →
      Step crypto cfg s (.tick seconds) { s with clock := s.clock + seconds }
  | sweep : Step crypto cfg s .sweep { s with sweeping := some (s.clock, 0) }
  | sweepShard {now shard : Nat} : s.sweeping = some (now, shard) → Step crypto cfg s .sweepShard { s with
      seen := Function.update s.seen shard (deleteExpired now (s.seen shard))
      sweeping := if shard + 1 < tokenSeenShardCount then some (now, shard + 1) else none }

section
variable {crypto : Crypto} {cfg : ServerConfig} {s s' : AuthServer}

theorem beginSnapshot_inv {i : Nat} {pc : HandlerPc} (h : s.beginSnapshot crypto cfg i pc = some s') :
    ∃ t, s.table.step crypto cfg (.begin i) = some t ∧ s' = { s with table := t }.setHandler i pc := by
  rw [beginSnapshot, Option.map_eq_some_iff] at h
  obtain ⟨t, ht, rfl⟩ := h
  exact ⟨t, ht, rfl⟩

section
variable {i since : Nat} {random keyShare raw : Bytes} {req : AuthRequest}

theorem select_step {byTag : TagMap} (hpc : s.handlers i = .hello random keyShare since)
    (hret : (s.table.calls i).pc = .returned byTag) (h : s.select crypto cfg i random keyShare since byTag = some s') :
    Step crypto cfg s (.select i) s' := by
  simp only [select] at h
  split at h
  · rename_i entry hok
    cases h
    exact .move s.cache hpc (.selected hret hok)
  · obtain ⟨t, ht, rfl⟩ := beginSnapshot_inv h
    exact .unselected hpc ht

theorem scan_step (hpc : s.handlers i = .scan random keyShare since) :
    Step crypto cfg s (.scan i) (s.scan crypto i random keyShare since) := by
  simp only [scan]
  split
  · exact .move s.cache hpc (.scanned random keyShare since)
  · exact .move s.cache hpc (.stop _ _)

theorem tryKnown_step {known : KnownUser} (hpc : s.handlers i = .known req known) :
    Step crypto cfg s (.tryKnown i) (s.tryKnown crypto i req known) := by
  simp only [tryKnown]
  split
  · rename_i hok
    exact .move s.cache hpc (.known hok.1 hok.2)
  · exact .move s.cache hpc (.unknown req known)

theorem tryShared_step (hpc : s.handlers i = .shared req) :
    Step crypto cfg s (.tryShared i) (s.tryShared crypto cfg i req) := by
  simp only [tryShared]
  split
  · exact .move s.cache hpc (.stop _ _)
  · rename_i raw hraw
    split
    · exact .move s.cache hpc (.stop _ _)
    · split
      · rename_i hok
        exact .move s.cache hpc (.shared hraw hok.1 hok.2)
      · exact .move s.cache hpc (.unshared hraw)

theorem tryUser_step {rest : List UserEntry} (hpc : s.handlers i = .users req raw rest) :
    Step crypto cfg s (.tryUser i) (s.tryUser crypto i req raw rest) := by
  cases rest with
  | nil => exact .move s.cache hpc (.stop _ _)
  | cons u rest =>
    simp only [tryUser]
    split
    · rename_i hok
      exact .move s.cache hpc (.user rest hok.2)
    · exact .move s.cache hpc (.next req raw u rest)

theorem record_step {grant : Grant} {now : Nat} (hpc : s.handlers i = .stamped req grant now) :
    Step crypto cfg s (.consume i) (s.record i req grant now) := by
  simp only [record]
  split
  · exact .accept hpc ‹_›
  · exact .move s.cache hpc (.stop _ _)

end

theorem step_inv {a : Act} (h : s.step crypto cfg a = some s') : Step crypto cfg s a s' := by
  -- one goal for each way through `step` that leads to a state, in the order of its cases
  cases a <;> simp only [step] at h <;> split at h <;> try cases h
  · obtain ⟨t, ht, rfl⟩ := Option.map_eq_some_iff.mp h
    exact .table (Bool.eq_false_iff.mpr ‹_›) ht
  · obtain ⟨t, ht, rfl⟩ := beginSnapshot_inv h
    exact .hello _ _ ‹_› ht
  · exact select_step ‹_› ‹_› h
  · exact scan_step ‹_›
  · split at h <;> cases h
    · exact .move s.cache ‹_› (.preamble _ _ _ _)
    · exact .move s.cache ‹_› (.stop _ _)
  · split at h <;> cases h
    · exact .move s.cache ‹_› (.stop _ _)
    · exact .move _ ‹_› (.datagram _ _)
  · exact tryKnown_step ‹_›
  · exact tryShared_step ‹_›
  · split at h <;> cases h
    exact .move s.cache ‹_› (.walk _ _ (List.isPerm_iff.mp ‹_›))
  · exact tryUser_step ‹_›
  · exact .move _ ‹_› (.remember _ _)
  · exact .move s.cache ‹_› (.stamp _ _)
  · exact record_step ‹_›
  · exact .tick ‹_›
  · exact .sweep
  · exact .sweepShard ‹_›

theorem forall_setHandler {P : Nat → HandlerPc → Prop} {i : Nat} {pc : HandlerPc} (h : ∀ j, j ≠ i → P j (s.handlers j))
    (hpc : P i pc) (j : Nat) : P j ((s.setHandler i pc).handlers j) := by
  by_cases hj : j = i
  · subst hj
    simpa [setHandler] using hpc
  · simpa [setHandler, hj] using h j hj

end

end AuthServer

def aliceToken : Bytes := authToken sampleCrypto aliceAuthKey 56666667 aliceSession
def aliceNextToken : Bytes := authToken sampleCrypto aliceAuthKey 56666668 aliceSession

def registration (i : Nat) (sessionID token : Bytes) (u : UserEntry) : List AuthServer.Act :=
  [.datagram i sessionID token, .tryKnown i, .tryShared i, .walk i [u], .tryUser i]

def recording (i : Nat) : List AuthServer.Act := [.remember i, .stamp i, .consume i]

end Whispera
