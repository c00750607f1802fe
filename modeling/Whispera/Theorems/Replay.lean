import Whispera.Theorems.AuthServer

/-! The server verifies a token by its MAC and knows a token that it has seen by its text, for as long as a
token can be valid after it was recorded. The two agree as long as a token is the text that a client makes of
its MAC and is recorded while it is still valid. -/

namespace Whispera
open List Transition

variable {key : Bytes} {req : AuthRequest} {seen : SeenShard}

section
variable {crypto : Crypto}

def opensAt (w : Int) : Int := authWindowSeconds * (w - authWindowTolerance)

/-- The token is for the window `w`. -/
structure MadeIn (crypto : Crypto) (req : AuthRequest) (w : Int) : Prop where
  range : -1 ≤ w ∧ w < 2 ^ 63
  mac : ∃ key, Base64.decode req.token = some (crypto.hmac key (windowBytes w ++ req.sessionID))

def SeparatesWindows (crypto : Crypto) : Prop := ∀ key key' w w' sessionID,
  crypto.hmac key (windowBytes w ++ sessionID) = crypto.hmac key' (windowBytes w' ++ sessionID) →
    windowBytes w = windowBytes w'

theorem MadeIn.unique (hmac : SeparatesWindows crypto) {p q : AuthRequest} {v w : Int} (hp : MadeIn crypto p v)
    (hq : MadeIn crypto q w) (hsession : p.sessionID = q.sessionID)
    (hraw : Base64.decode p.token = Base64.decode q.token) :
    v = w := by
  obtain ⟨key, hkey⟩ := hp.mac
  obtain ⟨key', hkey'⟩ := hq.mac
  rw [hraw, hkey', hsession] at hkey
  have hbytes : windowBytes v = windowBytes w := (hmac key' key w v q.sessionID (Option.some.inj hkey)).symm
  obtain ⟨hv, hv'⟩ := hp.range
  obtain ⟨hw, hw'⟩ := hq.range
  exact windowBytes_inj ⟨by omega, hv'⟩ ⟨by omega, hw'⟩ hbytes

variable {token : Bytes}

theorem verifyAuthToken_of_raw {sessionID raw : Bytes} {now : Int} (hraw : Base64.decode token = some raw)
    (h : verifyAuthTokenRaw crypto key raw sessionID now = true) : verifyAuthToken crypto key token sessionID
      now = true := by
  rw [verifyAuthToken, hraw]
  exact h

theorem verifyAuthToken_spec {now : Nat} (hnow : now < 2 ^ 63)
    (h : verifyAuthToken crypto key req.token req.sessionID now = true) :
    ∃ w, MadeIn crypto req w ∧ opensAt w ≤ now ∧ now < opensAt w + replayWindowSeconds := by
  unfold verifyAuthToken at h
  split at h
  · cases h
  · rename_i raw hraw
    rw [verifyAuthTokenRaw] at h
    split at h
    · cases h
    · obtain ⟨w, hw, hmac⟩ := any_eq_true.mp h
      obtain ⟨hlo, hhi⟩ := mem_windows.mp hw
      have hdiv : (now : Int).tdiv authWindowSeconds = ((now / 30 : Nat) : Int) := rfl
      have htol : (authWindowTolerance : Int) = 1 := rfl
      rw [hdiv, htol] at hlo hhi
      have hopens : opensAt w = 30 * (w - 1) := rfl
      have hreplay : replayWindowSeconds = 90 := rfl
      refine ⟨w, ⟨⟨by omega, by omega⟩, key, ?_⟩, by omega, by omega⟩
      rw [hraw, of_decide_eq_true hmac]

theorem lookup_deleteExpired {t : Int} (now : Int) (h : t ∈ seen.lookup token) :
    t ∈ (deleteExpired now seen).lookup token ∨ t + replayWindowSeconds ≤ now := by
  by_cases hexp : now - t ≥ replayWindowSeconds
  · exact .inr (by omega)
  · rw [AList.mem_lookup_iff] at h ⊢
    exact .inl (mem_filter.mpr ⟨h, decide_eq_true hexp⟩)

/-- A token is taken only if it is not known, or from long ago; then it is known, and what else was known
    still is, unless it is old. -/
theorem consume_spec {seen' : SeenShard} {now : Int} (h : consume seen token now = (true, seen')) :
    now ∈ seen'.lookup token ∧
      (∀ t ∈ seen.lookup token, t + replayWindowSeconds ≤ now) ∧
      ∀ other t, t ∈ seen.lookup other → t ∈ seen'.lookup other ∨ t + replayWindowSeconds ≤ now := by
  unfold consume at h
  split at h
  · cases h
  · rename_i hnew
    have hold : ∀ t ∈ seen.lookup token, t + replayWindowSeconds ≤ now := by
      intro t ht
      by_contra hlt
      exact hnew ⟨t, ht, by omega⟩
    have hkept : ∀ other t, t ∈ seen.lookup other →
        t ∈ (seen.insert token now).lookup other ∨ t + replayWindowSeconds ≤ now := by
      intro other t ht
      by_cases hother : other = token
      · subst hother
        exact .inr (hold t ht)
      · rw [AList.lookup_insert_ne hother]
        exact .inl ht
    have hself : now ∈ (seen.insert token now).lookup token := by
      rw [AList.lookup_insert]
      rfl
    simp only [Prod.mk.injEq, true_and] at h
    subst h
    split
    · refine ⟨?_, hold, fun other t ht => ?_⟩
      · rcases lookup_deleteExpired now hself with h | h
        · exact h
        · have : replayWindowSeconds = 90 := rfl
          omega
      · rcases hkept other t ht with h | h
        · exact lookup_deleteExpired now h
        · exact .inr h
    · exact ⟨hself, hold, hkept⟩

def Canonical (token : Bytes) : Prop := (Base64.decode token).map Base64.encode = some token

instance (token : Bytes) : Decidable (Canonical token) :=
  inferInstanceAs (Decidable ((Base64.decode token).map Base64.encode = some token))

theorem Canonical.eq {p q : Bytes} (hp : Canonical p) (hq : Canonical q) (h : Base64.decode p = Base64.decode q) :
    p = q := by
  rw [Canonical, h, hq] at hp
  exact (Option.some.inj hp).symm

end

namespace AuthServer

section
variable (crypto : Crypto)

def Opened (req : AuthRequest) (now : Nat) : Prop := ∃ w, MadeIn crypto req w ∧ opensAt w ≤ now

def Verified (clock : Nat) : HandlerPc → Prop
  | .walk req raw | .users req raw _ => Base64.decode req.token = some raw
  | .resolved req _ | .ready req _ => Opened crypto req clock
  | .stamped req _ now => now ≤ clock ∧ Opened crypto req now
  | _ => True

def Recorded (s : AuthServer) (req : AuthRequest) : Prop := Canonical req.token ∧ ∃ w, MadeIn crypto req w ∧
  ((∃ t ∈ (s.seen (tokenShardIndex req.token)).lookup req.token, opensAt w ≤ t) ∨
    opensAt w + replayWindowSeconds ≤ s.clock)

def Differ (p q : AuthRequest) : Prop := p.sessionID = q.sessionID → Base64.decode p.token ≠ Base64.decode q.token

/-- No two of the accepted requests are the same. -/
structure Once (s : AuthServer) : Prop where
  clock : s.clock < 2 ^ 63
  sweeping : ∀ now shard, s.sweeping = some (now, shard) → now ≤ s.clock
  handlers : ∀ i, Verified crypto s.clock (s.handlers i)
  recorded : ∀ p ∈ s.accepted, s.Recorded crypto p.1
  differ : s.accepted.Pairwise fun p q => Differ p.1 q.1

/-- The token about to be recorded is the text that a client makes, and is still valid. -/
def ValidAt (clock : Nat) : HandlerPc → Prop
  | .stamped req grant _ => Canonical req.token ∧
      verifyAuthToken crypto (authKey crypto grant.secret) req.token req.sessionID clock = true
  | _ => True

def Timely (s : AuthServer) : Act → Prop
  | .consume i => ValidAt crypto s.clock (s.handlers i)
  | _ => True

end

section
variable {crypto : Crypto} {cfg : ServerConfig} {s s' : AuthServer}

theorem Opened.mono {now now' : Nat} (h : Opened crypto req now) (hle : now ≤ now') : Opened crypto req now' := by
  obtain ⟨w, hw, hopen⟩ := h
  exact ⟨w, hw, by omega⟩

theorem opened_of_verify {now : Nat} (hnow : now < 2 ^ 63)
    (h : verifyAuthToken crypto key req.token req.sessionID now = true) : Opened crypto req now := by
  obtain ⟨w, hw, hopen, -⟩ := verifyAuthToken_spec hnow h
  exact ⟨w, hw, hopen⟩

variable {pc : HandlerPc}

theorem Verified.mono {clock clock' : Nat} (h : Verified crypto clock pc) (hle : clock ≤ clock') :
    Verified crypto clock' pc := by
  cases pc with
  | resolved req grant | ready req grant => exact Opened.mono h hle
  | stamped req grant now => exact ⟨le_trans h.1 hle, h.2⟩
  | walk req raw | users req raw rest => exact h
  | _ => trivial

theorem Verified.moves {i : Nat} {a : Act} {pc' : HandlerPc} (hclock : s.clock < 2 ^ 63)
    (h : Verified crypto s.clock pc) (hm : Moves crypto cfg s i a pc pc') : Verified crypto s.clock pc' := by
  cases hm with
  | known hlen hok => exact opened_of_verify hclock hok
  | shared hraw hlen hok => exact opened_of_verify hclock (verifyAuthToken_of_raw hraw hok)
  | unshared hraw => exact hraw
  | walk req raw hperm | next req raw u rest | remember req grant => exact h
  | user rest hok => exact opened_of_verify hclock (verifyAuthToken_of_raw h hok)
  | stamp req grant => exact ⟨le_rfl, h⟩
  | _ => trivial

theorem Recorded.mono (h : s.Recorded crypto req) (hclock : s.clock ≤ s'.clock)
    (hseen : ∀ t ∈ (s.seen (tokenShardIndex req.token)).lookup req.token,
      t ∈ (s'.seen (tokenShardIndex req.token)).lookup req.token ∨ t + replayWindowSeconds ≤ s'.clock) :
    s'.Recorded crypto req := by
  obtain ⟨hcanon, w, hw, ⟨t, ht, hopen⟩ | hpast⟩ := h
  · refine ⟨hcanon, w, hw, ?_⟩
    rcases hseen t ht with h | h
    · exact .inl ⟨t, h, hopen⟩
    · exact .inr (by omega)
  · exact ⟨hcanon, w, hw, .inr (by omega)⟩

theorem Once.setHandler (h : s.Once crypto) (table : UserTable) (cache : UserCache) {i : Nat}
    (hpc : Verified crypto s.clock pc) : Once crypto ({ s with table, cache }.setHandler i pc) := by
  refine ⟨h.clock, h.sweeping, ?_, h.recorded, h.differ⟩
  exact forall_setHandler (P := fun _ => Verified crypto s.clock) (fun j _ => h.handlers j) hpc

theorem Recorded.update (h : s.Recorded crypto req) {shard : Nat}
    (hseen : ∀ t ∈ (s.seen shard).lookup req.token, t ∈ seen.lookup req.token ∨ t + replayWindowSeconds ≤ s.clock)
    (hclock : s'.clock = s.clock) (heq : s'.seen = Function.update s.seen shard seen) : s'.Recorded crypto req := by
  refine h.mono (le_of_eq hclock.symm) fun t ht => ?_
  rw [heq, hclock]
  by_cases hshard : tokenShardIndex req.token = shard
  · rw [hshard] at ht ⊢
    rw [Function.update_self]
    exact hseen t ht
  · rw [Function.update_of_ne hshard]
    exact .inl ht

theorem Once.accept (hmac : SeparatesWindows crypto) (h : s.Once crypto) {i now : Nat} {grant : Grant}
    (hpc : s.handlers i = .stamped req grant now) (htimely : s.Timely crypto (.consume i))
    (hcons : Whispera.consume (s.seen (tokenShardIndex req.token)) req.token now = (true, seen)) :
    Once crypto { s.setHandler i .finished with
      seen := Function.update s.seen (tokenShardIndex req.token) seen
      accepted := s.accepted ++ [(req, grant)] } := by
  have hver : Verified crypto s.clock (.stamped req grant now) := hpc ▸ h.handlers i
  obtain ⟨hnow, w, hmade, hopen⟩ := hver
  rw [Timely, hpc] at htimely
  obtain ⟨hcanon, hvalid⟩ := htimely
  obtain ⟨w', hmade', -, hclose⟩ := verifyAuthToken_spec h.clock hvalid
  obtain rfl : w = w' := hmade.unique hmac hmade' rfl rfl
  obtain ⟨hself, hold, hkept⟩ := consume_spec hcons
  refine ⟨h.clock, h.sweeping, ?_, ?_, ?_⟩
  · exact forall_setHandler (P := fun _ => Verified crypto s.clock) (fun j _ => h.handlers j) trivial
  · intro p hp
    rcases mem_append.mp hp with hp | hp
    · refine (h.recorded p hp).update (fun t ht => ?_) rfl rfl
      rcases hkept p.1.token t ht with hin | hpast
      · exact .inl hin
      · exact .inr (by omega)
    · cases mem_singleton.mp hp
      refine ⟨hcanon, w, hmade, .inl ⟨now, ?_, hopen⟩⟩
      simp only [Function.update_self]
      exact hself
  · refine pairwise_append.mpr ⟨h.differ, pairwise_singleton _ _, fun p hp q hq hsession hraw => ?_⟩
    cases mem_singleton.mp hq
    obtain ⟨hpcanon, v, hpmade, hrec⟩ := h.recorded p hp
    obtain rfl : v = w := hpmade.unique hmac hmade hsession hraw
    rcases hrec with ⟨t, ht, hlate⟩ | hpast
    · rw [hpcanon.eq hcanon hraw] at ht
      have := hold t ht
      omega
    · omega

theorem Once.step (hmac : SeparatesWindows crypto) {a : Act} (h : s.Once crypto) (htimely : s.Timely crypto a)
    (hs : s.step crypto cfg a = some s') : s'.Once crypto := by
  cases step_inv hs with
  | table hown ht => exact ⟨h.clock, h.sweeping, h.handlers, h.recorded, h.differ⟩
  | hello random keyShare hpc ht | unselected hpc ht => exact h.setHandler _ s.cache trivial
  | move cache hpc hm => exact h.setHandler s.table cache (Verified.moves h.clock (hpc ▸ h.handlers _) hm)
  | accept hpc hcons => exact h.accept hmac hpc htimely hcons
  | tick hlt =>
    rename_i seconds
    have hle : s.clock ≤ s.clock + seconds := Nat.le_add_right _ _
    exact ⟨hlt, fun now shard hsweep => le_trans (h.sweeping now shard hsweep) hle,
      fun i => (h.handlers i).mono hle, fun p hp => (h.recorded p hp).mono hle fun t ht => .inl ht, h.differ⟩
  | sweep =>
    refine ⟨h.clock, fun now shard hsweep => ?_, h.handlers, h.recorded, h.differ⟩
    cases hsweep
    exact le_rfl
  | sweepShard hsweep =>
    rename_i now shard
    have hnow : now ≤ s.clock := h.sweeping now shard hsweep
    refine ⟨h.clock, fun now' shard' hsweep' => ?_, h.handlers, fun p hp => ?_, h.differ⟩
    · simp only at hsweep'
      split at hsweep'
      · cases hsweep'
        exact hnow
      · cases hsweep'
    · refine (h.recorded p hp).update (fun t ht => ?_) rfl rfl
      rcases lookup_deleteExpired (now : Int) ht with hin | hpast
      · exact .inl hin
      · exact .inr (by omega)

theorem once_start (users : List UserEntry) (clock : Fin (2 ^ 63)) : (start users clock).Once crypto :=
  ⟨clock.isLt, by simp [start], fun _ => trivial, by simp [start], List.Pairwise.nil⟩

end

end AuthServer

/-- If a token is recorded only while it is valid, and in the text that a client makes, no two presentations
    that were accepted for a session carry the same MAC. -/
theorem token_is_accepted_once {crypto : Crypto} {cfg : ServerConfig} {users : List UserEntry} {clock : Fin (2 ^ 63)}
    {as : List AuthServer.Act} {s : AuthServer} (hmac : SeparatesWindows crypto)
    (hrun : Run (AuthServer.step crypto cfg) (AuthServer.Timely crypto) (.start users clock) as s) :
    s.accepted.Pairwise fun p q => p.1.sessionID = q.1.sessionID → Base64.decode p.1.token ≠ Base64.decode q.1.token :=
  (hrun.invariant (fun h htimely hs => h.step hmac htimely hs) (AuthServer.once_start users clock)).differ

theorem separatesWindows_ofTables {hmac : List ((Bytes × Bytes) × Bytes)}
    (hkdf ecdh : List ((Bytes × Bytes) × Bytes)) (sha256 publicKey : List (Bytes × Bytes))
    (hvalues : ∀ e ∈ hmac, ∀ e' ∈ hmac, (Block.copy 32 e.2).val = (Block.copy 32 e'.2).val →
     e.1.2.take 8 = e'.1.2.take 8)
    (hothers : ∀ e ∈ hmac, (Block.copy 32 e.2).val.drop 8 ≠ replicate 24 0) :
    SeparatesWindows (.ofTables hmac hkdf ecdh sha256 publicKey) := by
  intro key key' w w' sessionID heq
  have hlen : ∀ x, (windowBytes x).length = 8 := fun x => BigEndian.length_putUint64 _
  have htake : ∀ x, (windowBytes x ++ sessionID).take 8 = windowBytes x := fun x => take_left' (hlen x)
  have hplain : ∀ x, (Block.copy 32 (windowBytes x)).val = windowBytes x ++ replicate 24 0 := fun x => by
    have h32 : (windowBytes x).length ≤ 32 := by rw [hlen x]; decide
    simp [Block.copy, take_append, hlen x, take_of_length_le h32]
  have hvalue : ∀ k x, (∃ e ∈ hmac, e.1.2 = windowBytes x ++ sessionID ∧
        (Crypto.ofTables hmac hkdf ecdh sha256 publicKey).hmac k (windowBytes x ++ sessionID) =
        (Block.copy 32 e.2).val) ∨
      (Crypto.ofTables hmac hkdf ecdh sha256 publicKey).hmac k (windowBytes x ++ sessionID) =
        windowBytes x ++ replicate 24 0 := by
    intro k x
    simp only [Crypto.ofTables]
    cases hlook : hmac.lookup (k, windowBytes x ++ sessionID) with
    | none => exact .inr (by rw [Option.getD_none, htake, hplain])
    | some v =>
      refine .inl ⟨((k, windowBytes x ++ sessionID), v), ?_, rfl, rfl⟩
      obtain ⟨before, after, rfl, -⟩ := lookup_eq_some_iff.mp hlook
      simp
  rcases hvalue key w with ⟨e, he, hmsg, hv⟩ | hv
  · rcases hvalue key' w' with ⟨e', he', hmsg', hv'⟩ | hv'
    · have := hvalues e he e' he' (by rw [← hv, ← hv', heq])
      rwa [hmsg, hmsg', htake, htake] at this
    · refine absurd ?_ (hothers e he)
      rw [← hv, heq, hv', drop_left' (hlen w')]
  · rcases hvalue key' w' with ⟨e', he', hmsg', hv'⟩ | hv'
    · refine absurd ?_ (hothers e' he')
      rw [← hv', ← heq, hv, drop_left' (hlen w)]
    · rw [hv, hv'] at heq
      exact (append_inj heq ((hlen w).trans (hlen w').symm)).1

theorem separatesWindows_sample : SeparatesWindows sampleCrypto :=
  separatesWindows_ofTables _ _ _ _ (by decide +kernel) (by decide +kernel)

instance (crypto : Crypto) (clock : Nat) (pc) : Decidable (AuthServer.ValidAt crypto clock pc) := by
  unfold AuthServer.ValidAt
  split <;> infer_instance

instance (crypto : Crypto) (s : AuthServer) (a) : Decidable (s.Timely crypto a) := by
  unfold AuthServer.Timely
  split <;> infer_instance

def presentedRun : List AuthServer.Act :=
  registration 0 aliceSession aliceToken alice ++ recording 0 ++
  registration 1 aliceSession aliceToken alice ++ recording 1 ++
    [.tick 89, .sweep] ++ replicate 16 .sweepShard ++ registration 2 aliceSession aliceNextToken alice ++ recording 2

theorem token_is_accepted_once_twice_presented : ∃ s,
    Run (AuthServer.step sampleCrypto sampleConfig) (AuthServer.Timely sampleCrypto) (.start [alice] 1699999980)
      presentedRun s ∧ s.accepted.map (fun p => p.1.token) = [aliceToken, aliceNextToken] ∧
    s.accepted.Pairwise fun p q => p.1.sessionID = q.1.sessionID →
    Base64.decode p.1.token ≠ Base64.decode q.1.token := by
  refine Run.exists_of_exec ?_ fun s hrun hs => ⟨hs, token_is_accepted_once separatesWindows_sample hrun⟩
  decide +kernel

/-- The second presentation ends in a letter that differs in bits which do not count. -/
def respelledRun : List AuthServer.Act :=
  registration 0 aliceSession aliceToken alice ++ recording 0 ++
    registration 1 aliceSession (aliceToken.dropLast ++ ascii "l") alice ++ recording 1

/-- The second presentation is verified in the last second of the token, and recorded in the next one. -/
def delayedRun : List AuthServer.Act :=
  registration 0 aliceSession aliceToken alice ++ recording 0 ++ [.tick 89] ++
    registration 1 aliceSession aliceToken alice ++ [.tick 1] ++ recording 1

theorem token_is_accepted_twice : SeparatesWindows sampleCrypto ∧ ∀ as ∈ [respelledRun, delayedRun], ∃ s p q raw,
    AnyRun (AuthServer.step sampleCrypto sampleConfig) (.start [alice] 1699999980) as s ∧ s.accepted = [p, q] ∧
    p.1.sessionID = q.1.sessionID ∧ raw.length = 32 ∧ Base64.decode p.1.token = some raw ∧
    Base64.decode q.1.token = some raw := by
  refine ⟨separatesWindows_sample, fun as has => ?_⟩
  obtain ⟨s, hrun, hs⟩ := AnyRun.exists_of_exec
    (show ∃ s ∈ exec (AuthServer.step sampleCrypto sampleConfig) (.start [alice] 1699999980) as,
      (s.accepted.map fun p => (p.1.sessionID, Base64.decode p.1.token)) =
        replicate 2 (aliceSession, Base64.decode aliceToken) by
      revert as
      decide +kernel)
  obtain ⟨raw, hraw, hlen⟩ : ∃ raw, Base64.decode aliceToken = some raw ∧ raw.length = 32 :=
    ⟨_, Base64.decode_encode _, sampleCrypto.length_hmac _ _⟩
  obtain ⟨p, rest, hacc, hp, hrest⟩ := map_eq_cons_iff.mp hs
  obtain ⟨q, rest', rfl, hq, hnil⟩ := map_eq_cons_iff.mp hrest
  rw [map_eq_nil_iff.mp hnil] at hacc
  simp only [Prod.mk.injEq] at hp hq
  exact ⟨s, p, q, raw, hrun, hacc, hp.1.trans hq.1.symm, hlen, hp.2.trans hraw, hq.2.trans hraw⟩

end Whispera
