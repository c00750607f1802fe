import Whispera.Theorems.AuthServer

/-! A handler gets keys from the selector index, from the store, and from the cache of users by session. The
first two are as new as the updates that were complete when the request arrived; nothing brings the cache up
to date. -/

namespace Whispera
open List Transition

variable {entry : SelectorEntry}

section
variable {crypto : Crypto}

theorem lookup_addUsers_inv {tag : Block 8} : ∀ {users : List UserEntry} {built : TagMap},
    (users.foldl (addUser crypto) built).lookup tag = some entry →
      built.lookup tag = some entry ∨ ∃ u ∈ users, entry = selectorEntry crypto u.userID u.psk := by
  intro users
  induction users with
  | nil => exact fun h => .inl h
  | cons u users ih =>
    intro built h
    rw [foldl_cons] at h
    rcases ih h with h | ⟨v, hv, heq⟩
    · rw [lookup_addUser] at h
      split at h
      · exact .inr ⟨u, mem_cons_self, (Option.some.inj h).symm⟩
      · exact .inl h
    · exact .inr ⟨v, mem_cons_of_mem u hv, heq⟩

theorem lookup_buildIndex_inv {sharedSecret : Bytes} {users : List UserEntry} {tag : Block 8}
    (hshared : sharedSecret.length ≠ 32) (h : (buildIndex crypto sharedSecret users).lookup tag = some entry) :
    ∃ u ∈ users, u.psk = entry.psk := by
  rw [buildIndex, if_neg hshared] at h
  rcases lookup_addUsers_inv h with h | ⟨u, hu, rfl⟩
  · rw [AList.lookup_empty] at h
    cases h
  · exact ⟨u, hu, rfl⟩

theorem resolveBySelector_inv {cfg : ServerConfig} {byTag : TagMap} {random keyShare : Bytes} {now : Int}
    (h : resolveBySelector crypto cfg byTag random keyShare now = .ok entry) :
    ∃ tag, byTag.lookup tag = some entry := by
  unfold resolveBySelector at h
  repeat' split at h
  all_goals cases h
  exact ⟨_, ‹_›⟩

end

namespace HandlerPc

def since : HandlerPc → Nat
  | .idle | .finished => 0
  | .hello _ _ since | .scan _ _ since | .passed _ since => since
  | .known req _ | .shared req | .walk req _ | .users req _ _ | .resolved req _ | .ready req _
  | .stamped req _ _ => req.since

def keys : HandlerPc → List Bytes
  | .passed u _ | .known _ u => if u.psk.length = 32 then [u.psk] else []
  | .users _ _ rest => rest.map UserEntry.psk
  | .resolved _ grant | .ready _ grant | .stamped _ grant _ => [grant.secret]
  | _ => []

end HandlerPc

section
variable (t : UserTable) (v : Nat) (psk : Bytes)

def UserTable.Listed : Prop := ∃ m, v ≤ m ∧ m ≤ t.count ∧ ∃ u ∈ t.installed m, u.psk = psk

/-- If `key` is `psk` and `v` is one of the first `n` updates, a list since `v` has it. -/
structure UserTable.Backed (n : Nat) (key : Bytes) : Prop where
  arrived : n ≤ t.completed.length
  listed : v ∈ t.completed.take n → key = psk → t.Listed v psk

/-- A handler's keys have backing from the time when it began. -/
structure AuthServer.Honest (i : Nat) (pc : HandlerPc) : Prop where
  arrived : pc.since ≤ t.completed.length
  keys : ∀ key ∈ pc.keys, t.Backed v psk pc.since key
  hello : ∀ {random keyShare n}, pc = .hello random keyShare n → (t.calls i).since = n

end

section
variable {t t' : UserTable} {v : Nat} {psk : Bytes}

theorem UserTable.Listed.mono (h : t.Listed v psk) (hg : t.Grows t') : t'.Listed v psk := by
  obtain ⟨m, hv, hm, hu⟩ := h
  exact ⟨m, hv, le_trans hm hg.count, by rwa [hg.installed m hm]⟩

theorem UserTable.Backed.mono {n : Nat} {key : Bytes} (h : t.Backed v psk n key) (hg : t.Grows t') :
    t'.Backed v psk n key := by
  obtain ⟨more, hmore⟩ := hg.completed
  refine ⟨le_trans h.arrived hg.completed.length_le, fun hv hkey => ?_⟩
  rw [← hmore, take_append_of_le_length h.arrived] at hv
  exact (h.listed hv hkey).mono hg

end

namespace AuthServer

variable {i : Nat} {pc : HandlerPc}

section
variable {crypto : Crypto} {cfg : ServerConfig} {s s' : AuthServer} {t : UserTable} {v : Nat} {psk : Bytes}

theorem Honest.mono (h : Honest s.table v psk i pc) (hg : s.table.Grows t)
    (hsince : ∀ {random keyShare n}, pc = .hello random keyShare n → (t.calls i).since = (s.table.calls i).since) :
    Honest t v psk i pc :=
  ⟨le_trans h.arrived hg.completed.length_le, fun key hkey => (h.keys key hkey).mono hg,
    fun hpc => (hsince hpc).trans (h.hello hpc)⟩

theorem Honest.of_subset {pc' : HandlerPc} (h : Honest t v psk i pc) (hsince : pc'.since = pc.since)
    (hkeys : pc'.keys ⊆ pc.keys) (hpc : ∀ {random keyShare n}, pc' ≠ .hello random keyShare n) : Honest t v psk i pc' :=
  ⟨hsince ▸ h.arrived, fun key hkey => hsince ▸ h.keys key (hkeys hkey), fun heq => absurd heq hpc⟩

theorem honest_finished : Honest t v psk i .finished :=
  ⟨Nat.zero_le _, by simp [HandlerPc.keys], by simp⟩

/-- No registration after `v` is for a session remembered with the key; the version goes up with every update.
    -/
def Forgotten (v : Nat) (psk : Bytes) (s : AuthServer) : Act → Prop
  | .table a => s.table.Increases a
  | .datagram _ sessionID _ => v ∈ s.table.completed → (userHint s.cache sessionID).1.psk ≠ psk
  | _ => True

section
variable (hfresh : s.table.Fresh crypto cfg)
include hfresh

theorem backed_of_selected (hshared : cfg.sharedSecret.length ≠ 32)
    {byTag : TagMap} {random keyShare : Bytes} (hret : (s.table.calls i).pc = .returned byTag)
    (hok : resolveBySelector crypto cfg byTag random keyShare s.clock = .ok entry)
    (harrived : (s.table.calls i).since ≤ s.table.completed.length) :
    s.table.Backed v psk (s.table.calls i).since entry.psk := by
  refine ⟨harrived, fun hv hkey => ?_⟩
  have hcall : s.table.CallFresh crypto cfg (s.table.calls i) := hfresh.calls i
  simp only [UserTable.CallFresh, hret] at hcall
  obtain ⟨r, hr, -, m, users, hm, hperm, rfl, hall⟩ := hcall
  obtain ⟨tag, htag⟩ := resolveBySelector_inv hok
  obtain ⟨u, hu, hpsk⟩ := lookup_buildIndex_inv hshared htag
  exact ⟨m, hall v ((take_prefix_take_left hr).subset hv), hm, u, hperm.mem_iff.mp hu, hpsk.trans hkey⟩

theorem backed_of_users {u : UserEntry} (hu : u ∈ s.table.users) {n : Nat}
    (hn : n ≤ s.table.completed.length) : s.table.Backed v psk n u.psk :=
  ⟨hn, fun hv hkey => ⟨s.table.count, hfresh.updates v (mem_append_left _ (mem_of_mem_take hv)), le_rfl,
    u, hu, hkey⟩⟩

theorem Honest.moves {a : Act} {pc' : HandlerPc}
    (hshared : cfg.sharedSecret.length ≠ 32) (hforgot : s.Forgotten v psk a) (h : Honest s.table v psk i pc)
    (hm : Moves crypto cfg s i a pc pc') : Honest s.table v psk i pc' := by
  cases hm with
  | stop => exact honest_finished
  | selected hret hok =>
    refine ⟨h.arrived, fun key hkey => ?_, by simp⟩
    have hsince := h.hello rfl
    have hbacked : s.table.Backed v psk _ _ := backed_of_selected hfresh hshared hret hok (hsince ▸ h.arrived)
    simp only [HandlerPc.keys] at hkey
    split at hkey
    · cases mem_singleton.mp hkey
      exact hsince ▸ hbacked
    · cases hkey
  | scanned random keyShare since | user rest hok | next req raw u rest =>
    exact h.of_subset rfl (by simp [HandlerPc.keys]) (by simp)
  | preamble sessionID token known since | unshared hraw | remember req grant | stamp req grant =>
    exact h.of_subset rfl (List.Subset.refl _) (by simp)
  | datagram sessionID token =>
    refine ⟨le_rfl, fun key hkey => ⟨le_rfl, fun hv heq => ?_⟩, by simp⟩
    simp only [HandlerPc.keys] at hkey
    split at hkey
    · cases mem_singleton.mp hkey
      exact absurd heq (hforgot (mem_of_mem_take hv))
    · cases hkey
  | known hlen hok => exact h.of_subset rfl (by simp [HandlerPc.keys, hlen]) (by simp)
  | unknown req known => exact h.of_subset rfl (nil_subset _) (by simp)
  | shared hraw hlen hok => exact absurd hlen hshared
  | walk req raw hperm =>
    refine ⟨h.arrived, fun key hkey => ?_, by simp⟩
    obtain ⟨u, hu, rfl⟩ := mem_map.mp hkey
    exact backed_of_users hfresh (hperm.mem_iff.mp hu) h.arrived

end

end

section
variable (crypto : Crypto) (cfg : ServerConfig) (v : Nat) (psk : Bytes)

/-- All keys in use have backing. -/
structure Revoking (s : AuthServer) : Prop where
  table : s.table.Fresh crypto cfg
  handlers : ∀ i, Honest s.table v psk i (s.handlers i)
  accepted : ∀ p ∈ s.accepted, s.table.Backed v psk p.1.since p.2.secret

end

section
variable {crypto : Crypto} {cfg : ServerConfig} {s s' : AuthServer} {t : UserTable} {v : Nat} {psk : Bytes}

theorem Revoking.setHandler (h : s.Revoking crypto cfg v psk) (hfresh : t.Fresh crypto cfg) (hg : s.table.Grows t)
    (cache : UserCache) (hsince : ∀ j, j ≠ i → (t.calls j).since = (s.table.calls j).since)
    (hpc : Honest t v psk i pc) : Revoking crypto cfg v psk ({ s with table := t, cache }.setHandler i pc) := by
  refine ⟨hfresh, ?_, fun p hp => (h.accepted p hp).mono hg⟩
  exact forall_setHandler (fun j hj => (h.handlers j).mono hg fun _ => hsince j hj) hpc

theorem Revoking.begin (hcfg : cfg.versioned = true) (h : s.Revoking crypto cfg v psk)
    (ht : s.table.step crypto cfg (.begin i) = some t) (harrived : pc.since ≤ s.table.completed.length)
    (hkeys : pc.keys = [])
    (hhello : ∀ {random keyShare n}, pc = .hello random keyShare n → s.table.completed.length = n) :
    Revoking crypto cfg v psk ({ s with table := t }.setHandler i pc) := by
  have hinc : s.table.Increases (.begin i) := trivial
  have hstep := UserTable.step_inv ht
  have hsince : (t.calls i).since = s.table.completed.length := by
    cases hstep
    simp only [Function.update_self]
  refine h.setHandler (h.table.step hcfg hinc ht) hstep.grows s.cache
    (fun j hj => hstep.since_eq (by simpa using hj.symm)) ?_
  exact ⟨le_trans harrived hstep.grows.completed.length_le, by simp [hkeys], fun hpc => hsince.trans (hhello hpc)⟩

theorem Revoking.step (hcfg : cfg.versioned = true) (hshared : cfg.sharedSecret.length ≠ 32) {a : Act}
    (h : s.Revoking crypto cfg v psk) (hforgot : s.Forgotten v psk a) (hs : s.step crypto cfg a = some s') :
    s'.Revoking crypto cfg v psk := by
  cases step_inv hs with
  | table hown ht =>
    have hstep := UserTable.step_inv ht
    refine ⟨h.table.step hcfg hforgot ht, fun i => (h.handlers i).mono hstep.grows fun hpc => ?_,
      fun p hp => (h.accepted p hp).mono hstep.grows⟩
    -- The handler waits for its own call, and no one else begins that one.
    refine hstep.since_eq fun ha => ?_
    subst ha
    simp [ownCall, hpc] at hown
  | hello random keyShare hpc ht =>
    refine h.begin hcfg ht (le_rfl) rfl fun heq => ?_
    cases heq
    rfl
  | unselected hpc ht => exact h.begin hcfg ht (hpc ▸ h.handlers _).arrived rfl (by simp)
  | move cache hpc hm =>
    exact h.setHandler h.table ⟨prefix_rfl, le_rfl, fun _ _ => rfl⟩ cache (fun _ _ => rfl)
      (Honest.moves h.table hshared hforgot (hpc ▸ h.handlers _) hm)
  | accept hpc hcons =>
    rename_i i now req grant seen
    have hi : Honest s.table v psk i (.stamped req grant now) := hpc ▸ h.handlers i
    refine ⟨h.table, forall_setHandler (fun j _ => h.handlers j) honest_finished, fun p hp => ?_⟩
    rcases mem_append.mp hp with hp | hp
    · exact h.accepted p hp
    · cases mem_singleton.mp hp
      exact hi.keys _ (mem_singleton_self _)
  | tick hlt | sweep | sweepShard hsweep => exact ⟨h.table, h.handlers, h.accepted⟩

theorem revoking_start (users : List UserEntry) (clock : Fin (2 ^ 63)) :
    (start users clock).Revoking crypto cfg v psk :=
  ⟨UserTable.fresh_start users, fun _ => ⟨Nat.zero_le _, by simp [start, HandlerPc.keys], by simp [start]⟩,
   by simp [start]⟩

end

end AuthServer

/-- If the sets of users from the update `v` on do not have the key `psk`, no request that arrived after `v`
    was complete is authenticated by it, as long as no registration is for a session that is remembered with
    the key. -/
theorem revocation_takes_effect {crypto : Crypto} {cfg : ServerConfig} {users : List UserEntry} {clock : Fin (2 ^ 63)}
    {as : List AuthServer.Act} {s : AuthServer} {v : Nat} {psk : Bytes} (hcfg : cfg.versioned = true)
    (hshared : cfg.sharedSecret.length ≠ 32)
    (hrun : Run (AuthServer.step crypto cfg) (AuthServer.Forgotten v psk) (.start users clock) as s)
    (hrevoked : ∀ m, v ≤ m → m ≤ s.table.count → ∀ u ∈ s.table.installed m, u.psk ≠ psk) :
    ∀ p ∈ s.accepted, v ∈ s.table.completed.take p.1.since → p.2.secret ≠ psk := by
  intro p hp hv heq
  have hrevoking : s.Revoking crypto cfg v psk :=
    hrun.invariant (fun h hforgot hs => h.step hcfg hshared hforgot hs) (AuthServer.revoking_start users clock)
  obtain ⟨m, hvm, hm, u, hu, hpsk⟩ := (hrevoking.accepted p hp).listed hv heq
  exact hrevoked m hvm hm u hu hpsk

instance (v : Nat) (psk : Bytes) (s : AuthServer) (a) : Decidable (s.Forgotten v psk a) := by
  unfold AuthServer.Forgotten
  split <;> infer_instance

/-- The one user, alice, opens a session; then an update replaces alice by bob, and a window later ... -/
def replacedRun : List AuthServer.Act :=
  [.hello 0 ((helloRandom sampleCrypto aliceKey sampleEph sampleServerPub (List.replicate 32 0) 1699999980).getD [])
      sampleKeyShare, .table (.readVer 0), .table (.check 0 0), .table (.getUsers 0 [alice]),
      .table (.store 0 0), .select 0,
    .preamble 0 aliceSession aliceToken, .tryKnown 0] ++ recording 0 ++
    [.table (.replace [bob]), .table (.bump 1), .tick 30]

theorem revoked_of_replaced {t : UserTable} (hcount : t.count = 1) (hinstalled : t.installed 1 = [bob]) :
    ∀ m, 1 ≤ m → m ≤ t.count → ∀ u ∈ t.installed m, u.psk ≠ aliceKey := by
  intro m hlo hhi u hu
  obtain rfl : m = 1 := by omega
  rw [hinstalled, mem_singleton] at hu
  subst hu
  decide

/-- ... alice tries to register for another session, for which bob then registers. -/
def forgottenRun : List AuthServer.Act :=
  replacedRun ++ registration 1 bobSession (authToken sampleCrypto aliceAuthKey 56666668 bobSession) bob ++
  [.tryUser 1] ++
    registration 2 bobSession (authToken sampleCrypto bobAuthKey 56666668 bobSession) bob ++ recording 2

theorem revocation_takes_effect_on_alice : ∃ s,
    Run (AuthServer.step sampleCrypto sampleConfig) (AuthServer.Forgotten 1 aliceKey) (.start [alice] 1699999980)
      forgottenRun s ∧ s.accepted.map (fun p => (p.2.userID, p.1.since)) = [("alice", 0), ("bob", 1)] ∧
    s.table.completed = [1] ∧ ∀ p ∈ s.accepted, 1 ∈ s.table.completed.take p.1.since → p.2.secret ≠ aliceKey := by
  refine Run.exists_of_exec
    (Q := fun s => s.accepted.map (fun p => (p.2.userID, p.1.since)) = [("alice", 0), ("bob", 1)] ∧
    s.table.completed = [1] ∧ s.table.count = 1 ∧ s.table.installed 1 = [bob]) (by decide +kernel) ?_
  rintro s hrun ⟨haccepted, hcompleted, hcount, hinstalled⟩
  have hrevoked := revoked_of_replaced hcount hinstalled
  exact ⟨haccepted, hcompleted, revocation_takes_effect rfl (by decide) hrun hrevoked⟩

/-- ... alice registers for the session of before. -/
def rememberedRun : List AuthServer.Act :=
  replacedRun ++ [.datagram 1 aliceSession aliceNextToken, .tryKnown 1] ++ recording 1

theorem revoked_user_is_authenticated : ∃ s p,
    AnyRun (AuthServer.step sampleCrypto sampleConfig) (.start [alice] 1699999980) rememberedRun s ∧
    p ∈ s.accepted ∧ 1 ∈ s.table.completed.take p.1.since ∧ p.2 = { secret := aliceKey, userID := "alice" } ∧
    ∀ m, 1 ≤ m → m ≤ s.table.count → ∀ u ∈ s.table.installed m, u.psk ≠ aliceKey := by
  obtain ⟨s, hrun, p, hp, hsince, hentry, hcount, hinstalled⟩ := AnyRun.exists_of_exec
    (show ∃ s ∈ exec (AuthServer.step sampleCrypto sampleConfig) (.start [alice] 1699999980) rememberedRun,
     ∃ p ∈ s.accepted,
      1 ∈ s.table.completed.take p.1.since ∧ p.2 = { secret := aliceKey, userID := "alice" } ∧ s.table.count = 1 ∧
        s.table.installed 1 = [bob] by decide +kernel)
  exact ⟨s, p, hrun, hp, hsince, hentry, revoked_of_replaced hcount hinstalled⟩

end Whispera
