import Whispera.ReplyTargets
import Whispera.Lib.Processes

/-! A second registration takes the target over, and the channel of the first one is never closed. -/

namespace Whispera
open List Option Transition Net Processes

variable {t : ReplyTarget}

theorem ReplyTarget.key_inj {u : ReplyTarget} (h : t.key = u.key) : t = u := by
  obtain ⟨hhost, hport⟩ := Addr.joinHostPort_inj Addr.colon_notMem_itoa Addr.colon_notMem_itoa h
  have hport' : t.port = u.port := UInt16.toNat_inj.mp (Int.ofNat_inj.mp (Text.itoa_inj hport))
  cases t
  cases u
  rw [ReplyTarget.mk.injEq]
  exact ⟨hhost, hport'⟩

def ReplyChan.state (ch : ReplyChan) : ReplyTarget × Bool × Nat := (ch.target, ch.once, ch.closes)

namespace ReplyTargets
variable {s s' : ReplyTargets} {a : Act}

/-- The channel `k` is that of `t`, and in use. -/
def Registered (s : ReplyTargets) (k : Nat) (t : ReplyTarget) : Prop :=
  ∃ ch, s.chans[k]? = some ch ∧ ch.target = t ∧ ch.once = false

/-- Entries are of registered targets, and no channel still in use is closed. -/
structure Tracked (s : ReplyTargets) : Prop where
  entry : ∀ key k, s.targets.lookup key = some k → ∃ t, t.key = key ∧ s.Registered k t
  opened : ∀ ch ∈ s.chans, ch.once = false → ch.closes = 0
  safe : s.sentOnClosed = false

/-- What is registered is found, and a channel that is done with was closed once. -/
structure Isolated (s : ReplyTargets) : Prop where
  known : ∀ k t, s.Registered k t → s.targets.lookup t.key = some k
  closed : ∀ ch ∈ s.chans, ch.once = true → ch.closes = 1

/-- An association registers a target only if no other one is registered for it. -/
def Alone (s : ReplyTargets) : Act → Prop
  | .openTarget r t =>
    (∃ rtTargets ∈ s.relays[r]?, (rtTargets.lookup t).isSome) ∨ ∀ ch ∈ s.chans, ch.target = t → ch.once = true
  | _ => True

instance (s : ReplyTargets) (a : Act) : Decidable (s.Alone a) := by
  cases a <;> unfold Alone <;> infer_instance

/-- Targets and channels are as before. -/
structure Keeps (s s' : ReplyTargets) : Prop where
  targets : s'.targets = s.targets
  chans : s'.chans.map ReplyChan.state = s.chans.map ReplyChan.state
  sent : s'.sentOnClosed = true → s.sentOnClosed = true ∨
    ∃ key k ch, s.targets.lookup key = some k ∧ s.chans[k]? = some ch ∧ 0 < ch.closes

/-- The target `t` has come in with a new channel. -/
structure Registers (s : ReplyTargets) (t : ReplyTarget) (s' : ReplyTargets) : Prop where
  targets : s'.targets = s.targets.insert t.key s.chans.length
  chans : s'.chans = s.chans ++ [{ target := t }]
  sent : s'.sentOnClosed = s.sentOnClosed

theorem Keeps.refl (s : ReplyTargets) : Keeps s s := ⟨rfl, rfl, .inl⟩

theorem deliver_keeps (s : ReplyTargets) (payload : Bytes) : Keeps s (s.deliver payload) := by
  unfold deliver
  split
  · exact .refl s
  · split
    · exact .refl s
    · rename_i k ch hfound
      obtain ⟨k', hk, hch⟩ := bind_eq_some_iff.mp hfound
      obtain ⟨ch', hch, heq⟩ := map_eq_some_iff.mp hch
      cases heq
      refine ⟨rfl, ?_, fun hsent => ?_⟩
      · simp only [offer]
        split
        · exact map_set hch rfl
        · rfl
      · rcases Bool.or_eq_true_iff.mp hsent with hsent | hclosed
        · exact .inl hsent
        · exact .inr ⟨_, k, ch, hk, hch, of_decide_eq_true hclosed⟩

theorem step_cases (h : s.step a = some s') : Keeps s s' ∨
    (∃ t, Registers s t s' ∧ (s.Alone a → ∀ ch ∈ s.chans, ch.target = t → ch.once = true)) ∨
    ∃ k ch relays, s.chans[k]? = some ch ∧ s' = { s.unregister k ch with relays } := by
  cases a with
  | relay =>
    cases h
    exact .inl ⟨rfl, rfl, .inl⟩
  | openTarget r t =>
    obtain ⟨rtTargets, hr, rfl⟩ := map_eq_some_iff.mp h
    split
    · exact .inl (.refl s)
    · rename_i hnew
      refine .inr (.inl ⟨t, ⟨rfl, rfl, rfl⟩, fun halone => halone.resolve_left ?_⟩)
      rintro ⟨_, hr', hsome⟩
      rw [hr] at hr'
      cases hr'
      exact hnew hsome
  | unregister r t forget =>
    obtain ⟨rtTargets, -, h⟩ := bind_eq_some_iff.mp h
    obtain ⟨k, -, h⟩ := bind_eq_some_iff.mp h
    obtain ⟨ch, hch, rfl⟩ := map_eq_some_iff.mp h
    exact .inr (.inr ⟨k, ch, _, hch, rfl⟩)
  | deliver payload =>
    cases h
    exact .inl (deliver_keeps s payload)
  | receive k =>
    obtain ⟨ch, hch, h⟩ := bind_eq_some_iff.mp h
    split at h <;> cases h
    exact .inl ⟨rfl, map_set hch rfl, .inl⟩

variable {k : Nat} {ch : ReplyChan}

theorem Registered.of_states (h : s'.chans.map ReplyChan.state = s.chans.map ReplyChan.state)
    (hreg : s.Registered k t) : s'.Registered k t := by
  obtain ⟨ch, hch, htarget, honce⟩ := hreg
  have hget := congrArg (·[k]?) h
  simp only [getElem?_map, hch, map_some] at hget
  obtain ⟨ch', hch', hstate⟩ := map_eq_some_iff.mp hget
  simp only [ReplyChan.state, Prod.mk.injEq] at hstate
  exact ⟨ch', hch', hstate.1.trans htarget, hstate.2.1.trans honce⟩

theorem mem_of_states (h : s'.chans.map ReplyChan.state = s.chans.map ReplyChan.state)
    (hch : ch ∈ s'.chans) : ∃ ch' ∈ s.chans, ch'.once = ch.once ∧ ch'.closes = ch.closes := by
  have hmem := List.mem_map_of_mem (f := ReplyChan.state) hch
  rw [h] at hmem
  obtain ⟨ch', hch', hstate⟩ := List.mem_map.mp hmem
  simp only [ReplyChan.state, Prod.mk.injEq] at hstate
  exact ⟨ch', hch', hstate.2⟩

theorem Registers.registered {u : ReplyTarget} (h : Registers s t s') :
    s'.Registered k u ↔ s.Registered k u ∨ k = s.chans.length ∧ u = t := by
  unfold Registered
  rw [h.chans]
  constructor
  · rintro ⟨ch, hch, htarget, honce⟩
    rcases get_begin_cases hch with hold | ⟨rfl, rfl⟩
    · exact .inl ⟨ch, hold, htarget, honce⟩
    · exact .inr ⟨rfl, htarget.symm⟩
  · rintro (⟨ch, hch, hreg⟩ | ⟨rfl, rfl⟩)
    · exact ⟨ch, get_append_left hch _, hreg⟩
    · exact ⟨{ target := u }, by simp, rfl, rfl⟩

theorem unregister_registered {j : Nat} (hch : s.chans[k]? = some ch) :
    (s.unregister k ch).Registered j t ↔ j ≠ k ∧ s.Registered j t := by
  have hset : ∀ closes, (∃ ch', (s.chans.set k { ch with once := true, closes })[j]? = some ch' ∧ ch'.target = t ∧
      ch'.once = false) ↔ j ≠ k ∧ s.Registered j t := by
    intro closes
    constructor
    · rintro ⟨ch', hj, hreg⟩
      rcases get_set_cases hch hj with ⟨-, rfl⟩ | ⟨hne, hj⟩
      · cases hreg.2
      · exact ⟨hne, ch', hj, hreg⟩
    · rintro ⟨hne, ch', hj, hreg⟩
      exact ⟨ch', by rwa [getElem?_set_ne hne.symm], hreg⟩
  unfold unregister
  split
  · rename_i honce
    refine ⟨fun hreg => ⟨?_, hreg⟩, And.right⟩
    rintro rfl
    obtain ⟨ch', hch', -, hopen⟩ := hreg
    rw [hch] at hch'
    cases hch'
    rw [honce] at hopen
    cases hopen
  · split
    · exact hset _
    · exact hset _

theorem Tracked.unregister_lookup {j : Nat} {key : List Char} (h : s.Tracked)
    (hch : s.chans[k]? = some ch) (hj : (s.unregister k ch).targets.lookup key = some j) :
    s.targets.lookup key = some j ∧ j ≠ k := by
  -- An entry for the channel itself is the one that `unregister` looks for.
  have hself : s.targets.lookup key = some k → ch.once = false ∧ ch.target.key = key := by
    intro hk
    obtain ⟨t, rfl, ch', hch', rfl, honce⟩ := h.entry key k hk
    rw [hch] at hch'
    cases hch'
    exact ⟨honce, rfl⟩
  unfold ReplyTargets.unregister at hj
  split at hj
  · rename_i honce
    refine ⟨hj, ?_⟩
    rintro rfl
    rw [(hself hj).1] at honce
    cases honce
  · split at hj
    · have hne : key ≠ ch.target.key := by
        rintro rfl
        rw [AList.lookup_erase] at hj
        cases hj
      rw [AList.lookup_erase_ne hne] at hj
      refine ⟨hj, ?_⟩
      rintro rfl
      exact hne (hself hj).2.symm
    · rename_i hother
      refine ⟨hj, ?_⟩
      rintro rfl
      exact hother ((hself hj).2 ▸ hj)

theorem mem_unregister {c : ReplyChan} (hc : c ∈ (s.unregister k ch).chans) :
    c ∈ s.chans ∨ c.once = true ∧ ch.once = false ∧
      (s.targets.lookup ch.target.key = some k → c.closes = ch.closes + 1) := by
  unfold ReplyTargets.unregister at hc
  split at hc
  · exact .inl hc
  · rename_i honce
    have honce' : ch.once = false := by simpa using honce
    split at hc
    · rcases mem_or_eq_of_mem_set hc with hc | rfl
      · exact .inl hc
      · exact .inr ⟨rfl, honce', fun _ => rfl⟩
    · rename_i hother
      rcases mem_or_eq_of_mem_set hc with hc | rfl
      · exact .inl hc
      · exact .inr ⟨rfl, honce', fun hk => absurd hk hother⟩

theorem unregister_sentOnClosed : (s.unregister k ch).sentOnClosed = s.sentOnClosed := by
  unfold ReplyTargets.unregister
  split
  · rfl
  · split <;> rfl

theorem Tracked.step (h : s.Tracked) (hs : s.step a = some s') : s'.Tracked := by
  rcases step_cases hs with hkeeps | ⟨t, hreg, -⟩ | ⟨k, ch, relays, hch, rfl⟩
  · refine ⟨?_, ?_, ?_⟩
    · intro key k hk
      rw [hkeeps.targets] at hk
      obtain ⟨t, ht, hreg⟩ := h.entry key k hk
      exact ⟨t, ht, hreg.of_states hkeeps.chans⟩
    · intro ch hch honce
      obtain ⟨ch', hch', honce', hcloses⟩ := mem_of_states hkeeps.chans hch
      rw [← hcloses]
      exact h.opened ch' hch' (honce'.trans honce)
    · -- What is offered goes to a channel that the client knows, so it is open.
      by_contra hsent
      rcases hkeeps.sent (by simpa using hsent) with hbefore | ⟨key, k, ch, hk, hch, hclosed⟩
      · rw [h.safe] at hbefore
        cases hbefore
      · obtain ⟨t, -, ch', hch', -, honce⟩ := h.entry key k hk
        rw [hch] at hch'
        cases hch'
        rw [h.opened ch (mem_of_getElem? hch) honce] at hclosed
        exact absurd hclosed (Nat.lt_irrefl 0)
  · refine ⟨?_, ?_, hreg.sent.trans h.safe⟩
    · intro key k hk
      rw [hreg.targets] at hk
      by_cases hkey : key = t.key
      · subst hkey
        rw [AList.lookup_insert] at hk
        exact ⟨t, rfl, hreg.registered.mpr (.inr ⟨(some.inj hk).symm, rfl⟩)⟩
      · rw [AList.lookup_insert_ne hkey] at hk
        obtain ⟨u, hu, hu'⟩ := h.entry key k hk
        exact ⟨u, hu, hreg.registered.mpr (.inl hu')⟩
    · intro ch hch honce
      rw [hreg.chans, mem_append, mem_singleton] at hch
      rcases hch with hch | rfl
      · exact h.opened ch hch honce
      · rfl
  · refine ⟨?_, ?_, unregister_sentOnClosed.trans h.safe⟩
    · intro key j hj
      obtain ⟨hj, hne⟩ := h.unregister_lookup hch hj
      obtain ⟨t, ht, hreg⟩ := h.entry key j hj
      exact ⟨t, ht, (unregister_registered hch).mpr ⟨hne, hreg⟩⟩
    · intro c hc honce
      rcases mem_unregister hc with hc | ⟨honce', -⟩
      · exact h.opened c hc honce
      · rw [honce] at honce'
        cases honce'

/-- Whatever the associations do, nothing is sent on a closed channel. -/
theorem nothing_sent_on_closed {acts : List Act} (h : AnyRun step {} acts s) : s.sentOnClosed = false :=
  (h.invariant (fun ht _ hs => Tracked.step ht hs) ⟨nofun, nofun, rfl⟩).safe

theorem Isolated.step (h : s.Isolated) (ht : s.Tracked) (ha : s.Alone a) (hs : s.step a = some s') : s'.Isolated := by
  rcases step_cases hs with hkeeps | ⟨t, hreg, halone⟩ | ⟨k, ch, relays, hch, rfl⟩
  · refine ⟨?_, ?_⟩
    · intro k t hreg
      rw [hkeeps.targets]
      exact h.known k t (hreg.of_states hkeeps.chans.symm)
    · intro ch hch honce
      obtain ⟨ch', hch', honce', hcloses⟩ := mem_of_states hkeeps.chans hch
      rw [← hcloses]
      exact h.closed ch' hch' (honce'.trans honce)
  · refine ⟨?_, ?_⟩
    · intro k u hu
      rw [hreg.targets]
      rcases hreg.registered.mp hu with hu | ⟨rfl, rfl⟩
      · have hne : u ≠ t := by
          rintro rfl
          obtain ⟨ch, hch, htarget, honce⟩ := hu
          rw [halone ha ch (mem_of_getElem? hch) htarget] at honce
          cases honce
        rw [AList.lookup_insert_ne fun hkey => hne (ReplyTarget.key_inj hkey)]
        exact h.known k u hu
      · exact AList.lookup_insert _
    · intro ch hch honce
      rw [hreg.chans, mem_append, mem_singleton] at hch
      rcases hch with hch | rfl
      · exact h.closed ch hch honce
      · cases honce
  · refine ⟨?_, ?_⟩
    · intro j t hj
      obtain ⟨hne, hj⟩ := (unregister_registered hch).mp hj
      have hknown := h.known j t hj
      unfold ReplyTargets.unregister
      split
      · exact hknown
      · split
        · rename_i hk
          have hkey : t.key ≠ ch.target.key := by
            intro hkey
            rw [hkey, hk] at hknown
            exact hne (some.inj hknown).symm
          rw [AList.lookup_erase_ne hkey]
          exact hknown
        · exact hknown
    · intro c hc honce
      rcases mem_unregister hc with hc | ⟨-, hopen, hcloses⟩
      · exact h.closed c hc honce
      · rw [hcloses (h.known k ch.target ⟨ch, hch, rfl, hopen⟩), ht.opened ch (mem_of_getElem? hch) hopen]

theorem isolated_run {acts : List Act} (h : Run step Alone {} acts s) : s.Tracked ∧ s.Isolated :=
  h.invariant (I := fun s => s.Tracked ∧ s.Isolated) (fun hi ha hs => ⟨hi.1.step hs, hi.2.step hi.1 ha hs⟩)
    ⟨⟨nofun, nofun, rfl⟩, ⟨fun _ _ ⟨_, hch, _⟩ => (nomatch hch), nofun⟩⟩

theorem Isolated.deliver (h : s.Isolated) (ht : s.Tracked) {payload data : Bytes} {host : List Char} {port : UInt16}
    (hdecode : decodeAddr payload = some (host, port, data)) :
    ∃ ks : List Nat, (s.deliver payload).offers = s.offers ++ ks.map (·, data) ∧
      ∀ k, k ∈ ks ↔ s.Registered k ⟨host, port⟩ := by
  simp only [ReplyTargets.deliver, hdecode]
  cases hk : s.targets.lookup (ReplyTarget.key ⟨host, port⟩) with
  | none =>
    refine ⟨[], (append_nil _).symm, fun k => ⟨nofun, fun hreg => ?_⟩⟩
    rw [h.known k _ hreg] at hk
    cases hk
  | some k =>
    obtain ⟨t, hkey, hreg⟩ := ht.entry _ k hk
    obtain rfl := ReplyTarget.key_inj hkey
    obtain ⟨ch, hch, -⟩ := id hreg
    refine ⟨[k], ?_, fun j => ?_⟩
    · simp only [bind_some, hch, map_some, offer, map_singleton]
    · rw [mem_singleton]
      constructor
      · rintro rfl
        exact hreg
      · intro hj
        exact some.inj ((h.known j _ hj).symm.trans hk)

/-- As long as no association registers a target that another one is registered for, a payload is offered to
    the channel of every association that is registered for its target, a channel is closed once, when its
    `unregister` has run, and nothing is sent on a closed channel. -/
theorem replies_reach_their_association {acts : List Act} (h : Run step Alone {} acts s) :
    (∀ payload host port data, decodeAddr payload = some (host, port, data) →
      ∃ ks : List Nat, (s.deliver payload).offers = s.offers ++ ks.map (·, data) ∧
        ∀ k, k ∈ ks ↔ s.Registered k ⟨host, port⟩) ∧
    (∀ ch ∈ s.chans, ch.closes = if ch.once then 1 else 0) ∧ s.sentOnClosed = false := by
  obtain ⟨ht, hi⟩ := isolated_run h
  refine ⟨fun payload host port data hdecode => hi.deliver ht hdecode, fun ch hch => ?_, ht.safe⟩
  cases honce : ch.once with
  | false => exact ht.opened ch hch honce
  | true => exact hi.closed ch hch honce

def dnsTarget : ReplyTarget := ⟨['8', '.', '8', '.', '8', '.', '8'], 53⟩
def dnsPayload : Bytes := [0x01, 8, 8, 8, 8, 0, 53, 104, 105]

def oneByOne : List Act :=
  [.relay, .relay, .openTarget 0 dnsTarget, .deliver dnsPayload, .unregister 0 dnsTarget true, .openTarget 1 dnsTarget]

theorem second_association_gets_reply : ∃ s, Run step Alone {} oneByOne s ∧
    s.chans.map ReplyChan.state = [(dnsTarget, true, 1), (dnsTarget, false, 0)] ∧ s.offers = [(0, [104, 105])] ∧
    (∃ ks : List Nat, (s.deliver dnsPayload).offers = s.offers ++ ks.map (·, [104, 105]) ∧
      ∀ k, k ∈ ks ↔ s.Registered k dnsTarget) ∧ ∀ ch ∈ s.chans, ch.closes = if ch.once then 1 else 0 := by
  refine Run.exists_of_exec (Q := fun s => s.chans.map ReplyChan.state = [(dnsTarget, true, 1), (dnsTarget, false, 0)] ∧
    s.offers = [(0, [104, 105])]) (by decide) ?_
  rintro s hrun ⟨hchans, hoffers⟩
  obtain ⟨hdeliver, hcloses, -⟩ := replies_reach_their_association hrun
  exact ⟨hchans, hoffers, hdeliver dnsPayload _ _ _ (by decide), hcloses⟩

/-- The first association is offered no reply any more, and its channel stays open when it has unregistered.
    -/
def overlapping : List Act :=
  [.relay, .relay, .openTarget 0 dnsTarget, .openTarget 1 dnsTarget, .deliver dnsPayload]

theorem first_association_gets_no_reply :
    (∃ s, AnyRun step {} overlapping s ∧ s.chans.map ReplyChan.state = [(dnsTarget, false, 0), (dnsTarget, false, 0)] ∧
      s.offers = [(1, [104, 105])]) ∧
    ∃ s, AnyRun step {} (overlapping ++ [.unregister 0 dnsTarget false, .unregister 1 dnsTarget false]) s ∧
      s.chans.map ReplyChan.state = [(dnsTarget, true, 0), (dnsTarget, true, 1)] :=
  ⟨AnyRun.exists_of_exec (by decide), AnyRun.exists_of_exec (by decide)⟩

theorem nothing_sent_on_closed_overlapping :
    ∃ s, AnyRun step {} (overlapping ++ [.unregister 1 dnsTarget false, .deliver dnsPayload]) s ∧
    s.offers = [(1, [104, 105])] ∧ s.sentOnClosed = false :=
  Run.exists_of_exec (Q := fun s => s.offers = [(1, [104, 105])]) (by decide) fun _ hrun hs =>
  ⟨hs, nothing_sent_on_closed hrun⟩

end ReplyTargets
end Whispera
