import Whispera.Theorems.DnsResolver

/-! A query runs under the context of the call that has begun it, and all who wait for it get its error. And a
query that was sent before `SetUpstream` is stored after the cache was cleared, and joined by those who come
later. -/

namespace Whispera
open List Processes Transition

def ResolvePc.outcome : ResolvePc → Option (ResolveResult × Option Nat)
  | returned r _ change => some (r, change)
  | _ => none

def ResolvePc.waits : ResolvePc → Option Nat
  | wait q => some q
  | _ => none

namespace DnsResolver
variable {s t : DnsResolver} {a : Act} {i : Nat} {call : ResolveCall}

theorem bind_modify {β : Type} (f : PendingQuery → PendingQuery) {g : PendingQuery → Option β} (hg : ∀ p, g (f p) = g p)
    (queries : List PendingQuery) (q k : Nat) : ((queries.modify q f)[k]?).bind g = (queries[k]?).bind g := by
  rw [getElem?_modify]
  cases queries[k]? <;> grind

theorem bind_append {β : Type} {g : PendingQuery → Option β} {p : PendingQuery} (hg : g p = none)
    (queries : List PendingQuery)
    (k : Nat) : ((queries ++ [p])[k]?).bind g = (queries[k]?).bind g := by
  grind

def joins (s : DnsResolver) (call : ResolveCall) : Option Nat :=
  match call.pc with
  | .share => s.inflight.lookup call.name
  | _ => none

/-- Nobody waits for a query when it ends with the error of its caller's context, and nobody joins it then. -/
def Unshared (s : DnsResolver) : Act → Prop
  | .answer i result =>
    contextOf result ≠ none → ∀ call ∈ s.calls[i]?, ∀ c ∈ s.calls, c.pc.waits = none ∨ c.pc.waits ≠ call.pc.leads
  | .go i => ∀ call ∈ s.calls[i]?, ∀ q ∈ s.joins call, contextOf (s.result q) = none
  | _ => True

instance (s : DnsResolver) (a) : Decidable (s.Unshared a) := by
  unfold Unshared
  split <;> infer_instance

def Separate (result : Nat → ResolveResult) (i : Nat) (c : ResolveCall) : Prop :=
  match c.pc with
  | .wait q => contextOf (result q) = none
  | .store q | .remove q | .wake q => ∀ j ∈ contextOf (result q), j = i ∧ c.cancelled = true
  | .returned r _ _ => ∀ j ∈ contextOf r, j = i ∧ c.cancelled = true
  | _ => True

def Separated (s : DnsResolver) : Prop := ∀ (i : Nat) (c : ResolveCall), s.calls[i]? = some c → Separate s.result i c

theorem Separated.set {call' : ResolveCall} (h : s.Separated) (hi : s.calls[i]? = some call)
    (hcalls : t.calls = s.calls.set i call') (hresult : ∀ q, t.result q = s.result q)
    (hself : Separate s.result i call → Separate s.result i call') : t.Separated := by
  intro j c hj
  rw [funext hresult]
  rw [hcalls] at hj
  rcases get_set_cases hi hj with ⟨rfl, rfl⟩ | ⟨-, hj⟩
  · exact hself (h j call hi)
  · exact h j c hj

theorem Separated.answer {result : ResolveResult} {q : Nat} {upstream : List Char} (h : s.Separated)
    (hflight : Flight s.inflight s.queries s.calls) (hp : s.Unshared (.answer i result)) (hi : s.calls[i]? = some call)
    (hpc : call.pc = .asked q upstream) (hown : ∀ j ∈ contextOf result, j = i ∧ call.cancelled = true) :
    Separated { s.setPc i call (.store q) with
      queries := s.queries.modify q fun p => { p with result := some result } } := by
  have hasked := hflight.sound i call hi
  rw [ResolveCall.Sound, hpc] at hasked
  have hresult : ∀ k, DnsResolver.result { s.setPc i call (.store q) with
      queries := s.queries.modify q fun p => { p with result := some result } } k = if k = q then result
      else s.result k := by
    intro k
    split <;> grind [DnsResolver.result]
  intro j c hj
  rw [funext hresult]
  rcases get_set_cases hi hj with ⟨rfl, rfl⟩ | ⟨hne, hj⟩
  · simp only [Separate, if_true]
    exact hown
  · have hother := h j c hj
    have hsound := hflight.sound j c hj
    have hwait := fun hcontext => hp hcontext call hi c (mem_of_getElem? hj)
    unfold Separate at hother ⊢
    rw [ResolveCall.Sound] at hsound
    cases hcpc : c.pc with
    | wait k => grind [ResolvePc.waits, ResolvePc.leads]
    | store k | remove k | wake k => grind
    | returned r k change => simpa only [hcpc] using hother
    | look | share | ask k | asked k u => trivial

theorem Separated.step (h : s.Separated) (hflight : Flight s.inflight s.queries s.calls) (hp : s.Unshared a)
    (hs : s.step a = some t) : t.Separated := by
  have hresult := fun (f : PendingQuery → PendingQuery) (hf : ∀ p, (f p).result = p.result) q k =>
    congrArg (Option.getD · (.ok [])) (bind_modify f hf s.queries q k)
  cases step_inv hs with
  | resolve name =>
    intro j c hj
    rcases get_begin_cases hj with hj | ⟨-, rfl⟩
    · exact h j c hj
    · trivial
  | go hi hm =>
    have hself := h _ _ hi
    unfold Separate at hself
    cases hm with
    | miss hpc => exact h.set hi rfl (fun _ => rfl) fun _ => trivial
    | hit hpc hcache => exact h.set hi rfl (fun _ => rfl) fun _ _ hj => nomatch hj
    | join hpc hq => exact h.set hi rfl (fun _ => rfl) fun _ => hp _ hi _ (by rw [joins, hpc]; exact hq)
    | begin hpc hnone =>
      exact h.set hi rfl (fun q => congrArg (Option.getD · _) (bind_append rfl _ q)) fun _ => trivial
    | ask hpc =>
      exact h.set hi rfl (hresult (fun p => { p with change := some s.changes }) (fun _ => rfl) _) fun _ => trivial
    | woken hpc hdone =>
      simp only [hpc] at hself
      exact h.set hi rfl (fun _ => rfl) fun _ j hj => nomatch hself.symm.trans hj
    | store hpc | remove hpc =>
      simp only [hpc] at hself
      exact h.set hi rfl (fun _ => rfl) fun _ => hself
    | wake hpc =>
      simp only [hpc] at hself
      exact h.set hi rfl (hresult (fun p => { p with done := true }) (fun _ => rfl) _) fun _ => hself
  | answer hi hpc hown => exact h.answer hflight hp hi hpc hown
  | cancel hi =>
    rename_i call
    refine h.set hi rfl (fun _ => rfl) fun hself => ?_
    unfold Separate at hself ⊢
    cases hpc : call.pc <;> grind
  | giveUp hi hpc hc => exact h.set hi rfl (fun _ => rfl) fun _ k hk => ⟨(Option.some.inj hk).symm, hc⟩
  | evict name | setUpstream upstream | clear _ => exact h

/-- If nobody waits for a query that ends with the error of its caller's context, and nobody joins it then, a
    call returns the error of a context only if that is its own and is done. -/
theorem contexts_are_separate {acts : List Act} {cacheEnabled : Bool} {upstream : List Char} {i j : Nat}
    {c : ResolveCall}
    {change : Option Nat} (h : Run step Unshared { cacheEnabled, upstream } acts s) (hi : s.calls[i]? = some c)
    (hc : c.pc.outcome = some (.error (.context j), change)) : j = i ∧ c.cancelled = true := by
  have hinv : Flight s.inflight s.queries s.calls ∧ s.Separated := by
    refine h.invariant (I := fun s => Flight s.inflight s.queries s.calls ∧ s.Separated)
      (fun h hp hs => ⟨h.1.step hs, h.2.step h.1 hp hs⟩) ⟨Flight.new, fun j c hj => ?_⟩
    exact (not_mem_nil (mem_of_getElem? hj)).elim
  have hself := hinv.2 i c hi
  unfold Separate at hself
  cases hpc : c.pc with
  | returned r q change =>
    rw [hpc] at hc
    cases hc
    simp only [hpc] at hself
    exact hself j rfl
  | _ =>
    rw [hpc] at hc
    cases hc

instance : DecidableEq (ResolveResult × Option Nat) := inferInstance

/-- The second call waits for the query of the first one. -/
def waitingActs : List Act := [.resolve ['a'], .resolve ['a'], .go 0, .go 1, .go 0, .go 1, .go 0]

theorem contexts_are_separate_waiting : ∃ s c, Run step Unshared { cacheEnabled := true, upstream := [] }
    (waitingActs ++ [.cancel 1, .giveUp 1]) s ∧ s.calls[1]? = some c ∧
      c.pc.outcome = some (.error (.context 1), none) ∧ c.cancelled = true := by
  obtain ⟨s, hrun, c, hi, hc⟩ := Run.exists_of_exec
    (R := fun s => ∃ c ∈ s.calls[1]?, c.pc.outcome = some (.error (.context 1), none))
    (show ∃ s ∈ exec (checked step Unshared) { cacheEnabled := true, upstream := [] }
     (waitingActs ++ [.cancel 1, .giveUp 1]), _ by
      decide +kernel) fun _ _ hs => hs
  exact ⟨s, c, hrun, hi, hc, (contexts_are_separate hrun hi hc).2⟩

/-- The context of the first call ends, and the second one gets its error. -/
theorem context_of_another : ∃ s, AnyRun step { cacheEnabled := true, upstream := [] }
    (waitingActs ++ [.cancel 0, .answer 0 (.error (.context 0)), .go 0, .go 0, .go 0, .go 1]) s ∧
      ∃ c ∈ s.calls[1]?, c.pc.outcome = some (.error (.context 0), some 0) ∧ c.cancelled = false :=
  AnyRun.exists_of_exec (by decide +kernel)

def takes (s : DnsResolver) (call : ResolveCall) : Option Nat :=
  match call.pc with
  | .share => s.inflight.lookup call.name
  | .store q => some q
  | _ => none

/-- Unless a call of `SetUpstream` has yet to clear the cache, no query is stored or joined that was sent
    before the last one. -/
def Prompt (s : DnsResolver) : Act → Prop
  | .go i => s.clearing = 0 → ∀ call ∈ s.calls[i]?, ∀ q ∈ s.takes call, ∀ n ∈ s.change q, n = s.changes
  | _ => True

instance (s : DnsResolver) (a) : Decidable (s.Prompt a) := by
  unfold Prompt
  split <;> infer_instance

/-- The number of calls of `SetUpstream` before what a call has got, or is to get, was sent. -/
def origin (s : DnsResolver) (c : ResolveCall) : Option Nat :=
  match c.pc with
  | .wait q | .asked q _ | .store q | .remove q | .wake q => s.change q
  | .returned _ _ change => change
  | .look | .share | .ask _ => none

/-- Calls and cache since the last change have its upstream's answers. -/
structure Fresh (s : DnsResolver) : Prop where
  since : ∀ c ∈ s.calls, ∀ n ∈ c.since, n ≤ s.changes
  quiet : ∀ c ∈ s.calls, c.since = some s.changes → s.clearing = 0
  origin : ∀ c ∈ s.calls, c.since = some s.changes → ∀ n ∈ s.origin c, n = s.changes
  cache : s.clearing = 0 → ∀ name e, s.cache.lookup name = some e → ∀ n ∈ e.2, n = s.changes

theorem Fresh.turn {call' : ResolveCall} (h : s.Fresh) (hi : s.calls[i]? = some call)
    (hcalls : t.calls = s.calls.set i call')
    (hsince : call'.since = call.since) (hchanges : t.changes = s.changes) (hclearing : t.clearing = s.clearing)
    (hchange : ∀ q, t.change q = s.change q ∨ t.change q = some s.changes)
    (hself : call.since = some s.changes → ∀ n ∈ t.origin call', n = s.changes)
    (hcache : s.clearing = 0 → ∀ name e, t.cache.lookup name = some e → ∀ n ∈ e.2, n = s.changes) : t.Fresh := by
  have hmem := mem_of_getElem? hi
  have hcall : ∀ c ∈ t.calls, c = call' ∨ c ∈ s.calls := fun c hc =>
    (mem_or_eq_of_mem_set (hcalls ▸ hc)).symm
  refine ⟨fun c hc n hn => ?_, fun c hc hn => ?_, fun c hc hn n hno => ?_, fun h0 => ?_⟩
  · rw [hchanges]
    rcases hcall c hc with rfl | hc
    · exact h.since call hmem n (hsince ▸ hn)
    · exact h.since c hc n hn
  · rw [hclearing]
    rw [hchanges] at hn
    rcases hcall c hc with rfl | hc
    · exact h.quiet call hmem (hsince ▸ hn)
    · exact h.quiet c hc hn
  · rw [hchanges] at hn ⊢
    rcases hcall c hc with rfl | hc
    · exact hself (hsince ▸ hn) n hno
    · have hold := h.origin c hc hn
      unfold DnsResolver.origin at hold hno
      cases hpc : c.pc <;> grind
  · rw [hchanges]
    exact hcache (hclearing ▸ h0)

theorem Fresh.stored {q : Nat} (h : s.Fresh) (h0 : s.clearing = 0) (hq : ∀ n ∈ s.change q, n = s.changes)
    {name name' : List Char}
    {e : List Net.IP × Option Nat} (he : (s.cached name q).lookup name' = some e) : ∀ n ∈ e.2, n = s.changes := by
  have hold := h.cache h0 name' e
  rw [cached] at he
  split at he
  · split at he
    · by_cases hname : name' = name
      · rw [hname, AList.lookup_insert] at he
        cases he
        exact hq
      · exact hold ((AList.lookup_insert_ne hname).symm.trans he)
    · exact hold he
  · exact hold he

theorem Fresh.go (h : s.Fresh) (hp : s.Prompt (.go i)) (hi : s.calls[i]? = some call) (hm : Move s i call t) :
    t.Fresh := by
  have hmem := mem_of_getElem? hi
  have hold := h.origin call hmem
  have htake := fun hsince => hp (h.quiet call hmem hsince) call hi
  unfold DnsResolver.origin at hold
  cases hm with
  | miss hpc => exact h.turn hi rfl rfl rfl rfl (fun _ => .inl rfl) (fun _ _ hn => by cases hn) h.cache
  | hit hpc hcache =>
    exact h.turn hi rfl rfl rfl rfl (fun _ => .inl rfl)
      (fun hsince => h.cache (h.quiet call hmem hsince) _ _ hcache) h.cache
  | join hpc hq =>
    exact h.turn hi rfl rfl rfl rfl (fun _ => .inl rfl)
      (fun hsince => htake hsince _ (by rw [takes, hpc]; exact hq)) h.cache
  | begin hpc hnone =>
    exact h.turn hi rfl rfl rfl rfl (fun q => .inl (bind_append rfl _ q)) (fun _ _ hn => by cases hn) h.cache
  | ask hpc =>
    rename_i q
    have hchange : ∀ k, DnsResolver.change { s.setPc i call (.asked q s.upstream) with
        queries := s.queries.modify q fun p => { p with change := some s.changes } } k =
          if k = q then (s.queries[q]?).map fun _ => s.changes else s.change k := by
      intro k
      rw [DnsResolver.change, DnsResolver.change, getElem?_modify]
      cases hk : s.queries[k]? <;> grind
    refine h.turn hi rfl rfl rfl rfl (fun k => ?_) (fun _ n hn => ?_) h.cache
    · rw [hchange]
      cases hk : s.queries[q]? <;> grind [DnsResolver.change]
    · have hn := (hchange q).symm.trans hn
      grind
  | woken hpc hdone | remove hpc =>
    simp only [hpc] at hold
    exact h.turn hi rfl rfl rfl rfl (fun _ => .inl rfl) hold h.cache
  | store hpc =>
    simp only [hpc] at hold
    exact h.turn hi rfl rfl rfl rfl (fun _ => .inl rfl) hold fun h0 _ _ he =>
      h.stored h0 (hp h0 call hi _ (by rw [takes, hpc]; rfl)) he
  | wake hpc =>
    simp only [hpc] at hold
    have hchange := bind_modify (fun p => { p with done := true }) (g := PendingQuery.change) (fun _ => rfl) s.queries
    exact h.turn hi rfl rfl rfl rfl (fun k => .inl (hchange _ k)) hold h.cache

theorem Fresh.step (h : s.Fresh) (hp : s.Prompt a) (hs : s.step a = some t) : t.Fresh := by
  cases step_inv hs with
  | resolve name =>
    refine ⟨fun c hc n hn => ?_, fun c hc hn => ?_, fun c hc hn n hno => ?_, h.cache⟩ <;>
      rcases mem_append.mp hc with hc | hc
    · exact h.since c hc n hn
    · cases mem_singleton.mp hc
      grind
    · exact h.quiet c hc hn
    · cases mem_singleton.mp hc
      grind
    · exact h.origin c hc hn n hno
    · cases mem_singleton.mp hc
      cases hno
  | go hi hm => exact h.go hp hi hm
  | answer hi hpc hown =>
    rename_i result
    have hold := h.origin _ (mem_of_getElem? hi)
    unfold DnsResolver.origin at hold
    simp only [hpc] at hold
    have hchange := bind_modify (fun p => { p with result := some result }) (g := PendingQuery.change)
      (fun _ => rfl) s.queries
    exact h.turn hi rfl rfl rfl rfl (fun k => .inl (hchange _ k))
      (fun hsince n hn => hold hsince n ((hchange _ _).symm.trans hn)) h.cache
  | cancel hi => exact h.turn hi rfl rfl rfl rfl (fun _ => .inl rfl) (h.origin _ (mem_of_getElem? hi)) h.cache
  | giveUp hi hpc hc => exact h.turn hi rfl rfl rfl rfl (fun _ => .inl rfl) (fun _ _ hn => by cases hn) h.cache
  | evict name =>
    refine ⟨h.since, h.quiet, h.origin, fun h0 name' e he => h.cache h0 name' e ?_⟩
    by_cases hname : name' = name
    · rw [hname, AList.lookup_erase] at he
      cases he
    · exact (AList.lookup_erase_ne hname).symm.trans he
  | setUpstream upstream =>
    have hlt : ∀ c ∈ s.calls, c.since ≠ some (s.changes + 1) := fun c hc heq =>
      absurd (h.since c hc _ heq) (Nat.not_succ_le_self _)
    exact ⟨fun c hc n hn => Nat.le_succ_of_le (h.since c hc n hn), fun c hc hn => absurd hn (hlt c hc),
      fun c hc hn => absurd hn (hlt c hc), fun h0 => absurd h0 (Nat.succ_ne_zero _)⟩
  | clear hne => exact ⟨h.since, fun c hc hn => absurd (h.quiet c hc hn) hne, h.origin, fun _ _ _ he => by cases he⟩

end DnsResolver

end Whispera
