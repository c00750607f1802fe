import Whispera.DnsResolver
import Whispera.Lib.Processes

/-! The table of the queries in flight has exactly those that some call is at work on, from the call that has
begun the query to its removal. The result of a query is set once, before anyone is woken. -/

namespace Whispera
open List Option Processes Transition

namespace ResolvePc

def leads : ResolvePc → Option Nat
  | ask q | asked q _ | store q | remove q => some q
  | _ => none

def asking : ResolvePc → Bool
  | ask _ | asked _ _ => true
  | _ => false

def isReturned : ResolvePc → Bool
  | returned _ _ _ => true
  | _ => false

theorem leads_of_asking {pc : ResolvePc} (h : pc.asking = true) : ∃ q, pc.leads = some q := by
  cases pc <;> first | exact ⟨_, rfl⟩ | cases h

end ResolvePc

def contextOf : ResolveResult → Option Nat
  | .error (.context j) => some j
  | .error (.upstream _) | .ok _ => none

namespace DnsResolver

/-- How the call `i` goes on. -/
inductive Move (s : DnsResolver) (i : Nat) (call : ResolveCall) : DnsResolver → Prop
  | miss (hpc : call.pc = .look) : Move s i call (s.setPc i call .share)
  | hit {ips : List Net.IP} {change : Option Nat} (hpc : call.pc = .look)
      (hcache : s.cache.lookup call.name = some (ips, change)) :
      Move s i call (s.setPc i call (.returned (.ok ips) none change))
  | join {q : Nat} (hpc : call.pc = .share) (hq : s.inflight.lookup call.name = some q) : Move s i call
      (s.setPc i call (.wait q))
  | begin (hpc : call.pc = .share) (hnone : s.inflight.lookup call.name = none) :
      Move s i call { s.setPc i call (.ask s.queries.length) with
        inflight := s.inflight.insert call.name s.queries.length
        queries := s.queries ++ [{ name := call.name }] }
  | woken {q : Nat} (hpc : call.pc = .wait q) (hdone : (s.queries[q]?).any PendingQuery.done = true) :
      Move s i call (s.setPc i call (.returned (s.result q) (some q) (s.change q)))
  | ask {q : Nat} (hpc : call.pc = .ask q) : Move s i call { s.setPc i call (.asked q s.upstream) with
      queries := s.queries.modify q fun p => { p with change := some s.changes } }
  | store {q : Nat} (hpc : call.pc = .store q) :
      Move s i call { s.setPc i call (.remove q) with cache := s.cached call.name q }
  | remove {q : Nat} (hpc : call.pc = .remove q) :
      Move s i call { s.setPc i call (.wake q) with inflight := s.inflight.erase call.name }
  | wake {q : Nat} (hpc : call.pc = .wake q) :
      Move s i call { s.setPc i call (.returned (s.result q) (some q) (s.change q)) with
        queries := s.queries.modify q fun p => { p with done := true } }

/-- What a step of the resolver does. -/
inductive Step (s : DnsResolver) : Act → DnsResolver → Prop
  | resolve (name : List Char) :
      Step s (.resolve name) { s with
        calls := s.calls ++ [{ name, since := if s.clearing = 0 then some s.changes else none }] }
  | go {i : Nat} {call : ResolveCall} {t : DnsResolver} (hi : s.calls[i]? = some call)
      (hm : Move s i call t) : Step s (.go i) t
  | answer {i q : Nat} {call : ResolveCall} {upstream : List Char} {result : ResolveResult}
      (hi : s.calls[i]? = some call)
      (hpc : call.pc = .asked q upstream) (hown : ∀ j ∈ contextOf result, j = i ∧ call.cancelled = true) :
      Step s (.answer i result) { s.setPc i call (.store q) with
        queries := s.queries.modify q fun p => { p with result := some result } }
  | cancel {i : Nat} {call : ResolveCall} (hi : s.calls[i]? = some call) :
      Step s (.cancel i) { s with calls := s.calls.set i { call with cancelled := true } }
  | giveUp {i q : Nat} {call : ResolveCall} (hi : s.calls[i]? = some call) (hpc : call.pc = .wait q)
      (hc : call.cancelled = true) :
      Step s (.giveUp i) (s.setPc i call (.returned (.error (.context i)) (some q) none))
  | evict (name : List Char) : Step s (.evict name) { s with cache := s.cache.erase name }
  | setUpstream (upstream : List Char) : Step s (.setUpstream upstream) { s with
      upstream := if isSystem upstream then [] else upstream
      changes := s.changes + 1
      clearing := s.clearing + 1 }
  | clear (h : s.clearing ≠ 0) : Step s .clear { s with cache := ∅, clearing := s.clearing - 1 }

theorem step_inv {s t : DnsResolver} {a : Act} (hs : s.step a = some t) : Step s a t := by
  cases a with
  | resolve name =>
    cases hs
    exact .resolve name
  | go i =>
    obtain ⟨call, hi, hs⟩ := bind_eq_some_iff.mp hs
    refine .go hi ?_
    unfold go at hs
    split at hs <;> rename_i hpc
    · cases hs
      unfold look
      split
      · rename_i ips change hlook
        split at hlook
        · exact .hit hpc hlook
        · cases hlook
      · exact .miss hpc
    · split at hs <;> cases hs
      · exact .join hpc ‹_›
      · exact .begin hpc ‹_›
    · split at hs <;> cases hs
      exact .woken hpc ‹_›
    · cases hs
      exact .ask hpc
    · cases hs
    · cases hs
      exact .store hpc
    · cases hs
      exact .remove hpc
    · cases hs
      exact .wake hpc
    · cases hs
  | answer i result =>
    obtain ⟨call, hi, hs⟩ := bind_eq_some_iff.mp hs
    unfold answer at hs
    split at hs
    · rename_i hpc
      split at hs
      · split at hs <;> cases hs
        rename_i hown
        exact .answer hi hpc fun j hj => some.inj hj ▸ hown
      · rename_i hnot
        cases hs
        refine .answer hi hpc fun j hj => ?_
        unfold contextOf at hj
        split at hj <;> grind
    · cases hs
  | cancel i =>
    obtain ⟨call, hi, rfl⟩ := map_eq_some_iff.mp hs
    exact .cancel hi
  | giveUp i =>
    obtain ⟨call, hi, hs⟩ := bind_eq_some_iff.mp hs
    unfold giveUp at hs
    split at hs
    · split at hs <;> cases hs
      exact .giveUp hi ‹_› ‹_›
    · cases hs
  | evict name =>
    cases hs
    exact .evict name
  | setUpstream upstream =>
    cases hs
    exact .setUpstream upstream
  | clear =>
    rw [step] at hs
    split at hs <;> cases hs
    exact .clear ‹_›

end DnsResolver

def ResolveCall.Sound (queries : List PendingQuery) (i : Nat) (call : ResolveCall) : Prop :=
  match call.pc with
  | .ask q | .asked q _ => ∃ p, queries[q]? = some p ∧ p.name = call.name ∧ p.result = none
  | .store q | .remove q | .wake q => ∃ p, queries[q]? = some p ∧ p.name = call.name ∧ p.result ≠ none
  | .wait q => ∃ p, queries[q]? = some p ∧ p.name = call.name
  | .returned r (some q) _ =>
    (∃ p, queries[q]? = some p ∧ p.name = call.name ∧ p.result = some r) ∨
      (r = .error (.context i) ∧ call.cancelled = true)
  | .look | .share | .returned _ none _ => True

theorem ResolveCall.Sound.mono {queries queries' : List PendingQuery} {i : Nat} {c : ResolveCall}
    (h : c.Sound queries i)
    (hkeep : ∀ (q : Nat) (p : PendingQuery), queries[q]? = some p → ∃ p', queries'[q]? = some p' ∧ p'.name = p.name ∧
      (p.result ≠ none ∨ c.pc.leads = some q → p'.result = p.result)) : c.Sound queries' i := by
  unfold Sound at h ⊢
  cases hpc : c.pc with
  | returned r q change =>
    cases q with
    | none => trivial
    | some q => grind
  | _ => grind [ResolvePc.leads]

theorem ResolveCall.Sound.of_leads {queries : List PendingQuery} {i q : Nat} {c : ResolveCall} (h : c.Sound queries i)
    (hq : c.pc.leads = some q) : ∃ p, queries[q]? = some p ∧ p.name = c.name := by
  unfold Sound at h
  cases hpc : c.pc <;> grind [ResolvePc.leads]

/-- The queries in flight are those that one call each leads. -/
structure Flight (inflight : Table.Map (List Char) Nat) (queries : List PendingQuery)
    (calls : List ResolveCall) : Prop where
  entry : ∀ name q, inflight.lookup name = some q → ∃ c ∈ calls, c.name = name ∧ c.pc.leads = some q
  leader : ∀ c ∈ calls, ∀ q, c.pc.leads = some q → inflight.lookup c.name = some q
  one : ∀ (i j : Nat) (c d : ResolveCall), calls[i]? = some c → calls[j]? = some d → c.pc.leads ≠ none →
    c.pc.leads = d.pc.leads → i = j
  done : ∀ p ∈ queries, p.done = true → p.result ≠ none
  sound : ∀ (i : Nat) (c : ResolveCall), calls[i]? = some c → c.Sound queries i

namespace Flight
variable {inflight inflight' : Table.Map (List Char) Nat} {queries queries' : List PendingQuery}
  {calls : List ResolveCall}
  {i : Nat} {call call' : ResolveCall}

section
variable (h : Flight inflight queries calls)
include h

section
variable (hi : calls[i]? = some call)
include hi

theorem change (hname : call'.name = call.name)
    (hentry : ∀ name q, inflight'.lookup name = some q → (name = call.name ∧ call'.pc.leads = some q) ∨
      (inflight.lookup name = some q ∧ ¬(name = call.name ∧ call.pc.leads = some q)))
    (hself : ∀ q, call'.pc.leads = some q → inflight'.lookup call.name = some q)
    (hother : ∀ (j : Nat) (c : ResolveCall) (q : Nat), j ≠ i → calls[j]? = some c → c.pc.leads = some q →
      inflight'.lookup c.name = some q ∧ call'.pc.leads ≠ some q)
    (hdone : ∀ p ∈ queries', p.done = true → p.result ≠ none) (hsound : call'.Sound queries' i)
    (hkeep : ∀ (j : Nat) (c : ResolveCall), j ≠ i → calls[j]? = some c → c.Sound queries' j) :
    Flight inflight' queries' (calls.set i call') where
  entry name q hq := by
    rcases hentry name q hq with ⟨rfl, hlead⟩ | ⟨hq, hne⟩
    · exact ⟨call', mem_set_self hi call', hname, hlead⟩
    · obtain ⟨c, hc, hcname, hcq⟩ := h.entry name q hq
      rcases mem_set_of_mem hi hc call' with rfl | hc
      · exact absurd ⟨hcname.symm, hcq⟩ hne
      · exact ⟨c, hc, hcname, hcq⟩
  leader c hc q hq := by
    obtain ⟨j, hj⟩ := mem_iff_getElem?.mp hc
    rcases get_set_cases hi hj with ⟨-, rfl⟩ | ⟨hji, hj⟩
    · exact hname ▸ hself q hq
    · exact (hother j c q hji hj hq).1
  one j k c d hj hk hne heq := by
    have hone := h.one
    obtain ⟨q, hq⟩ := ne_none_iff_exists'.mp hne
    rcases get_set_cases hi hj with ⟨rfl, rfl⟩ | ⟨hji, hj⟩
      <;> rcases get_set_cases hi hk with ⟨rfl, rfl⟩ | ⟨hki, hk⟩ <;> grind
  done := hdone
  sound j c hj := by
    rcases get_set_cases hi hj with ⟨rfl, rfl⟩ | ⟨hji, hj⟩
    · exact hsound
    · exact hkeep j c hji hj

theorem other {j q : Nat} {c : ResolveCall} (hji : j ≠ i)
    (hj : calls[j]? = some c) (hq : c.pc.leads = some q) : call.pc.leads ≠ some q :=
  fun hcall => hji (h.one j i c call hj hi (hq ▸ some_ne_none q) (hq.trans hcall.symm))

theorem move (hname : call'.name = call.name) (hleads : call'.pc.leads = call.pc.leads)
    (hsound : call'.Sound queries' i)
    (hdone : ∀ p ∈ queries', p.done = true → p.result ≠ none)
    (hkeep : ∀ (q : Nat) (p : PendingQuery), queries[q]? = some p → ∃ p', queries'[q]? = some p' ∧ p'.name = p.name ∧
      (p.result ≠ none ∨ call.pc.leads ≠ some q → p'.result = p.result)) :
    Flight inflight queries' (calls.set i call') := by
  refine h.change hi hname (fun name q hq => ?_) (fun q hq => ?_)
    (fun j c q hji hj hq => ?_) hdone hsound fun j c hji hj => ?_
  · rw [hleads]
    exact (em _).imp_right fun hne => ⟨hq, hne⟩
  · exact h.leader call (mem_of_getElem? hi) q (hleads ▸ hq)
  · exact ⟨h.leader c (mem_of_getElem? hj) q hq, hleads ▸ h.other hi hji hj hq⟩
  · refine (h.sound j c hj).mono fun q p hq => ?_
    obtain ⟨p', hp', hpname, hres⟩ := hkeep q p hq
    exact ⟨p', hp', hpname, fun hor => hres (hor.imp_right (h.other hi hji hj))⟩

theorem go (hname : call'.name = call.name)
    (hleads : call'.pc.leads = call.pc.leads) (hsound : call'.Sound queries i) : Flight inflight queries
      (calls.set i call') :=
  h.move hi hname hleads hsound h.done fun _ p hp => ⟨p, hp, rfl, fun _ => rfl⟩

theorem modify {q : Nat} {p : PendingQuery} {f : PendingQuery → PendingQuery}
    (hname : call'.name = call.name) (hleads : call'.pc.leads = call.pc.leads)
    (hp : queries[q]? = some p) (hf : (f p).name = p.name) (hdone : (f p).done = true → (f p).result ≠ none)
    (hres : (f p).result = p.result ∨ (p.result = none ∧ call.pc.leads = some q))
    (hsound : (queries.modify q f)[q]? = some (f p) → call'.Sound (queries.modify q f) i) :
    Flight inflight (queries.modify q f) (calls.set i call') := by
  refine h.move hi hname hleads (hsound (by grind)) (fun p' hp' hd => ?_) fun k p' hk => ?_
  · have := h.done
    obtain ⟨k, hk⟩ := mem_iff_getElem?.mp hp'
    grind
  · grind

end

end

theorem new : Flight ∅ [] [] :=
  ⟨nofun, nofun, fun _ _ _ _ h => (not_mem_nil (mem_of_getElem? h)).elim, nofun, nofun⟩

theorem begin (h : Flight inflight queries calls) (name : List Char) (since : Option Nat) :
    Flight inflight queries (calls ++ [{ name := name, since := since }]) where
  entry name q hq := (h.entry name q hq).imp fun _ hc => ⟨mem_append_left _ hc.1, hc.2⟩
  leader := by
    have := h.leader
    grind [ResolvePc.leads]
  one j k c d hj hk hne heq := by
    have hone := h.one
    rcases get_begin_cases hj with hj | ⟨-, rfl⟩ <;> rcases get_begin_cases hk with hk | ⟨-, rfl⟩ <;>
      grind [ResolvePc.leads]
  done := h.done
  sound j c hj := by
    rcases get_begin_cases hj with hj | ⟨-, rfl⟩
    · exact h.sound j c hj
    · trivial

theorem ask (h : Flight inflight queries calls) (hi : calls[i]? = some call)
    (hnone : inflight.lookup call.name = none) :
    Flight (inflight.insert call.name queries.length) (queries ++ [{ name := call.name }])
      (calls.set i { call with pc := .ask queries.length }) := by
  refine h.change hi rfl (fun name q hq => ?_) (fun q hq => (AList.lookup_insert _).trans hq)
    (fun j c q hji hj hq => ?_) ?_ ⟨{ name := call.name }, getElem?_concat_length, rfl, rfl⟩ fun j c hji hj => ?_
  · by_cases hname : name = call.name
    · rw [hname, AList.lookup_insert] at hq
      exact .inl ⟨hname, hq⟩
    · rw [AList.lookup_insert_ne hname] at hq
      exact .inr ⟨hq, fun hand => hname hand.1⟩
  · have hlook := h.leader c (mem_of_getElem? hj) q hq
    obtain ⟨p, hp, -⟩ := (h.sound j c hj).of_leads hq
    have hlt := (List.getElem?_eq_some_iff.mp hp).1
    have hname : c.name ≠ call.name := fun heq => some_ne_none q (hlook.symm.trans (heq.symm ▸ hnone))
    rw [AList.lookup_insert_ne hname]
    exact ⟨hlook, fun heq => absurd (some.inj heq) hlt.ne'⟩
  · have := h.done
    grind
  · exact (h.sound j c hj).mono fun q p hq => ⟨p, get_append_left hq _, rfl, fun _ => rfl⟩

theorem remove {q : Nat} (h : Flight inflight queries calls) (hi : calls[i]? = some call) (hpc : call.pc = .remove q) :
    Flight (inflight.erase call.name) queries (calls.set i { call with pc := .wake q }) := by
  have hlook := h.leader call (mem_of_getElem? hi) q (hpc ▸ rfl)
  have hsound := h.sound i call hi
  rw [ResolveCall.Sound, hpc] at hsound
  refine h.change hi rfl (fun name q' hq' => ?_) nofun (fun j c q' hji hj hq' => ?_) h.done hsound
    fun j c _ hj => h.sound j c hj
  · by_cases hname : name = call.name
    · rw [hname, AList.lookup_erase] at hq'
      cases hq'
    · rw [AList.lookup_erase_ne hname] at hq'
      exact .inr ⟨hq', fun hand => hname hand.1⟩
  · have hlook' := h.leader c (mem_of_getElem? hj) q' hq'
    refine ⟨(AList.lookup_erase_ne fun heq => ?_).trans hlook', nofun⟩
    rw [heq, hlook] at hlook'
    exact h.other hi hji hj hq' (hlook' ▸ hpc ▸ rfl)

theorem result_eq {s : DnsResolver} {q : Nat} {p : PendingQuery} (hp : s.queries[q]? = some p) (hr : p.result ≠ none) :
    p.result = some (s.result q) := by
  rw [DnsResolver.result, hp, bind_some]
  obtain ⟨r, hr⟩ := ne_none_iff_exists'.mp hr
  rw [hr]
  rfl

theorem step {s t : DnsResolver} {a : DnsResolver.Act} (h : Flight s.inflight s.queries s.calls)
    (hs : s.step a = some t) :
    Flight t.inflight t.queries t.calls := by
  cases DnsResolver.step_inv hs with
  | resolve name => exact h.begin name _
  | go hi hm =>
    have hsound := h.sound _ _ hi
    cases hm with
    | miss hpc | hit hpc _ => exact h.go hi rfl (hpc ▸ rfl) trivial
    | join hpc hq =>
      obtain ⟨c, hc, hname, hcq⟩ := h.entry _ _ hq
      obtain ⟨j, hj⟩ := mem_iff_getElem?.mp hc
      obtain ⟨p, hp, hpname⟩ := (h.sound j c hj).of_leads hcq
      exact h.go hi rfl (hpc ▸ rfl) ⟨p, hp, hpname.trans hname⟩
    | begin _ hnone => exact h.ask hi hnone
    | remove hpc => exact h.remove hi hpc
    | woken hpc hdone =>
      rw [ResolveCall.Sound, hpc] at hsound
      obtain ⟨p, hp, hname⟩ := hsound
      rw [hp, any_some] at hdone
      exact h.go hi rfl (hpc ▸ rfl) (.inl ⟨p, hp, hname, result_eq hp (h.done p (mem_of_getElem? hp) hdone)⟩)
    | store hpc =>
      rw [ResolveCall.Sound, hpc] at hsound
      exact h.go hi rfl (hpc ▸ rfl) hsound
    | ask hpc =>
      rw [ResolveCall.Sound, hpc] at hsound
      obtain ⟨p, hp, hname, hr⟩ := hsound
      exact h.modify hi rfl (hpc ▸ rfl) hp rfl (h.done p (mem_of_getElem? hp)) (.inl rfl) fun hp' => ⟨_, hp', hname, hr⟩
    | wake hpc =>
      rw [ResolveCall.Sound, hpc] at hsound
      obtain ⟨p, hp, hname, hr⟩ := hsound
      have hres := result_eq hp hr
      exact h.modify hi rfl (hpc ▸ rfl) hp rfl (fun _ => hr) (.inl rfl) fun hp' => .inl ⟨_, hp', hname, hres⟩
  | answer hi hpc _ =>
    have hsound := h.sound _ _ hi
    rw [ResolveCall.Sound, hpc] at hsound
    obtain ⟨p, hp, hname, hr⟩ := hsound
    exact h.modify hi rfl (hpc ▸ rfl) hp rfl (fun _ => some_ne_none _) (.inr ⟨hr, hpc ▸ rfl⟩) fun hp' =>
      ⟨_, hp', hname, some_ne_none _⟩
  | cancel hi =>
    rename_i call
    refine h.go hi rfl rfl ?_
    have hsound := h.sound _ _ hi
    rw [ResolveCall.Sound] at hsound ⊢
    cases hpc : call.pc with
    | returned r q change => cases q <;> grind
    | _ => grind
  | giveUp hi hpc hc => exact h.go hi rfl (hpc ▸ rfl) (.inr ⟨rfl, hc⟩)
  | evict name | setUpstream upstream | clear _ => exact h

end Flight

namespace DnsResolver

/-- In one of the steps, the call has found the query in the table of those in flight. -/
def JoinedIn (start : DnsResolver) (acts : List Act) (i q : Nat) : Prop :=
  ∃ pre post u c, acts = pre ++ .go i :: post ∧ AnyRun step start pre u ∧ u.calls[i]? = some c ∧ c.pc = .share ∧
    u.inflight.lookup c.name = some q

end DnsResolver

/-- A call that waits for the query, or has returned from it. -/
def ResolvePc.Follows (q : Nat) : ResolvePc → Prop
  | .wait q' | .returned _ (some q') _ => q' = q
  | .look | .share | .ask _ | .asked _ _ | .store _ | .remove _ | .wake _ | .returned _ none _ => False

namespace DnsResolver
variable {s t : DnsResolver} {i q : Nat}

def Bound (i q : Nat) (s : DnsResolver) : Prop := ∃ c, s.calls[i]? = some c ∧ c.pc.Follows q

theorem Bound.set {j : Nat} {call call' : ResolveCall} (h : Bound i q s) (hj : s.calls[j]? = some call)
    (hcalls : t.calls = s.calls.set j call') (hpc : call.pc.Follows q → call'.pc.Follows q) : Bound i q t := by
  obtain ⟨c, hc, hq⟩ := h
  rw [Bound, hcalls]
  by_cases hji : j = i
  · subst hji
    obtain rfl := some.inj (hj.symm.trans hc)
    exact ⟨call', get_set_self hj call', hpc hq⟩
  · exact ⟨c, (getElem?_set_ne hji).trans hc, hq⟩

theorem Bound.step {a : Act} (h : Bound i q s) (hs : s.step a = some t) : Bound i q t := by
  cases step_inv hs with
  | resolve name =>
    obtain ⟨c, hc, hq⟩ := h
    exact ⟨c, get_append_left hc _, hq⟩
  | go hi hm =>
    cases hm with
    | woken hpc _ => exact h.set hi rfl fun hq => by rwa [hpc] at hq
    | miss hpc | hit hpc _ | join hpc _ | begin hpc _ | ask hpc | store hpc | remove hpc | wake hpc =>
      exact h.set hi rfl fun hq => by rw [hpc] at hq; exact hq.elim
  | answer hi hpc _ => exact h.set hi rfl fun hq => by rw [hpc] at hq; exact hq.elim
  | cancel hi => exact h.set hi rfl id
  | giveUp hi hpc _ => exact h.set hi rfl fun hq => by rwa [hpc] at hq
  | evict name | setUpstream upstream | clear _ => exact h

theorem bound_of_joined {start : DnsResolver} {acts : List Act} (h : AnyRun DnsResolver.step start acts s)
    (hjoin : JoinedIn start acts i q) : Bound i q s := by
  obtain ⟨pre, post, u, c, hacts, hpre, hc, hpc, hq⟩ := hjoin
  refine h.invariant_after hacts hpre (fun {v} hs => ?_) fun h _ hs => h.step hs
  simp only [DnsResolver.step, hc, bind_some, go, hpc, hq] at hs
  cases hs
  exact ⟨_, get_set_self hc _, rfl⟩

end DnsResolver

/-- However the calls come between each other: one of them at most asks the upstream for a name; who has
    joined a query, or begun one, returns its result, or the error of their own context; and when all have
    returned, no query is in the table. -/
theorem resolve_single_flight {s : DnsResolver} {acts : List DnsResolver.Act} {cacheEnabled : Bool}
    {upstream : List Char}
    (h : AnyRun DnsResolver.step { cacheEnabled, upstream } acts s) :
    (∀ (i j : Nat) (c d : ResolveCall), s.calls[i]? = some c → s.calls[j]? = some d → c.pc.asking = true →
     d.pc.asking = true →
      c.name = d.name → i = j) ∧
    (∀ (i : Nat) (c : ResolveCall) (r : ResolveResult) (q : Nat) (origin change : Option Nat), s.calls[i]? = some c →
      c.pc = .returned r origin change → origin = some q ∨ DnsResolver.JoinedIn { cacheEnabled, upstream } acts i q →
      (∃ p, s.queries[q]? = some p ∧ p.name = c.name ∧ p.result = some r) ∨
        (r = .error (.context i) ∧ c.cancelled = true)) ∧
    ((∀ c ∈ s.calls, c.pc.isReturned = true) → s.inflight = ∅) := by
  have hflight : Flight s.inflight s.queries s.calls :=
    h.invariant (I := fun s => Flight s.inflight s.queries s.calls) (fun h _ hs => h.step hs) Flight.new
  refine ⟨fun i j c d hi hj hc hd hname => ?_, fun i c r q origin change hi hpc hq => ?_, fun hall => ?_⟩
  · obtain ⟨q, hq⟩ := ResolvePc.leads_of_asking hc
    obtain ⟨q', hq'⟩ := ResolvePc.leads_of_asking hd
    have hlook := hflight.leader c (mem_of_getElem? hi) q hq
    rw [hname, hflight.leader d (mem_of_getElem? hj) q' hq'] at hlook
    exact hflight.one i j c d hi hj (hq ▸ some_ne_none q) (hq.trans (hlook.symm.trans hq'.symm))
  · have horigin : origin = some q := by
      rcases hq with hq | hjoin
      · exact hq
      · obtain ⟨c', hc', hfollows⟩ := DnsResolver.bound_of_joined h hjoin
        obtain rfl := some.inj (hi.symm.trans hc')
        rw [hpc] at hfollows
        cases origin with
        | none => exact hfollows.elim
        | some q' => exact congrArg some hfollows
    have hsound := hflight.sound i c hi
    rw [ResolveCall.Sound, hpc, horigin] at hsound
    exact hsound
  · refine AList.ext (eq_nil_iff_forall_not_mem.mpr fun e he => ?_)
    obtain ⟨c, hc, -, hq⟩ := hflight.entry e.1 e.2 (AList.mem_lookup_iff.mpr he)
    have := hall c hc
    cases hpc : c.pc <;> rw [hpc] at hq this <;> cases hq <;> cases this

def joinedActs : List DnsResolver.Act :=
  [.resolve ['a'], .resolve ['a'], .go 0, .go 1, .go 0, .go 1, .go 0, .answer 0 (.ok [[10, 0, 0, 1]]), .go 0,
   .go 0, .go 0, .go 1]

theorem resolve_single_flight_joined :
    ∃ s, AnyRun DnsResolver.step { cacheEnabled := true, upstream := ['u'] } joinedActs s ∧
    (s.calls.all fun c => c.pc.isReturned) = true ∧ s.inflight = ∅ ∧
    DnsResolver.JoinedIn { cacheEnabled := true, upstream := ['u'] } joinedActs 1 0 ∧
    ∃ p, s.queries[0]? = some p ∧ p.result = some (.ok [[10, 0, 0, 1]]) := by
  have hjoin : DnsResolver.JoinedIn { cacheEnabled := true, upstream := ['u'] } joinedActs 1 0 := by
    obtain ⟨u, hu, hcall⟩ :=
      AnyRun.exists_of_exec (show ∃ u ∈ exec DnsResolver.step { cacheEnabled := true, upstream := ['u'] }
      (joinedActs.take 5), ∃ c ∈ u.calls[1]?, c.pc = .share ∧
      u.inflight.lookup c.name = some 0 from ⟨_, rfl, _, rfl, rfl, rfl⟩)
    obtain ⟨c, hc, hpc, hq⟩ := hcall
    exact ⟨_, _, u, c, rfl, hu, hc, hpc, hq⟩
  refine Run.exists_of_exec (Q := fun s => (s.calls.all fun c => c.pc.isReturned) = true ∧ ∃ c ∈ s.calls[1]?,
    c.pc = .returned (.ok [[10, 0, 0, 1]]) (some 0) (some 0)) ⟨_, rfl, rfl, _, rfl, rfl⟩ fun s hrun hs => ?_
  obtain ⟨hall, c, hc, hpc⟩ := hs
  obtain ⟨-, hresult, hempty⟩ := resolve_single_flight hrun
  refine ⟨hall, hempty (List.all_eq_true.mp hall), hjoin, ?_⟩
  rcases hresult 1 c _ 0 _ _ hc hpc (.inr hjoin) with ⟨p, hp, -, hr⟩ | ⟨hr, -⟩
  · exact ⟨p, hp, hr⟩
  · cases hr

end Whispera
