import Whispera.Lib.Transition
import Whispera.Theorems.IdleCustody

/-! A connection that is handed out is nowhere else, and nobody else reads from it. -/

namespace Whispera
open List Processes Transition
open Tunnel (idleMax)

def Probe.Active (w : Probe) : Prop := w.pc = .born ∨ w.pc = .read ∨ w.consumed = true

/-- A probe that says alive has consumed no byte. -/
structure Probe.Honest (w : Probe) : Prop where
  fresh : w.pc = .born ∨ w.pc = .read → w.alive = none ∧ w.consumed = false
  sending : ∀ alive, w.pc = .send alive → alive = true → w.consumed = false
  sent : w.alive = some true → ¬w.Active

variable {w : Probe}

theorem Probe.Honest.consumed_of_sent (h : w.Honest) (hsent : w.alive = some true) : w.consumed = false :=
  Bool.eq_false_iff.mpr fun hconsumed => h.sent hsent (.inr (.inr hconsumed))

namespace IdleSet

variable {p : ParkedConn}

section
variable {s t : IdleSet} {i : Nat} {ok : Bool} {act : Act}

def records (s : IdleSet) : List ParkedConn := s.probes.map (·.parked)

def Has (s : IdleSet) (p : ParkedConn) : Prop := p ∈ s.conns ∨ ∃ call ∈ s.calls, call.parked? = some p

/-- The parked connection is in the set, a call has popped it or is to close its connection, or that is
    closed. -/
def Owns (s : IdleSet) (p : ParkedConn) : Prop := p ∈ s.conns ∨ (∃ call ∈ s.calls, call.Keeps p) ∨ s.shut p.conn = true

theorem Move.records (hmove : s.Move act t) :
    t.records = s.records ∨ ∃ c, t.records = s.records ++ [{ id := s.records.length, conn := c }] := by
  cases hmove with
  | @park i ok c surplus p hcall hopen hp hsurplus =>
    refine .inr ⟨c, ?_⟩
    rw [IdleSet.records, IdleSet.records, map_append, map_singleton, length_map, hp]
  | spawn hcall hw hborn | receive hcall hw halive | read hw hread | send hw hsend | remove hw hremove hmem
  | late hw hremove
  | closeProbe hw hclose => exact .inl (map_set hw rfl)
  | _ => exact .inl rfl

/-- What a step leaves of a probe. -/
structure Follows (t : IdleSet) (w w' : Probe) : Prop where
  parked : w'.parked = w.parked
  active : w'.Active → w.Active
  honest : w.Honest → w'.Honest
  close : w.pc = .close → w'.pc = .close ∨ t.shut w.parked.conn = true

theorem Follows.refl (t : IdleSet) (w : Probe) : Follows t w w := ⟨rfl, id, id, .inl⟩

variable {w' : Probe} {call : IdleCall} {c : Nat}

theorem Follows.past (hparked : w'.parked = w.parked) (hconsumed : w'.consumed = w.consumed)
    (hpc : w'.pc = .remove ∨ w'.pc = .close ∨ w'.pc = .done)
    (hsent : w.Honest → w'.alive = some true → w.consumed = false)
    (hclose : w.pc = .close → w'.pc = .close ∨ t.shut w.parked.conn = true) : Follows t w w' := by
  have hactive : w'.Active → w.consumed = true := by
    rintro (h | h | h)
    · rcases hpc with hpc | hpc | hpc <;> cases hpc.symm.trans h
    · rcases hpc with hpc | hpc | hpc <;> cases hpc.symm.trans h
    · exact hconsumed.symm.trans h
  refine ⟨hparked, fun h => .inr (.inr (hactive h)), fun honest => ⟨?_, ?_, ?_⟩, hclose⟩
  · rintro (h | h)
    · rcases hpc with hpc | hpc | hpc <;> cases hpc.symm.trans h
    · rcases hpc with hpc | hpc | hpc <;> cases hpc.symm.trans h
  · intro alive h
    rcases hpc with hpc | hpc | hpc <;> cases hpc.symm.trans h
  · intro halive h
    exact nomatch (hactive h).symm.trans (hsent honest halive)

theorem Follows.spawn (hborn : w.pc = .born) : Follows t w { w with pc := .read } where
  parked := rfl
  active _ := .inl hborn
  honest h := ⟨fun _ => h.fresh (.inl hborn), nofun,
    fun hsent => nomatch (h.fresh (.inl hborn)).1.symm.trans hsent⟩
  close hclose := nomatch hborn.symm.trans hclose

theorem Follows.receive (t : IdleSet) (w : Probe) : Follows t w { w with alive := none } where
  parked := rfl
  active h := h
  honest h := ⟨fun hpc => ⟨rfl, (h.fresh hpc).2⟩, h.sending, nofun⟩
  close := .inl

theorem Follows.read {byte deadline : Bool} (hread : w.pc = .read) (hproper : deadline = true → byte = false) :
    Follows t w { w with pc := .send deadline, consumed := byte } where
  parked := rfl
  active _ := .inr (.inl hread)
  honest h := by
    refine ⟨?_, ?_, ?_⟩
    · rintro (hpc | hpc) <;> cases hpc
    · rintro _ ⟨⟩ halive
      exact hproper halive
    · intro hsent
      exact nomatch (h.fresh (.inr hread)).1.symm.trans hsent
  close hclose := nomatch hread.symm.trans hclose

theorem Follows.send {alive : Bool} (hsend : w.pc = .send alive) :
    Follows t w { w with alive := some alive, pc := if alive then .done else .remove } := by
  refine .past rfl rfl ?_ (fun h hsent => h.sending alive hsend (Option.some.inj hsent)) fun hclose =>
    nomatch hsend.symm.trans hclose
  cases alive with
  | false => exact .inl rfl
  | true => exact .inr (.inr rfl)

theorem owns_park {l : List ParkedConn} {id surplus : Nat} (hcall : s.calls[i]? = some call)
    (hconns : t.conns = l.drop surplus) (hcalls : t.calls = s.calls.set i (.spawn id ((l.take surplus).map (·.conn))))
    (hp : p ∈ l) : t.Owns p := by
  rw [← take_append_drop surplus l] at hp
  rcases mem_append.mp hp with hp | hp
  · exact .inr (.inl ⟨_, hcalls ▸ mem_set_self hcall _, mem_map_of_mem hp⟩)
  · exact .inl (hconns ▸ hp)

theorem Move.follows (hmove : s.Move act t) (hproper : s.Proper act) (hw' : w' ∈ t.probes) :
    (∃ w ∈ s.probes, Follows t w w') ∨
    (w' = { parked := w'.parked } ∧ t.Owns w'.parked ∧ w'.parked.id = s.records.length) := by
  have hset : ∀ {i : Nat} {w v : Probe}, s.probes[i]? = some w → t.probes = s.probes.set i v → Follows t w v →
      ∃ w ∈ s.probes, Follows t w w' := by
    intro i w v hw hprobes hfollows
    rcases mem_or_eq_of_mem_set (hprobes ▸ hw') with hw' | rfl
    · exact ⟨w', hw', .refl t w'⟩
    · exact ⟨w, mem_of_getElem? hw, hfollows⟩
  cases hmove with
  | @park i ok c surplus p hcall hopen hp hsurplus =>
    rcases mem_append.mp hw' with hw' | hw'
    · exact .inl ⟨w', hw', .refl _ w'⟩
    · obtain rfl := mem_singleton.mp hw'
      refine .inr ⟨rfl, owns_park hcall rfl rfl (mem_append_right _ mem_cons_self), ?_⟩
      rw [IdleSet.records, length_map, hp]
  | spawn hcall hw hborn => exact .inl (hset hw rfl (.spawn hborn))
  | receive hcall hw halive => exact .inl (hset hw rfl (.receive _ _))
  | read hw hread => exact .inl (hset hw rfl (.read hread hproper))
  | send hw hsend => exact .inl (hset hw rfl (.send hsend))
  | remove hw hremove hmem =>
    exact .inl (hset hw rfl (.past rfl rfl (.inr (.inl rfl)) (fun h => h.consumed_of_sent) fun _ => .inl rfl))
  | late hw hremove =>
    exact .inl (hset hw rfl (.past rfl rfl (.inr (.inr rfl)) (fun h => h.consumed_of_sent) fun hclose =>
      nomatch hremove.symm.trans hclose))
  | closeProbe hw hclose =>
    exact .inl (hset hw rfl (.past rfl rfl (.inr (.inr rfl)) (fun h => h.consumed_of_sent) fun _ =>
      .inr (Function.update_self _ _ _)))
  | _ => exact .inl ⟨w', hw', .refl _ w'⟩

theorem Owns.begin (hp : s.Owns p) (hcalls : t.calls = s.calls ++ [call])
    (hconns : p ∈ s.conns → p ∈ t.conns ∨ call.Keeps p) (hshut : t.shut = s.shut) : t.Owns p := by
  rcases hp with hp | ⟨call', hcall', hkeeps⟩ | hp
  · rcases hconns hp with hp | hp
    · exact .inl hp
    · exact .inr (.inl ⟨call, hcalls ▸ mem_append_right _ mem_cons_self, hp⟩)
  · exact .inr (.inl ⟨call', hcalls ▸ mem_append_left _ hcall', hkeeps⟩)
  · exact .inr (.inr (hshut ▸ hp))

theorem Owns.setCall {call' : IdleCall} (hp : s.Owns p) (hcall : s.calls[i]? = some call)
    (hcalls : t.calls = s.calls.set i call') (hconns : p ∈ s.conns → t.Owns p)
    (hkeeps : call.Keeps p → call'.Keeps p ∨ t.shut p.conn = true)
    (hshut : s.shut p.conn = true → t.shut p.conn = true) :
    t.Owns p := by
  rcases hp with hp | ⟨other, hother, hp⟩ | hp
  · exact hconns hp
  · rcases mem_set_of_mem hcall hother call' with rfl | hother
    · rcases hkeeps hp with hp | hp
      · exact .inr (.inl ⟨call', hcalls ▸ mem_set_self hcall call', hp⟩)
      · exact .inr (.inr hp)
    · exact .inr (.inl ⟨other, hcalls ▸ hother, hp⟩)
  · exact .inr (.inr (hshut hp))

theorem shut_close {d : Nat} (h : s.shut d = true) : (s.close c).shut d = true := by
  rcases eq_or_ne d c with rfl | hne
  · exact Function.update_self _ _ _
  · exact (Function.update_of_ne hne _ _).trans h

theorem Move.owns (hmove : s.Move act t) (hp : s.Owns p) :
    t.Owns p ∨ .clear p ∈ s.calls ∨ ∃ w ∈ t.probes, w.parked = p ∧ w.pc = .close := by
  cases hmove with
  | put _ _ | take => exact .inl (hp.begin rfl .inl rfl)
  | closeAll => exact .inl (hp.begin rfl (fun hp => .inr (mem_map_of_mem hp)) rfl)
  | turn hcall hconns hkeeps hparked hclear =>
    exact .inl (hp.setCall hcall rfl .inl (fun hp => .inl (hkeeps p hp)) id)
  | park hcall =>
    exact .inl (hp.setCall hcall rfl (fun hp => owns_park hcall rfl rfl (mem_append_left _ hp)) False.elim id)
  | spawn hcall => exact .inl (hp.setCall hcall rfl .inl .inl id)
  | @pop i ok q hcall hlast =>
    refine .inl (hp.setCall hcall rfl (fun hp => ?_) False.elim id)
    rw [hlast] at hp
    rcases mem_append.mp hp with hp | hp
    · exact .inl hp
    · exact .inr (.inl ⟨_, mem_set_self hcall _, mem_singleton.mp hp⟩)
  | @receive i ok q w alive hcall =>
    refine .inl (hp.setCall hcall rfl .inl (fun hp => .inl ?_) id)
    split
    · exact hp
    · exact hp
  | @hand i ok q hcall =>
    rcases eq_or_ne p q with rfl | hne
    · exact .inr (.inl (mem_of_getElem? hcall))
    · exact .inl (hp.setCall hcall rfl .inl (fun hp => absurd hp hne) id)
  | close hcall hconns hkeeps hparked =>
    refine .inl (hp.setCall hcall rfl .inl (fun hp => (hkeeps p hp).imp_right ?_) shut_close)
    rintro rfl
    exact Function.update_self _ _ _
  | @remove i w hw hremove hmem =>
    rcases eq_or_ne p w.parked with rfl | hne
    · exact .inr (.inr ⟨_, mem_set_self hw _, rfl, rfl⟩)
    · exact .inl (hp.imp_left (mem_erase_of_ne hne).mpr)
  | closeProbe => exact .inl (hp.imp_right (Or.imp_right shut_close))
  | _ => exact .inl hp

theorem Has.of_setCall {call' : IdleCall} (hp : t.Has p) (hcalls : t.calls = s.calls.set i call')
    (hconns : ∀ q ∈ t.conns, q ∈ s.conns) (hparked : call'.parked? = some p → s.Has p) : s.Has p := by
  rcases hp with hp | ⟨other, hother, hp⟩
  · exact .inl (hconns p hp)
  · rcases mem_or_eq_of_mem_set (hcalls ▸ hother) with hother | rfl
    · exact .inr ⟨other, hother, hp⟩
    · exact hparked hp

theorem Has.of_begin (hp : t.Has p) (hcalls : t.calls = s.calls ++ [call])
    (hconns : ∀ q ∈ t.conns, q ∈ s.conns) (hparked : call.parked? = none) : s.Has p := by
  rcases hp with hp | ⟨other, hother, hp⟩
  · exact .inl (hconns p hp)
  · rcases mem_append.mp (hcalls ▸ hother) with hother | hother
    · exact .inr ⟨other, hother, hp⟩
    · obtain rfl := mem_singleton.mp hother
      exact nomatch hparked.symm.trans hp

theorem Move.has (hmove : s.Move act t) (hp : t.Has p) : s.Has p ∨ t.records[p.id]? = some p := by
  cases hmove with
  | put _ _ | take => exact .inl (hp.of_begin rfl (fun _ => id) rfl)
  | closeAll => exact .inl (hp.of_begin rfl nofun rfl)
  | turn hcall hconns hkeeps hparked hclear =>
    exact .inl (hp.of_setCall rfl (fun _ => id) fun hp => .inr ⟨_, mem_of_getElem? hcall, hparked p hp⟩)
  | @park i ok c surplus q hcall hopen hq hsurplus =>
    rcases hp with hp | ⟨call, hmem, hp⟩
    · rcases mem_append.mp (mem_of_mem_drop hp) with hp | hp
      · exact .inl (.inl hp)
      · obtain rfl := mem_singleton.mp hp
        have hid : p.id = (s.probes.map (·.parked)).length := by rw [length_map, hq]
        refine .inr ?_
        rw [IdleSet.records, map_append, map_singleton, hid, getElem?_concat_length]
    · rcases mem_or_eq_of_mem_set hmem with hmem | rfl
      · exact .inl (.inr ⟨call, hmem, hp⟩)
      · cases hp
  | spawn | hand => exact .inl (hp.of_setCall rfl (fun _ => id) nofun)
  | @pop i ok q hcall hlast =>
    refine .inl (hp.of_setCall rfl (fun _ hq => (dropLast_sublist _).subset hq) ?_)
    rintro ⟨⟩
    exact .inl (hlast ▸ mem_append_right _ mem_cons_self)
  | @receive i ok q w alive hcall =>
    refine .inl (hp.of_setCall rfl (fun _ => id) fun hp => .inr ⟨_, mem_of_getElem? hcall, ?_⟩)
    split at hp
    · exact hp
    · exact hp
  | close hcall hconns hkeeps hparked =>
    exact .inl (hp.of_setCall rfl (fun _ => id) fun hp => nomatch hparked.symm.trans hp)
  | remove => exact .inl (hp.imp_left mem_of_mem_erase)
  | _ => exact .inl hp

theorem Move.clear (hmove : s.Move act t) (hp : .clear p ∈ t.calls) :
    .clear p ∈ s.calls ∨ ∃ w, s.probes[p.id]? = some w ∧ w.alive = some true := by
  have hset : ∀ {i : Nat} {call : IdleCall}, t.calls = s.calls.set i call → call ≠ .clear p → .clear p ∈ s.calls := by
    intro i call hcalls hne
    rcases mem_or_eq_of_mem_set (hcalls ▸ hp) with hp | hp
    · exact hp
    · exact absurd hp.symm hne
  have hbegin : ∀ {call : IdleCall}, t.calls = s.calls ++ [call] → call ≠ .clear p → .clear p ∈ s.calls := by
    intro call hcalls hne
    rcases mem_append.mp (hcalls ▸ hp) with hp | hp
    · exact hp
    · exact absurd (mem_singleton.mp hp).symm hne
  cases hmove with
  | put _ _ | take | closeAll => exact .inl (hbegin rfl nofun)
  | turn hcall hconns hkeeps hparked hclear => exact .inl (hset rfl (hclear p))
  | park | spawn | pop | hand => exact .inl (hset rfl nofun)
  | @receive i ok q w alive hcall hw halive =>
    cases alive with
    | false => exact .inl (hset rfl nofun)
    | true =>
      rcases mem_or_eq_of_mem_set hp with hp | hp
      · exact .inl hp
      · cases hp
        exact .inr ⟨w, hw, halive⟩
  | close hcall hconns hkeeps hparked => exact .inl (hset rfl fun hne => nomatch (hne ▸ hparked))
  | _ => exact .inl hp

def Numbered (s : IdleSet) : Prop := ∀ (i : Nat) (p : ParkedConn), s.records[i]? = some p → p.id = i

theorem Numbered.move (h : s.Numbered) (hmove : s.Move act t) : t.Numbered := by
  intro i p hp
  rcases hmove.records with hrecords | ⟨c, hrecords⟩
  · exact h i p (hrecords ▸ hp)
  · rw [hrecords] at hp
    rcases get_begin_cases hp with hp | ⟨rfl, rfl⟩
    · exact h i p hp
    · rfl

theorem Numbered.probe (h : s.Numbered) (hw : w ∈ s.probes) : s.probes[w.parked.id]? = some w := by
  obtain ⟨j, hj⟩ := mem_iff_getElem?.mp hw
  have hrecord : s.records[j]? = some w.parked := by
    rw [records, getElem?_map, hj]
    rfl
  rwa [h j w.parked hrecord]

theorem Numbered.unique (h : s.Numbered) (hw : w ∈ s.probes) (hw' : w' ∈ s.probes)
    (hparked : w'.parked = w.parked) : w' = w :=
  Option.some.inj ((h.probe hw').symm.trans (hparked ▸ h.probe hw))

/-- A watcher that has not read, or that has read a byte, belongs to a connection that is owned or that it
    closes, and not to one whose deadline is cleared. -/
structure Watched (s : IdleSet) : Prop where
  honest : ∀ w ∈ s.probes, w.Honest
  numbered : s.Numbered
  known : ∀ p : ParkedConn, s.Has p → s.records[p.id]? = some p
  owned : ∀ w ∈ s.probes, w.Active → w.pc = .close ∨ s.Owns w.parked
  cleared : ∀ w ∈ s.probes, .clear w.parked ∈ s.calls → ¬w.Active

theorem Watched.known_move (h : s.Watched) (hmove : s.Move act t) (hp : t.Has p) : t.records[p.id]? = some p := by
  rcases hmove.has hp with hp | hp
  · have hold := h.known p hp
    rcases hmove.records with hrecords | ⟨c, hrecords⟩
    · rwa [hrecords]
    · rw [hrecords]
      exact get_append_left hold _
  · exact hp

theorem Watched.owned_move (h : s.Watched) (hmove : s.Move act t) (hproper : s.Proper act) (hw' : w' ∈ t.probes)
    (hactive : w'.Active) : w'.pc = .close ∨ t.Owns w'.parked := by
  rcases hmove.follows hproper hw' with ⟨w, hw, hfollows⟩ | ⟨-, howns, -⟩
  · have hactive' := hfollows.active hactive
    rw [hfollows.parked]
    rcases h.owned w hw hactive' with hclose | howns
    · exact (hfollows.close hclose).imp_right fun hshut => .inr (.inr hshut)
    · rcases hmove.owns howns with howns | hclear | ⟨v, hv, hparked, hclose⟩
      · exact .inr howns
      · exact absurd hactive' (h.cleared w hw hclear)
      · -- the connection was removed from the set by its own watcher
        have hself := (h.numbered.move hmove).unique hw' hv (hparked.trans hfollows.parked.symm)
        exact .inl (hself ▸ hclose)
  · exact .inr howns

theorem Watched.cleared_move (h : s.Watched) (hmove : s.Move act t) (hproper : s.Proper act) (hw' : w' ∈ t.probes)
    (hclear : .clear w'.parked ∈ t.calls) : ¬w'.Active := by
  intro hactive
  rcases hmove.follows hproper hw' with ⟨w, hw, hfollows⟩ | ⟨-, -, hid⟩
  · have hactive' := hfollows.active hactive
    rw [hfollows.parked] at hclear
    rcases hmove.clear hclear with hclear | ⟨v, hv, halive⟩
    · exact h.cleared w hw hclear hactive'
    · obtain rfl := Option.some.inj (hv.symm.trans (h.numbered.probe hw))
      exact (h.honest v hw).sent halive hactive'
  · -- the watcher has just begun, and nobody has waited for it
    rcases hmove.clear hclear with hclear | ⟨v, hv, -⟩
    · have hknown := h.known w'.parked (.inr ⟨_, hclear, rfl⟩)
      rw [hid, getElem?_eq_none (Nat.le_refl _)] at hknown
      cases hknown
    · rw [hid, records, length_map, getElem?_eq_none (Nat.le_refl _)] at hv
      cases hv

theorem Watched.move (h : s.Watched) (hmove : s.Move act t) (hproper : s.Proper act) : t.Watched where
  honest w' hw' := by
    rcases hmove.follows hproper hw' with ⟨w, hw, hfollows⟩ | ⟨hborn, -⟩
    · exact hfollows.honest (h.honest w hw)
    · rw [hborn]
      exact ⟨fun _ => ⟨rfl, rfl⟩, nofun, nofun⟩
  numbered := h.numbered.move hmove
  known _ := h.known_move hmove
  owned _ := h.owned_move hmove hproper
  cleared _ := h.cleared_move hmove hproper

theorem length_move (h : s.conns.length ≤ idleMax) (hmove : s.Move act t) : t.conns.length ≤ idleMax := by
  cases hmove with
  | closeAll => exact Nat.zero_le _
  | park hcall hopen hp hsurplus =>
    rw [length_drop, hsurplus]
    omega
  | pop => exact Nat.le_trans (dropLast_sublist _).length_le h
  | remove => exact Nat.le_trans erase_sublist.length_le h
  | _ => exact h

/-- What holds in all states. -/
structure Kept (s : IdleSet) : Prop where
  length : s.conns.length ≤ idleMax
  placed : s.Placed
  watched : s.Watched

theorem Kept.step (h : s.Kept) (hproper : s.Proper act) (hs : step s act = some t) : t.Kept :=
  ⟨length_move h.length (step_move hs), h.placed.move (step_move hs) hproper, h.watched.move (step_move hs) hproper⟩

theorem kept_new : Kept {} where
  length := Nat.zero_le _
  placed := ⟨fun _ => rfl, fun _ => Nat.zero_le _⟩
  watched := by
    refine ⟨?_, ?_, ?_, ?_, ?_⟩
    · intro w hw
      cases hw
    · intro i p hp
      cases hp
    · rintro p (hp | ⟨call, hcall, -⟩)
      · cases hp
      · cases hcall
    · intro w hw
      cases hw
    · intro w hw
      cases hw

/-! ### Handing out -/

theorem Kept.hand (h : s.Kept) (hcall : s.calls[i]? = some (.clear p)) :
    ¬s.Holds p.conn ∧ s.shut p.conn = false ∧ ¬s.Consumed p.conn := by
  have honce := h.placed.once p.conn
  have hcalls := weigh_le (fun call => call.conns.count p.conn) hcall
  rw [IdleCall.conns, count_singleton_self] at hcalls
  rw [custody] at honce
  refine ⟨fun hmem => ?_, h.placed.open_of_call hcall mem_cons_self, ?_⟩
  · have hpos := count_pos_iff.mpr hmem
    omega
  · rintro ⟨w, hw, hconn, hconsumed⟩
    have hactive : w.Active := .inr (.inr hconsumed)
    rcases h.watched.owned w hw hactive with hclose | howned | ⟨call, hmem, hkeeps⟩ | hshut
    · obtain ⟨j, hj⟩ := mem_iff_getElem?.mp hw
      have hplace := weigh_le (place p.conn) hj
      rw [place_close hclose, hconn, count_singleton_self] at hplace
      omega
    · have hpos := count_pos_iff.mpr (hconn ▸ mem_map_of_mem howned : p.conn ∈ s.conns.map (·.conn))
      omega
    · obtain ⟨j, hj⟩ := mem_iff_getElem?.mp hmem
      rcases eq_or_ne j i with rfl | hne
      · obtain rfl := Option.some.inj (hj.symm.trans hcall)
        have hparked : w.parked = p := hkeeps
        exact h.watched.cleared w hw (hparked ▸ mem_of_getElem? hcall) hactive
      · have htwo := weigh_le_two (fun call => call.conns.count p.conn) hcall hj hne
        have hpos := count_pos_iff.mpr (hconn ▸ hkeeps.mem_conns : p.conn ∈ call.conns)
        rw [IdleCall.conns, count_singleton_self] at htwo
        omega
    · rw [hconn] at hshut
      cases hshut.symm.trans (h.placed.open_of_call hcall mem_cons_self)

theorem Move.handed (hmove : s.Move act t) (hc : s.handed c < t.handed c) :
    t.conns = s.conns ∧ t.handed c = s.handed c + 1 ∧
      ∃ (i : Nat) (p : ParkedConn), s.calls[i]? = some (.clear p) ∧ p.conn = c := by
  cases hmove with
  | @hand i ok p hcall =>
    rcases eq_or_ne c p.conn with rfl | hne
    · exact ⟨rfl, Function.update_self _ _ _, i, p, hcall, rfl⟩
    · exact absurd hc (Nat.not_lt_of_le (Nat.le_of_eq (Function.update_of_ne hne _ _)))
  | _ => exact absurd hc (Nat.lt_irrefl _)

theorem Move.fillers (hmove : s.Move act t) (hc : s.fillers c < t.fillers c) : s.Holds c := by
  cases hmove with
  | fill n =>
    have hpos : 0 < ((s.conns.take n).map (·.conn)).count c := Nat.pos_of_lt_add_right hc
    obtain ⟨p, hp, hconn⟩ := mem_map.mp (count_pos_iff.mp hpos)
    exact mem_map.mpr ⟨p, mem_of_mem_take hp, hconn⟩
  | _ => exact absurd hc (Nat.lt_irrefl _)

theorem Placed.not_holds (h : s.Placed)
    (hc : s.puts c = s.handed c ∨ (∃ call ∈ s.calls, ∃ p, call.parked? = some p ∧ p.conn = c) ∨ s.shut c = true) :
    ¬s.Holds c := by
  intro hmem
  have hpos := count_pos_iff.mpr hmem
  have hbalance := h.balance c
  have honce := h.once c
  rw [custody] at hbalance honce
  rcases hc with hcaller | ⟨call, hcall, p, hparked, rfl⟩ | hshut
  · omega
  · obtain ⟨i, hi⟩ := mem_iff_getElem?.mp hcall
    have hcalls := weigh_le (fun call => call.conns.count p.conn) hi
    have hcount := count_pos_iff.mpr (IdleCall.mem_conns_of_parked hparked)
    omega
  · rw [hshut, Bool.toNat_true] at honce
    omega

theorem Kept.hand_step (h : s.Kept) (hs : IdleSet.step s act = some t) (hc : s.handed c < t.handed c) :
    t.handed c = s.handed c + 1 ∧ s.puts c = s.handed c + 1 ∧
      ¬s.Holds c ∧ ¬t.Holds c ∧ s.shut c = false ∧ ¬s.Consumed c := by
  obtain ⟨hconns, hhanded, i, p, hcall, rfl⟩ := (step_move hs).handed hc
  obtain ⟨hholds, hshut, hconsumed⟩ := h.hand hcall
  have hweigh := weigh_le (fun call => call.conns.count p.conn) hcall
  rw [IdleCall.conns, count_singleton_self] at hweigh
  have hcustody : 1 ≤ s.custody p.conn := by
    rw [custody]
    omega
  refine ⟨hhanded, ?_, hholds, ?_, hshut, hconsumed⟩
  · rw [h.placed.balance p.conn, Nat.le_antisymm (h.placed.once p.conn) hcustody]
  · rw [Holds, hconns]
    exact hholds

end

/-- If callers put what they own, and a read that ends at the deadline has not read a byte: the set never has
    more than `idleMax` connections; a connection is handed out at most once for each put, only when it is not
    in the set, not closed by it, and no byte of it was read; and fillers are written only to connections in
    the set. -/
theorem idle_connections_have_one_owner (acts : List Act) (s : IdleSet) (hrun : Run step Proper {} acts s) :
    s.conns.length ≤ idleMax ∧
    (∀ c, s.handed c ≤ s.puts c ∧ s.puts c ≤ s.handed c + 1) ∧
    (∀ c, (s.puts c = s.handed c ∨ (∃ call ∈ s.calls, ∃ p, call.parked? = some p ∧ p.conn = c) ∨ s.shut c = true) →
      ¬s.Holds c) ∧
    ∀ act t, step s act = some t → ∀ c,
      (s.handed c < t.handed c → t.handed c = s.handed c + 1 ∧ s.puts c = s.handed c + 1 ∧
        ¬s.Holds c ∧ ¬t.Holds c ∧ s.shut c = false ∧ ¬s.Consumed c) ∧
      (s.fillers c < t.fillers c → s.Holds c) := by
  have hkept : s.Kept := hrun.invariant Kept.step kept_new
  refine ⟨hkept.length, fun c => ?_, fun c => hkept.placed.not_holds, fun act t hs c =>
    ⟨hkept.hand_step hs, (step_move hs).fillers⟩⟩
  have hbalance := hkept.placed.balance c
  have honce := hkept.placed.once c
  omega

def twicePutActs : List Act :=
  [.put 7, .next 0 true, .next 0 true, .fill 1, .take, .next 1 true, .next 1 true, .read 0 false true,
   .watch 0, .next 1 true,
    .next 1 true, .put 7, .next 2 true, .next 2 true, .read 1 true false, .watch 1, .watch 1, .watch 1]

theorem one_owner_twice_put : ∃ s, Run step Proper {} twicePutActs s ∧
    s.puts 7 = 2 ∧ s.handed 7 = 1 ∧ s.fillers 7 = 1 ∧ s.shut 7 = true ∧ s.conns = [] ∧ ¬s.Holds 7 := by
  refine Run.exists_of_exec (Q := fun s => s.puts 7 = 2 ∧ s.handed 7 = 1 ∧ s.fillers 7 = 1 ∧ s.shut 7 = true ∧
    s.conns = [])
    (by decide +kernel) ?_
  rintro s hrun ⟨hputs, hhanded, hfillers, hshut, hconns⟩
  obtain ⟨-, -, hholds, -⟩ := idle_connections_have_one_owner _ s hrun
  exact ⟨hputs, hhanded, hfillers, hshut, hconns, hholds 7 (.inr (.inr hshut))⟩

/-! ### The set in the model of the tunnel -/

/-- What `Tunnel` has for the steps of the set: a connection is put into it, the newest is taken out, the one
    at the place dies, or the set is closed or opened. -/
inductive TunnelAct
  | put (r : Route)
  | take
  | dies (i : Nat)
  | close
  | reopen
  deriving DecidableEq, Repr

/-- The tunnel after one of them. -/
def TunnelAct.next (u : Tunnel) : TunnelAct → Tunnel
  | .put r => u.put r
  | .take => { u with idle := u.idle.tail }
  | .dies i => { u with idle := u.idle.eraseIdx i }
  | .close => { u with idle := [], idleClosed := true }
  | .reopen => { u with idleClosed := false }

section
variable (route : Nat → Route)

/-- What a step of the call shows as: `put` and `take` show at their sections under the lock, and nothing else
    does. -/
def shownCall : IdleCall → Option TunnelAct
  | .put c => some (.put (route c))
  | .take => some .take
  | _ => none

/-- What the step shows as in the tunnel: of a watcher only that it removes its connection, at the place
    counted from the newest. -/
def shown (s : IdleSet) : Act → Option TunnelAct
  | .closeAll => some .close
  | .reopen => some .reopen
  | .next i _ => s.calls[i]?.bind (shownCall route)
  | .watch i => s.probes[i]?.bind fun w =>
    if w.pc = .remove ∧ w.parked ∈ s.conns then some (.dies (s.conns.length - 1 - s.conns.idxOf w.parked)) else none
  | _ => none

/-- A step of the set, with the tunnel that takes the step it shows as. -/
def seen (su : IdleSet × Tunnel) (act : Act) : Option (IdleSet × Tunnel) :=
  (step su.1 act).map fun t => (t, (su.1.shown route act).elim su.2 (TunnelAct.next su.2))

/-- The tunnel has the connections of the set, the newest first. -/
structure Shows (s : IdleSet) (u : Tunnel) : Prop where
  idle : u.idle = (s.conns.map fun p => route p.conn).reverse
  closed : u.idleClosed = s.closed

end

section
variable {route : Nat → Route} {s t : IdleSet} {u : Tunnel} {act : Act} {i c : Nat} {ok : Bool}
  {call : IdleCall} {w : Probe}

theorem Shows.same (h : Shows route s u) (hconns : t.conns = s.conns) (hclosed : t.closed = s.closed) :
    Shows route t u where
  idle := hconns ▸ h.idle
  closed := hclosed ▸ h.closed

theorem Shows.park (h : Shows route s u) : Shows route (s.park i c) (u.put (route c)) := by
  by_cases hclosed : s.closed = true
  · rw [IdleSet.park, if_pos hclosed, Tunnel.put, if_pos (h.closed.trans hclosed)]
    exact h.same rfl rfl
  · rw [IdleSet.park, if_neg hclosed, Tunnel.put, if_neg (h.closed ▸ hclosed)]
    refine ⟨?_, h.closed⟩
    -- the newest eight are the last of the set and the first of the tunnel
    have hcons : route c :: u.idle =
        ((s.conns ++ [ParkedConn.mk s.probes.length c]).map fun q => route q.conn).reverse := by
      rw [h.idle, map_append, reverse_append]
      rfl
    rw [hcons, take_reverse, length_map, map_drop]

theorem Shows.pop (h : Shows route s u) : Shows route (s.pop i) { u with idle := u.idle.tail } := by
  unfold IdleSet.pop
  split
  · rename_i hnone
    have hconns : s.conns = [] := getLast?_eq_none_iff.mp hnone
    exact ⟨by simp [setCall, h.idle, hconns], h.closed⟩
  · refine ⟨?_, h.closed⟩
    rw [h.idle, tail_reverse, map_dropLast]

theorem Shows.remove (h : Shows route s u) (hmem : p ∈ s.conns) :
    u.idle.eraseIdx (s.conns.length - 1 - s.conns.idxOf p) = ((s.conns.erase p).map fun q => route q.conn).reverse := by
  obtain ⟨older, newer, hnew, hconns, herase⟩ := exists_erase_eq hmem
  have hplace : s.conns.length - 1 - s.conns.idxOf p = (newer.map fun q => route q.conn).reverse.length := by
    rw [hconns, idxOf_append_of_notMem hnew, idxOf_cons_self, length_append, length_cons, length_reverse, length_map]
    omega
  rw [hplace, herase, h.idle, hconns, map_append, map_cons, reverse_append, reverse_cons, append_assoc,
    singleton_append,
    eraseIdx_append_of_length_le (Nat.le_refl _), Nat.sub_self, eraseIdx_cons_zero, map_append, reverse_append]

theorem Shows.stepCall (h : Shows route s u) (hs : s.stepCall i ok call = some t) :
    Shows route t ((shownCall route call).elim u (TunnelAct.next u)) := by
  cases call with
  | put c =>
    cases hs
    exact h.park
  | take =>
    cases hs
    exact h.pop
  | deadline p | drop p =>
    cases hs
    exact h.same rfl rfl
  | spawn id evict =>
    simp only [IdleSet.stepCall] at hs
    split at hs
    · cases hs
    · split at hs <;> cases hs
      exact h.same rfl rfl
  | clear p =>
    simp only [IdleSet.stepCall] at hs
    split at hs <;> cases hs <;> exact h.same rfl rfl
  | wait p =>
    simp only [IdleSet.stepCall, IdleSet.receive] at hs
    split at hs
    · split at hs
      · cases hs
      · split at hs <;> cases hs
        exact h.same rfl rfl
    · cases hs
      exact h.same rfl rfl
  | closing cs =>
    cases cs <;> cases hs <;> exact h.same rfl rfl
  | returned c => cases hs

theorem Shows.stepWatch (h : Shows route s u) (hw : s.probes[i]? = some w) (hs : s.stepWatch i w = some t) :
    Shows route t ((s.shown route (.watch i)).elim u (TunnelAct.next u)) := by
  simp only [shown, hw, Option.bind_some]
  cases hpc : w.pc with
  | born | read | done => simp [IdleSet.stepWatch, hpc] at hs
  | send alive =>
    simp only [IdleSet.stepWatch, hpc] at hs
    split at hs <;> cases hs
    exact h.same rfl rfl
  | remove =>
    simp only [IdleSet.stepWatch, hpc] at hs
    split at hs <;> cases hs
    · rename_i hmem
      rw [if_pos ⟨rfl, hmem⟩]
      exact ⟨h.remove hmem, h.closed⟩
    · rename_i hmem
      rw [if_neg fun hboth => hmem hboth.2]
      exact h.same rfl rfl
  | close =>
    simp only [IdleSet.stepWatch, hpc] at hs
    cases hs
    exact h.same rfl rfl

/-- Each step of the set shows in the tunnel as the one that `shown` names. -/
theorem Shows.step (h : Shows route s u) (hs : step s act = some t) :
    Shows route t ((s.shown route act).elim u (TunnelAct.next u)) := by
  cases act with
  | put c | take =>
    cases hs
    exact h.same rfl rfl
  | closeAll =>
    cases hs
    exact ⟨rfl, rfl⟩
  | reopen =>
    cases hs
    exact ⟨h.idle, rfl⟩
  | next i ok =>
    obtain ⟨call, hcall, hs⟩ := Option.bind_eq_some_iff.mp hs
    simp only [shown, hcall, Option.bind_some]
    exact h.stepCall hs
  | watch i =>
    obtain ⟨w, hw, hs⟩ := Option.bind_eq_some_iff.mp hs
    exact h.stepWatch hw hs
  | read i byte deadline =>
    simp only [IdleSet.step] at hs
    split at hs
    · cases hs
    · split at hs <;> cases hs
      exact h.same rfl rfl
  | fill n =>
    simp only [IdleSet.step, IdleSet.fill] at hs
    split at hs
    · split at hs <;> cases hs <;> exact h.same rfl rfl
    · cases hs
  | fillEnd =>
    simp only [IdleSet.step] at hs
    split at hs <;> cases hs
    exact h.same rfl rfl

end

/-- The tunnel that takes what the steps of the set show as has the connections of the set after each of them.
    -/
theorem tunnel_sees_idle_steps (route : Nat → Route) {acts : List Act} {s s' : IdleSet} {u : Tunnel}
    (hrun : AnyRun step s acts s') (h : Shows route s u) :
    ∃ u', AnyRun (seen route) (s, u) acts (s', u') ∧ Shows route s' u' := by
  induction hrun with
  | nil => exact ⟨u, .nil, h⟩
  | snoc _ _ hs ih =>
    obtain ⟨u₁, hrun₁, h₁⟩ := ih
    refine ⟨_, hrun₁.snoc trivial ?_, h₁.step hs⟩
    rw [seen, hs, Option.map_some]

def putDieTakeActs : List Act :=
  [.put 7, .next 0 true, .next 0 true, .put 8, .next 1 true, .next 1 true, .put 9, .next 2 true, .next 2 true,
    .read 1 true false, .watch 1, .watch 1, .take, .next 3 true]

theorem tunnel_sees_put_die_take : ∃ s, AnyRun step {} putDieTakeActs s ∧ s.conns.map (·.conn) = [7] ∧
    ∃ u, AnyRun (seen fun _ => .yadisk) ({}, { transport := "" }) putDieTakeActs (s, u) ∧
    Shows (fun _ => .yadisk) s u :=
  Run.exists_of_exec (Q := fun s => s.conns.map (·.conn) = [7]) (by decide +kernel) fun _ hrun hs =>
    ⟨hs, tunnel_sees_idle_steps _ hrun ⟨rfl, rfl⟩⟩

end IdleSet

end Whispera
