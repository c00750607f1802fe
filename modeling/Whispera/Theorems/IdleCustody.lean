import Whispera.IdleSet
import Whispera.Lib.Processes

/-! A connection is at one place at a time: with `put`, in the set, with the `take` that popped it, with a
call or a watcher that is to close it, or closed, until `take` has handed it out. -/

namespace Whispera
open List Processes
open Tunnel (idleMax)

def IdleCall.conns : IdleCall → List Nat
  | .put c => [c]
  | .spawn _ evict => evict
  | .deadline p | .wait p | .clear p | .drop p => [p.conn]
  | .closing cs => cs
  | .take | .returned _ => []

def IdleCall.parked? : IdleCall → Option ParkedConn
  | .deadline p | .wait p | .clear p | .drop p => some p
  | _ => none

def IdleCall.Keeps (p : ParkedConn) : IdleCall → Prop
  | .spawn _ evict => p.conn ∈ evict
  | .deadline q | .wait q | .clear q | .drop q => p = q
  | .closing cs => p.conn ∈ cs
  | .put _ | .take | .returned _ => False

variable {p : ParkedConn} {call : IdleCall}

theorem IdleCall.Keeps.mem_conns (h : call.Keeps p) : p.conn ∈ call.conns := by
  cases call with
  | spawn _ _ | closing _ => exact h
  | deadline _ | wait _ | clear _ | drop _ => exact mem_singleton.mpr (congrArg ParkedConn.conn h)
  | put _ | take | returned _ => exact h.elim

theorem IdleCall.mem_conns_of_parked (h : call.parked? = some p) : p.conn ∈ call.conns := by
  cases call with
  | deadline _ | wait _ | clear _ | drop _ =>
    cases h
    exact mem_singleton_self _
  | _ => cases h

namespace IdleSet

/-- Callers put what they own: what was handed out as often as it was put. A read that ends at the deadline
    has not read a byte. -/
def Proper (s : IdleSet) : Act → Prop
  | .put c => s.puts c = s.handed c
  | .read _ byte deadline => deadline = true → byte = false
  | _ => True

instance (s : IdleSet) (act) : Decidable (s.Proper act) := by
  unfold Proper
  split <;> infer_instance

/-- What a step of the set does. -/
inductive Move (s : IdleSet) : Act → IdleSet → Prop
  | put (c : Nat) (filling : FillLoop) : Move s (.put c)
      { s with filling, calls := s.calls ++ [.put c], puts := Function.update s.puts c (s.puts c + 1) }
  | take : Move s .take { s with calls := s.calls ++ [.take] }
  | closeAll : Move s .closeAll { s with
      conns := [], closed := true, calls := s.calls ++ [.closing (s.conns.map (·.conn))] }
  | reopen : Move s .reopen { s with closed := false }
  | quiet (act : Act) (filling : FillLoop) : Move s act { s with filling }
  | fill (n : Nat) : Move s (.fill n)
      { s with fillers := fun c => s.fillers c + ((s.conns.take n).map (·.conn)).count c }
  /-- The call keeps its connection, gets no parked one, and does not go on to clear the deadline. -/
  | turn {i : Nat} {ok : Bool} {call call' : IdleCall} (hcall : s.calls[i]? = some call)
      (hconns : call'.conns = call.conns)
      (hkeeps : ∀ p, call.Keeps p → call'.Keeps p) (hparked : ∀ p, call'.parked? = some p → call.parked? = some p)
      (hclear : ∀ p, call' ≠ .clear p) : Move s (.next i ok) (s.setCall i call')
  | park {i : Nat} {ok : Bool} {c surplus : Nat} {p : ParkedConn} (hcall : s.calls[i]? = some (.put c))
      (hopen : s.closed = false) (hp : p = { id := s.probes.length, conn := c })
      (hsurplus : surplus = (s.conns ++ [p]).length - idleMax) : Move s (.next i ok)
      { s with
        conns := (s.conns ++ [p]).drop surplus
        probes := s.probes ++ [{ parked := p }]
        calls := s.calls.set i (.spawn p.id (((s.conns ++ [p]).take surplus).map (·.conn))) }
  | spawn {i id : Nat} {ok : Bool} {evict : List Nat} {w : Probe} (hcall : s.calls[i]? = some (.spawn id evict))
      (hw : s.probes[id]? = some w) (hborn : w.pc = .born) : Move s (.next i ok)
      ((s.setProbe id { w with pc := .read }).setCall i (.closing evict))
  | pop {i : Nat} {ok : Bool} {p : ParkedConn} (hcall : s.calls[i]? = some .take)
      (hlast : s.conns = s.conns.dropLast ++ [p]) :
      Move s (.next i ok) { s with conns := s.conns.dropLast, calls := s.calls.set i (.deadline p) }
  | receive {i : Nat} {ok : Bool} {p : ParkedConn} {w : Probe} {alive : Bool} (hcall : s.calls[i]? = some (.wait p))
      (hw : s.probes[p.id]? = some w) (halive : w.alive = some alive) : Move s (.next i ok)
      ((s.setProbe p.id { w with alive := none }).setCall i (if alive then .clear p else .drop p))
  | hand {i : Nat} {ok : Bool} {p : ParkedConn} (hcall : s.calls[i]? = some (.clear p)) : Move s (.next i ok)
      { s with
        handed := Function.update s.handed p.conn (s.handed p.conn + 1)
        calls := s.calls.set i (.returned (some p.conn)) }
  | close {i : Nat} {ok : Bool} {c : Nat} {call call' : IdleCall} (hcall : s.calls[i]? = some call)
      (hconns : call.conns = c :: call'.conns) (hkeeps : ∀ p, call.Keeps p → call'.Keeps p ∨ p.conn = c)
      (hparked : call'.parked? = none) : Move s (.next i ok) ((s.close c).setCall i call')
  | read {i : Nat} {w : Probe} {byte deadline : Bool} (hw : s.probes[i]? = some w) (hread : w.pc = .read) :
      Move s (.read i byte deadline) (s.setProbe i { w with pc := .send deadline, consumed := byte })
  | send {i : Nat} {w : Probe} {alive : Bool} (hw : s.probes[i]? = some w)
      (hsend : w.pc = .send alive) : Move s (.watch i)
      (s.setProbe i { w with alive := some alive, pc := if alive then .done else .remove })
  | remove {i : Nat} {w : Probe} (hw : s.probes[i]? = some w) (hremove : w.pc = .remove) (hmem : w.parked ∈ s.conns) :
      Move s (.watch i) { s with conns := s.conns.erase w.parked, probes := s.probes.set i { w with pc := .close } }
  | late {i : Nat} {w : Probe} (hw : s.probes[i]? = some w) (hremove : w.pc = .remove) : Move s (.watch i)
      (s.setProbe i { w with pc := .done })
  | closeProbe {i : Nat} {w : Probe} (hw : s.probes[i]? = some w) (hclose : w.pc = .close) : Move s (.watch i)
      ((s.close w.parked.conn).setProbe i { w with pc := .done })

section
variable {s t : IdleSet} {i : Nat} {ok : Bool} {act : Act}

variable {c : Nat} {w : Probe}

theorem park_move (hcall : s.calls[i]? = some (.put c)) : s.Move (.next i ok) (s.park i c) := by
  unfold park
  split
  · exact .turn hcall rfl (fun _ hp => hp.elim) nofun nofun
  · exact .park hcall (Bool.eq_false_iff.mpr ‹_›) rfl rfl

theorem pop_move (hcall : s.calls[i]? = some .take) : s.Move (.next i ok) (s.pop i) := by
  unfold pop
  split
  · exact .turn hcall rfl (fun _ hp => hp.elim) nofun nofun
  · rename_i p hlast
    exact .pop hcall (dropLast_append_getLast? p hlast).symm

theorem receive_move (hcall : s.calls[i]? = some (.wait p)) (h : s.receive i p = some t) : s.Move (.next i ok) t := by
  unfold receive at h
  split at h
  · cases h
  rename_i w hw
  split at h <;> cases h
  rename_i alive halive
  exact .receive hcall hw halive

theorem turn_take {call' : IdleCall} (hcall : s.calls[i]? = some call)
    (h : call = .deadline p ∨ call = .wait p ∨ call = .clear p) (h' : call' = .wait p ∨ call' = .drop p) :
    s.Move (.next i ok) (s.setCall i call') := by
  rcases h with rfl | rfl | rfl <;> rcases h' with rfl | rfl <;>
    exact .turn hcall rfl (fun _ hp => hp) (fun _ hp => hp) nofun

theorem stepCall_move (hcall : s.calls[i]? = some call) (h : s.stepCall i ok call = some t) :
    s.Move (.next i ok) t := by
  cases call with
  | put c =>
    cases h
    exact park_move hcall
  | spawn id evict =>
    simp only [stepCall] at h
    split at h
    · cases h
    · rename_i w hw
      split at h <;> cases h
      exact .spawn hcall hw ‹_›
  | take =>
    cases h
    exact pop_move hcall
  | deadline p =>
    cases h
    refine turn_take hcall (.inl rfl) ?_
    split
    · exact .inl rfl
    · exact .inr rfl
  | wait p =>
    simp only [stepCall] at h
    split at h
    · exact receive_move hcall h
    · cases h
      exact turn_take hcall (.inr (.inl rfl)) (.inr rfl)
  | clear p =>
    simp only [stepCall] at h
    split at h <;> cases h
    · exact .hand hcall
    · exact turn_take hcall (.inr (.inr rfl)) (.inr rfl)
  | drop p =>
    cases h
    exact .close hcall rfl (fun q hq => .inr (congrArg ParkedConn.conn hq)) rfl
  | closing cs =>
    cases cs with
    | nil =>
      cases h
      exact .turn hcall rfl nofun nofun nofun
    | cons c cs =>
      cases h
      exact .close hcall rfl (fun q hq => (mem_cons.mp hq).symm) rfl
  | returned _ => cases h

theorem stepWatch_move (hw : s.probes[i]? = some w) (h : s.stepWatch i w = some t) : s.Move (.watch i) t := by
  unfold stepWatch at h
  split at h <;> try cases h
  · split at h <;> cases h
    exact .send hw ‹_›
  · split at h <;> cases h
    · exact .remove hw ‹_› ‹_›
    · exact .late hw ‹_›
  · exact .closeProbe hw ‹_›

theorem step_move (h : step s act = some t) : s.Move act t := by
  -- one goal for each way through `step` that leads to a state, in the order of its cases
  cases act <;> simp only [step] at h <;> (try split at h) <;> try cases h
  · exact .put _ _
  · exact .put _ _
  · exact .take
  · exact .closeAll
  · exact .reopen
  · obtain ⟨call, hcall, h⟩ := Option.bind_eq_some_iff.mp h
    exact stepCall_move hcall h
  · split at h <;> cases h
    exact .read ‹_› ‹_›
  · obtain ⟨w, hw, h⟩ := Option.bind_eq_some_iff.mp h
    exact stepWatch_move hw h
  · unfold fill
    split
    · exact .quiet _ _
    · exact .fill _
  · exact .quiet _ _

def place (c : Nat) (w : Probe) : Nat := if w.pc = .close ∧ w.parked.conn = c then 1 else 0

def custody (s : IdleSet) (c : Nat) : Nat :=
  weigh (fun call => call.conns.count c) s.calls + (s.conns.map (·.conn)).count c + weigh (place c) s.probes +
    (s.shut c).toNat

theorem custody_begin (s : IdleSet) (call : IdleCall) (c : Nat) :
    { s with calls := s.calls ++ [call] }.custody c = s.custody c + call.conns.count c := by
  have hweigh := weigh_begin (fun call => call.conns.count c) s.calls call
  simp only [custody]
  omega

theorem custody_setCall (hcall : s.calls[i]? = some call) (call' : IdleCall) (c : Nat) :
    (s.setCall i call').custody c + call.conns.count c = s.custody c + call'.conns.count c := by
  have hweigh := weigh_set (fun call => call.conns.count c) hcall call'
  simp only [custody, setCall]
  omega

theorem custody_setProbe (hw : s.probes[i]? = some w) (w' : Probe) (c : Nat) :
    (s.setProbe i w').custody c + place c w = s.custody c + place c w' := by
  have hweigh := weigh_set (place c) hw w'
  simp only [custody, setProbe]
  omega

theorem custody_conns (s : IdleSet) (l : List ParkedConn) (c : Nat) :
    { s with conns := l }.custody c + (s.conns.map (·.conn)).count c = s.custody c + (l.map (·.conn)).count c := by
  simp only [custody]
  omega

theorem count_of_ne {d : Nat} (h : c ≠ d) : [d].count c = 0 := count_eq_zero.mpr fun hc => h (mem_singleton.mp hc)

theorem custody_close {d : Nat} (hopen : s.shut d = false) (c : Nat) :
    (s.close d).custody c = s.custody c + [d].count c := by
  simp only [custody, IdleSet.close]
  rcases eq_or_ne c d with rfl | hne
  · rw [Function.update_self, hopen, count_singleton_self]
    rfl
  · rw [Function.update_of_ne hne, count_of_ne hne]
    rfl

theorem update_succ (f : Nat → Nat) (d c : Nat) : Function.update f d (f d + 1) c = f c + [d].count c := by
  rcases eq_or_ne c d with rfl | hne
  · rw [Function.update_self, count_singleton_self]
  · rw [Function.update_of_ne hne, count_of_ne hne, add_zero]

theorem place_of_ne (h : w.pc ≠ .close) (c : Nat) : place c w = 0 := if_neg fun hw => h hw.1

theorem place_close (h : w.pc = .close) (c : Nat) : place c w = [w.parked.conn].count c := by
  rcases eq_or_ne c w.parked.conn with rfl | hne
  · rw [count_singleton_self]
    exact if_pos ⟨h, rfl⟩
  · rw [count_of_ne hne]
    exact if_neg fun hw => hne hw.2.symm

/-- A connection that was put is in one place until handed out. -/
structure Placed (s : IdleSet) : Prop where
  balance : ∀ c, s.puts c = s.handed c + s.custody c
  once : ∀ c, s.custody c ≤ 1

section
variable (h : s.Placed)
include h

theorem Placed.of_custody (hputs : t.puts = s.puts) (hhanded : t.handed = s.handed)
    (hcustody : ∀ c, t.custody c = s.custody c) : t.Placed where
  balance c := by rw [hputs, hhanded, hcustody, h.balance]
  once c := hcustody c ▸ h.once c

theorem Placed.open_of_custody {n : Nat} (hpos : 0 < n) (hle : n + (s.shut c).toNat ≤ s.custody c) :
    s.shut c = false := by
  have honce := h.once c
  cases hshut : s.shut c with
  | false => rfl
  | true =>
    rw [hshut, Bool.toNat_true] at hle
    omega

theorem Placed.open_of_call (hcall : s.calls[i]? = some call) (hc : c ∈ call.conns) : s.shut c = false := by
  refine h.open_of_custody (count_pos_iff.mpr hc) ?_
  have hle := weigh_le (fun call => call.conns.count c) hcall
  rw [custody]
  omega

theorem Placed.open_of_probe (hw : s.probes[i]? = some w) (hclose : w.pc = .close) : s.shut w.parked.conn = false := by
  refine h.open_of_custody Nat.one_pos ?_
  have hle := weigh_le (place w.parked.conn) hw
  rw [place_close hclose, count_singleton_self] at hle
  rw [custody]
  omega

theorem Placed.setProbe (w' : Probe) (hw : s.probes[i]? = some w) (hpc : w.pc ≠ .close)
    (hpc' : w'.pc ≠ .close) : (s.setProbe i w').Placed := by
  refine h.of_custody rfl rfl fun c => ?_
  have hset := custody_setProbe hw w' c
  rwa [place_of_ne hpc, place_of_ne hpc'] at hset

theorem Placed.setCall {call' : IdleCall} (hcall : s.calls[i]? = some call)
    (hconns : call'.conns = call.conns) : (s.setCall i call').Placed := by
  refine h.of_custody rfl rfl fun c => ?_
  have hset := custody_setCall hcall call' c
  rw [hconns] at hset
  exact add_right_cancel hset

theorem Placed.put {d : Nat} (hput : s.puts d = s.handed d) (filling : FillLoop) : Placed { s with
    filling, calls := s.calls ++ [.put d], puts := Function.update s.puts d (s.puts d + 1) } := by
  have hcustody : ∀ c, IdleSet.custody { s with
      filling, calls := s.calls ++ [.put d], puts := Function.update s.puts d (s.puts d + 1) } c =
      s.custody c + [d].count c := custody_begin s (.put d)
  constructor
  · intro c
    rw [hcustody, ← add_assoc]
    exact (update_succ _ _ _).trans (congrArg (· + _) (h.balance c))
  · intro c
    have hbalance := h.balance c
    rw [hcustody]
    rcases eq_or_ne c d with rfl | hne
    · rw [count_singleton_self]
      omega
    · rw [count_of_ne hne]
      exact h.once c

theorem Placed.park {surplus : Nat} (hcall : s.calls[i]? = some (.put c)) (hpc : w.pc ≠ .close)
    (hconn : w.parked.conn = c) : Placed { s with
      conns := (s.conns ++ [w.parked]).drop surplus
      probes := s.probes ++ [w]
      calls := s.calls.set i (.spawn w.parked.id (((s.conns ++ [w.parked]).take surplus).map (·.conn))) } := by
  refine h.of_custody rfl rfl fun d => ?_
  have hweigh := weigh_begin (place d) s.probes w
  rw [place_of_ne hpc] at hweigh
  have hset := custody_setCall hcall (.spawn w.parked.id (((s.conns ++ [w.parked]).take surplus).map (·.conn))) d
  have hsplit : ((s.conns ++ [w.parked]).map (·.conn)).count d =
      (((s.conns ++ [w.parked]).take surplus).map (·.conn)).count d +
        (((s.conns ++ [w.parked]).drop surplus).map (·.conn)).count d := by
    rw [← count_append, ← map_append, take_append_drop]
  rw [map_append, count_append, map_singleton, hconn] at hsplit
  simp only [custody, IdleSet.setCall, IdleCall.conns] at *
  omega

theorem Placed.hand (hcall : s.calls[i]? = some (.clear p)) : Placed { s with
    handed := Function.update s.handed p.conn (s.handed p.conn + 1)
    calls := s.calls.set i (.returned (some p.conn)) } := by
  have hcustody : ∀ c, IdleSet.custody { s with
      handed := Function.update s.handed p.conn (s.handed p.conn + 1)
      calls := s.calls.set i (.returned (some p.conn)) } c + [p.conn].count c = s.custody c :=
    custody_setCall hcall (.returned (some p.conn))
  constructor
  · intro c
    refine ((h.balance c).trans ?_).trans (congrArg (· + _) (update_succ s.handed p.conn c).symm)
    rw [← hcustody c, add_assoc, add_comm (List.count c _)]
  · intro c
    have honce := h.once c
    have := hcustody c
    omega

theorem Placed.pop (hcall : s.calls[i]? = some .take) (hlast : s.conns = s.conns.dropLast ++ [p]) :
    Placed { s with conns := s.conns.dropLast, calls := s.calls.set i (.deadline p) } := by
  refine h.of_custody rfl rfl fun c => ?_
  have hset : IdleSet.custody { s with conns := s.conns.dropLast, calls := s.calls.set i (.deadline p) } c =
      IdleSet.custody { s with conns := s.conns.dropLast } c + [p.conn].count c :=
    custody_setCall (s := { s with conns := s.conns.dropLast }) hcall (.deadline p) c
  have hconns := custody_conns s s.conns.dropLast c
  have hsplit : (s.conns.map (·.conn)).count c = (s.conns.dropLast.map (·.conn)).count c + [p.conn].count c := by
    rw [← count_append, ← map_singleton, ← map_append, ← hlast]
  omega

theorem Placed.remove (hw : s.probes[i]? = some w) (hpc : w.pc ≠ .close) (hmem : w.parked ∈ s.conns) :
    Placed { s with conns := s.conns.erase w.parked, probes := s.probes.set i { w with pc := .close } } := by
  refine h.of_custody rfl rfl fun c => ?_
  have hset : IdleSet.custody { s with
    conns := s.conns.erase w.parked, probes := s.probes.set i { w with pc := .close } } c +
      place c w = IdleSet.custody { s with conns := s.conns.erase w.parked } c + place c { w with pc := .close } :=
    custody_setProbe (s := { s with conns := s.conns.erase w.parked }) hw _ c
  have hplace : place c { w with pc := .close } = [w.parked.conn].count c := place_close rfl c
  rw [place_of_ne hpc, hplace] at hset
  have hconns := custody_conns s (s.conns.erase w.parked) c
  have hsplit : (s.conns.map (·.conn)).count c =
      ((s.conns.erase w.parked).map (·.conn)).count c + [w.parked.conn].count c := by
    rw [((perm_cons_erase hmem).map _).count_eq, map_cons, count_cons, count_singleton]
  omega

theorem Placed.move (hmove : s.Move act t) (hproper : s.Proper act) : t.Placed := by
  cases hmove with
  | put d filling => exact h.put hproper filling
  | take => exact h.of_custody rfl rfl (custody_begin s .take)
  | closeAll =>
    refine h.of_custody rfl rfl fun c => ?_
    have hbegin := custody_begin { s with conns := [] } (.closing (s.conns.map (·.conn))) c
    exact hbegin.trans (custody_conns s [] c)
  | reopen | quiet filling | fill n => exact h.of_custody rfl rfl fun _ => rfl
  | turn hcall hconns => exact h.setCall hcall hconns
  | @park i ok c surplus p hcall hopen hp hsurplus =>
    exact h.park (w := { parked := p }) hcall nofun (congrArg ParkedConn.conn hp)
  | @spawn i id ok evict w hcall hw hborn =>
    have hprobe := h.setProbe { w with pc := .read } hw (fun hpc => nomatch hborn.symm.trans hpc) nofun
    exact hprobe.setCall hcall rfl
  | pop hcall hlast => exact h.pop hcall hlast
  | @receive i ok p w alive hcall hw halive =>
    have hcustody := custody_setProbe hw { w with alive := none }
    have hprobe : (s.setProbe p.id { w with alive := none }).Placed :=
      h.of_custody rfl rfl fun c => add_right_cancel (hcustody c)
    refine hprobe.setCall hcall ?_
    split <;> rfl
  | hand hcall => exact h.hand hcall
  | @close i ok d call call' hcall hconns hkeeps hparked =>
    refine h.of_custody rfl rfl fun c => ?_
    have hopen := h.open_of_call hcall (hconns ▸ mem_cons_self)
    have hset := custody_setCall (s := s.close d) hcall call' c
    have hclose := custody_close hopen c
    rw [hconns, ← singleton_append, count_append] at hset
    omega
  | read hw hread => exact h.setProbe _ hw (fun hpc => nomatch hread.symm.trans hpc) nofun
  | @send i w alive hw hsend =>
    refine h.setProbe _ hw (fun hpc => nomatch hsend.symm.trans hpc) ?_
    cases alive with
    | false | true => exact nofun
  | remove hw hremove hmem => exact h.remove hw (fun hpc => nomatch hremove.symm.trans hpc) hmem
  | late hw hremove => exact h.setProbe _ hw (fun hpc => nomatch hremove.symm.trans hpc) nofun
  | @closeProbe i w hw hclose =>
    refine h.of_custody rfl rfl fun c => ?_
    have hset := custody_setProbe (s := s.close w.parked.conn) hw { w with pc := .done } c
    have hclosed := custody_close (h.open_of_probe hw hclose) c
    rw [place_close hclose, place_of_ne (w := { w with pc := .done }) nofun] at hset
    omega

end

end

end IdleSet

end Whispera
