import Whispera.Lib.Processes
import Whispera.TcpTransport

/-! The increment of the counter and its load are two operations, so two connections can get one id. -/

namespace Whispera
open List Processes Transition

def ConnPc.holds (n : Nat) : ConnPc → Option Nat
  | .active | .load => some n
  | .store id | .opened id | .leave id | .delete id => some id
  | _ => none

namespace TcpTransport

/-- No call counts while another one is between its increment and its load. -/
def Alone (s : TcpTransport) : Act → Prop
  | .next i => s.calls[i]? = some .count → .active ∉ s.calls ∧ .load ∉ s.calls
  | _ => True

instance (s) (a) : Decidable (Alone s a) := by
  unfold Alone
  split <;> infer_instance

variable {maxConns : Int} {n i : Nat} {ps : List ConnPc} {p q : ConnPc} {s t : TcpTransport}

/-- No two calls hold the same id, and none is above `n`. -/
structure Ids (n : Nat) (ps : List ConnPc) : Prop where
  le : ∀ p ∈ ps, ∀ id, p.holds n = some id → id ≤ n
  one : ∀ (id j k : Nat) (p q : ConnPc), ps[j]? = some p → ps[k]? = some q → p.holds n = some id →
    q.holds n = some id → j = k

theorem Ids.set (h : Ids n ps) (hi : ps[i]? = some p) (hq : ∀ id, q.holds n = some id → p.holds n = some id) :
    Ids n (ps.set i q) where
  le r hr id hid := by
    rcases mem_or_eq_of_mem_set hr with hold | rfl
    · exact h.le r hold id hid
    · exact h.le p (mem_of_getElem? hi) id (hq id hid)
  one id _ _ _ _ := unique_set (h.one id) hi fun hp => .inl (hq id hp)

theorem Ids.begin (h : Ids n ps) (hq : q.holds n = none) : Ids n (ps ++ [q]) where
  le r hr id hid := by
    rcases mem_append.mp hr with hold | hnew
    · exact h.le r hold id hid
    · rw [mem_singleton.mp hnew, hq] at hid
      cases hid
  one id j k r r' hj hk hr hr' := by
    rcases get_begin_cases hj with hj | ⟨-, rfl⟩
    · rcases get_begin_cases hk with hk | ⟨-, rfl⟩
      · exact h.one id j k r r' hj hk hr hr'
      · cases hq.symm.trans hr'
    · cases hq.symm.trans hr

theorem Ids.count (h : Ids n ps) (hi : ps[i]? = some .count) (hactive : .active ∉ ps) (hload : .load ∉ ps) :
    Ids (n + 1) (ps.set i .active) := by
  have hsame : ∀ r ∈ ps, r.holds (n + 1) = r.holds n := by
    intro r hr
    cases r with
    | active => exact absurd hr hactive
    | load => exact absurd hr hload
    | _ => rfl
  have hle : ∀ r ∈ ps, ∀ id, r.holds (n + 1) = some id → id ≤ n := fun r hr id hid => h.le r hr id (hsame r hr ▸ hid)
  refine ⟨fun r hr id hid => ?_, fun id _ _ _ _ => unique_set (P := fun r => r.holds (n + 1) = some id)
    (fun j k r r' hj hk hr hr' => ?_) hi fun hp => .inr fun r hr hid => ?_⟩
  · rcases mem_or_eq_of_mem_set hr with hold | rfl
    · exact (hle r hold id hid).trans (Nat.le_succ n)
    · cases hid
      exact le_rfl
  · exact h.one id j k r r' hj hk (hsame r (mem_of_getElem? hj) ▸ hr) (hsame r' (mem_of_getElem? hk) ▸ hr')
  · cases hp
    exact absurd (hle r hr _ hid) (Nat.not_succ_le_self n)

/-- Ids differ, and each open connection is stored under its own. -/
structure Tracked (s : TcpTransport) : Prop where
  ids : Ids s.connCount s.calls
  stored : ∀ i id : Nat, s.calls[i]? = some (.opened id) → s.connections.lookup id = some i

theorem Tracked.others (h : s.Tracked) (hi : s.calls[i]? = some p) (hq : ∀ id, q ≠ .opened id) {j id : Nat}
    (hj : (s.calls.set i q)[j]? = some (.opened id)) : s.connections.lookup id = some j ∧
    p.holds s.connCount ≠ some id := by
  rcases get_set_cases hi hj with ⟨-, hid⟩ | ⟨hne, hj⟩
  · exact absurd hid.symm (hq id)
  · exact ⟨h.stored j id hj, fun hp => hne (h.ids.one id j i _ p hj hi rfl hp)⟩

theorem Tracked.step {a : Act} (h : s.Tracked) (ha : s.Alone a) (hs : s.step maxConns a = some t) : t.Tracked := by
  cases a with
  | begin accept =>
    cases hs
    refine ⟨h.ids.begin (by cases accept <;> rfl), fun j id hj => ?_⟩
    rcases get_begin_cases hj with hj | ⟨-, hj⟩
    · exact h.stored j id hj
    · cases accept <;> cases hj
  | close i =>
    simp only [TcpTransport.step] at hs
    split at hs <;> cases hs
    rename_i id hi
    exact ⟨h.ids.set hi fun _ hid => hid, fun j id hj => (h.others hi (by simp) hj).1⟩
  | next i =>
    simp only [TcpTransport.step, Option.bind_eq_bind, Option.pure_def, Option.bind_eq_some_iff] at hs
    obtain ⟨p, hi, ⟨q, u⟩, hadvance, hs⟩ := hs
    cases hs
    cases p with
    | check =>
      cases hadvance
      refine ⟨h.ids.set hi fun id hid => ?_, fun j id hj => (h.others hi (fun _ => by split <;> nofun) hj).1⟩
      split at hid <;> cases hid
    | count =>
      cases hadvance
      obtain ⟨hactive, hload⟩ := ha hi
      exact ⟨h.ids.count hi hactive hload, fun j id hj => (h.others hi (by simp) hj).1⟩
    | active | load | leave id =>
      cases hadvance
      exact ⟨h.ids.set hi fun _ hid => hid, fun j id hj => (h.others hi (by simp) hj).1⟩
    | shut =>
      cases hadvance
      exact ⟨h.ids.set hi nofun, fun j id hj => (h.others hi (by simp) hj).1⟩
    | store id =>
      cases hadvance
      refine ⟨h.ids.set hi fun _ hid => hid, fun j id' hj => ?_⟩
      rcases get_set_cases hi hj with ⟨rfl, hid⟩ | ⟨hne, hj⟩
      · cases hid
        rw [AList.lookup_insert]
      · rw [AList.lookup_insert_ne fun hid => hne (h.ids.one id' j i _ _ hj hi rfl (congrArg some hid.symm))]
        exact h.stored j id' hj
    | delete id =>
      cases hadvance
      refine ⟨h.ids.set hi nofun, fun j id' hj => ?_⟩
      obtain ⟨hstored, hne⟩ := h.others hi (by simp) hj
      rw [AList.lookup_erase_ne fun hid => hne (congrArg some hid.symm)]
      exact hstored
    | opened id | closed => cases hadvance

/-- Open connections have their own ids, and `Stop` finds them, as long as no call counts between the
    increment and the load of another. -/
theorem open_connections_are_tracked {acts : List Act} (h : Run (step maxConns) Alone {} acts s) :
    (∀ i j id : Nat, s.calls[i]? = some (.opened id) → s.calls[j]? = some (.opened id) → i = j) ∧
      ∀ i id : Nat, s.calls[i]? = some (.opened id) → s.connections.lookup id = some i ∧ i ∈ s.stop := by
  have htracked : s.Tracked := h.invariant (fun ht ha hs => ht.step ha hs) ⟨⟨nofun, nofun⟩, nofun⟩
  refine ⟨fun i j id hi hj => htracked.ids.one id i j _ _ hi hj rfl rfl, fun i id hi => ?_⟩
  have hstored := htracked.stored i id hi
  exact ⟨hstored, mem_map.mpr ⟨⟨id, i⟩, of_mem_dlookup hstored, rfl⟩⟩

theorem open_connections_are_tracked_two :
    ∃ s, Run (step 10) Alone {} [.begin false, .next 0, .next 0, .next 0, .begin true, .next 1, .next 0,
      .next 1, .next 1, .next 1, .next 1] s ∧
      s.connections.lookup 1 = some 0 ∧ s.connections.lookup 2 = some 1 := by
  refine Run.exists_of_exec (Q := fun s => s.calls[0]? = some (.opened 1) ∧ s.calls[1]? = some (.opened 2))
    (by decide +kernel) ?_
  rintro s hrun ⟨h0, h1⟩
  exact ⟨((open_connections_are_tracked hrun).2 0 1 h0).1, ((open_connections_are_tracked hrun).2 1 2 h1).1⟩

/-- Two calls count before either loads the counter. -/
theorem one_id_for_two : ∃ s, AnyRun (step 10) {} [.begin false, .begin false, .next 0, .next 1, .next 0,
    .next 1, .next 0, .next 1,
    .next 0, .next 1] s ∧ s.calls[0]? = some (.opened 2) ∧ s.calls[1]? = some (.opened 2) ∧ s.stop = [1] :=
  AnyRun.exists_of_exec (by decide +kernel)

end TcpTransport

end Whispera
