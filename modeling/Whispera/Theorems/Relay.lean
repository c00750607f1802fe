import Whispera.Relay
import Whispera.Lib.Transition

/-! Every byte that can still reach the other end is counted (`carried`); only the two closes drop any of
them. -/

namespace Whispera
open List Reader Transition

theorem Side.other_ne (i : Side) : i.other ≠ i := by
  cases i <;> decide

theorem Side.eq_other {i j : Side} (h : j ≠ i) : j = i.other := by
  cases i <;> cases j <;> first | rfl | exact absurd rfl h

@[simp] theorem Side.other_other (i : Side) : i.other.other = i := by
  cases i <;> rfl

def PumpPc.held : PumpPc → Bytes
  | .write data _ => data
  | _ => []

@[simp] theorem PumpPc.held_read : PumpPc.read.held = [] := rfl

@[simp] theorem PumpPc.held_write (data : Bytes) (err : Option Err) : (PumpPc.write data err).held = data := rfl

@[simp] theorem PumpPc.held_next (data : Bytes) (err : Option Err) : (PumpPc.next data err).held = data := by
  unfold PumpPc.next
  split
  · rename_i h
    cases err <;> exact h.symm
  · rfl

theorem PumpPc.next_ne_stopped (data : Bytes) (err : Option Err) : PumpPc.next data err ≠ .stopped := by
  unfold PumpPc.next
  split
  · cases err <;> simp
  · simp

variable {a : RelayAct}

namespace Relay

/-- What a step of the relay does. -/
inductive Step (s : Relay) : RelayAct → Relay → Prop
  | read {i : Side} : s.pump i = .read → Step s (.read i) (s.read i)
  | write {i : Side} {data : Bytes} {err : Option Err} (k : Nat) : s.pump i = .write data err →
      Step s (.write i k) (s.write i k data err)
  | signal {i : Side} : s.pump i = .signal → Step s (.signal i) { s.setPump i .stopped with done := s.done + 1 }
  | first : s.main = .first → 0 < s.done → Step s .main { s with done := s.done - 1, main := .closeA }
  | closeA : s.main = .closeA → Step s .main { s.close .a with main := .closeB }
  | closeB : s.main = .closeB → Step s .main { s.close .b with main := .second }
  | second : s.main = .second → 0 < s.done → Step s .main { s with done := s.done - 1, main := .returned }

variable {s s' : Relay} {i j : Side}

@[simp] theorem setPump_conn (s : Relay) (i : Side) (pc : PumpPc) : (s.setPump i pc).conn = s.conn := rfl

@[simp] theorem setPump_self (s : Relay) (i : Side) (pc : PumpPc) : (s.setPump i pc).pump i = pc := by
  simp [setPump]

theorem setPump_ne (h : j ≠ i) (pc : PumpPc) : (s.setPump i pc).pump j = s.pump j := by
  simp [setPump, h]

@[simp] theorem setConn_pump (s : Relay) (i : Side) (c : RelayConn) : (s.setConn i c).pump = s.pump := rfl

@[simp] theorem setConn_self (s : Relay) (i : Side) (c : RelayConn) : (s.setConn i c).conn i = c := by
  simp [setConn]

theorem setConn_ne (h : j ≠ i) (c : RelayConn) : (s.setConn i c).conn j = s.conn j := by
  simp [setConn, h]

theorem step_inv (h : s.step a = some s') : Step s a s' := by
  -- one goal for each way through `step` that leads to a state, in the order of its cases
  cases a <;> simp only [step] at h <;> split at h <;> try cases h
  · exact .read ‹_›
  · exact .write _ ‹_›
  · exact .signal ‹_›
  · split at h <;> cases h
    exact .first ‹_› ‹_›
  · exact .closeA ‹_›
  · exact .closeB ‹_›
  · split at h <;> cases h
    exact .second ‹_› ‹_›

theorem read_open (hopen : (s.conn i).closed = false) : ∃ data err inp,
    s.read i = (s.setConn i { s.conn i with inp }).setPump i (.next data err) ∧
      (s.conn i).inp.bytes = data ++ inp.bytes ∧ (data = [] → err ≠ none) := by
  obtain ⟨data, err, inp, xs, hread, -, hbytes, hcase⟩ :=
    Stream.yields (s := (s.conn i).inp) bufSize ⟨rfl, rfl⟩ (by decide)
  refine ⟨data, err, inp, ?_, ?_, ?_⟩
  · simp [read, hopen, hread]
  · rcases hcase with ⟨-, -, hinp, -⟩ | ⟨-, rfl, hinp, -⟩
    · rw [hinp, hbytes]
    · rw [hinp, hbytes]
  · rintro rfl
    rcases hcase with ⟨-, hne, -⟩ | ⟨rfl, -⟩
    · exact absurd rfl hne
    · simp

theorem read_closed (hclosed : (s.conn i).closed = true) : s.read i = s.setPump i .signal := if_pos hclosed

theorem write_open (hopen : (s.conn i.other).closed = false) (k : Nat) (data : Bytes) (err : Option Err) :
    s.write i k data err =
      (s.setConn i.other { s.conn i.other with out := (s.conn i.other).out ++ data.take (k + 1) }).setPump i
        (.next (data.drop (k + 1)) err) := by
  simp [write, hopen]

theorem write_closed (hclosed : (s.conn i.other).closed = true) (k : Nat) (data : Bytes) (err : Option Err) :
    s.write i k data err = s.setPump i .signal := if_pos hclosed

end Relay

def RelayPc.closed : RelayPc → Side → Bool
  | .first, _ | .closeA, _ | .closeB, .b => false
  | .closeB, .a | .second, _ | .returned, _ => true

def RelayPc.received : RelayPc → Nat
  | .first => 0
  | .closeA | .closeB | .second => 1
  | .returned => 2

def PumpPc.stops (pc : PumpPc) : Nat := if pc = .stopped then 1 else 0

namespace Relay
variable {s s' : Relay} {i j : Side}

/-- What is closed and signalled is what `main` has come to. -/
structure Phased (s : Relay) : Prop where
  closed : ∀ i, (s.conn i).closed = s.main.closed i
  done : s.done + s.main.received = (s.pump .a).stops + (s.pump .b).stops

/-- The pump `i` has gone on and not stopped. -/
structure Pumped (i : Side) (s s' : Relay) : Prop where
  main : s'.main = s.main
  done : s'.done = s.done
  closed : ∀ j, (s'.conn j).closed = (s.conn j).closed
  other : s'.pump i.other = s.pump i.other
  before : s.pump i ≠ .stopped
  after : s'.pump i ≠ .stopped

theorem setConn_closed {c : RelayConn} (hc : c.closed = (s.conn i).closed) (j : Side) :
    ((s.setConn i c).conn j).closed = (s.conn j).closed := by
  by_cases h : j = i
  · rw [h, setConn_self, hc]
  · rw [setConn_ne h]

theorem read_pumped (h : s.pump i = .read) : Pumped i s (s.read i) := by
  cases hclosed : (s.conn i).closed with
  | true =>
    rw [read_closed hclosed]
    exact ⟨rfl, rfl, fun _ => rfl, setPump_ne i.other_ne _, by simp [h], by simp⟩
  | false =>
    obtain ⟨data, err, inp, heq, -⟩ := read_open hclosed
    rw [heq]
    refine ⟨rfl, rfl, setConn_closed rfl, setPump_ne i.other_ne _, by simp [h], ?_⟩
    rw [setPump_self]
    exact PumpPc.next_ne_stopped data err

variable {data : Bytes} {err : Option Err}

theorem write_pumped (h : s.pump i = .write data err) (k : Nat) : Pumped i s (s.write i k data err) := by
  cases hclosed : (s.conn i.other).closed with
  | true =>
    rw [write_closed hclosed]
    exact ⟨rfl, rfl, fun _ => rfl, setPump_ne i.other_ne _, by simp [h], by simp⟩
  | false =>
    rw [write_open hclosed]
    refine ⟨rfl, rfl, setConn_closed rfl, setPump_ne i.other_ne _, by simp [h], ?_⟩
    rw [setPump_self]
    exact PumpPc.next_ne_stopped _ err

theorem stops_eq (s : Relay) (i : Side) :
    (s.pump .a).stops + (s.pump .b).stops = (s.pump i).stops + (s.pump i.other).stops := by
  cases i with
  | a => rfl
  | b => exact add_comm _ _

theorem Phased.pumped (h : s.Phased) (hp : Pumped i s s') : s'.Phased := by
  refine ⟨fun j => by rw [hp.closed, hp.main, h.closed], ?_⟩
  rw [hp.done, hp.main, h.done, stops_eq s i, stops_eq s' i, hp.other]
  simp [PumpPc.stops, hp.before, hp.after]

theorem close_ne (h : j ≠ i) : (s.close i).conn j = s.conn j := setConn_ne h _

theorem close_self (s : Relay) (i : Side) : (s.close i).conn i = { s.conn i with closed := true } := setConn_self _ _ _

theorem close_closed (s : Relay) (i j : Side) :
    ((s.close i).conn j).closed = (decide (j = i) || (s.conn j).closed) := by
  by_cases h : j = i
  · simp [h, close_self]
  · simp [h, close_ne]

theorem close_inp (s : Relay) (i j : Side) : ((s.close i).conn j).inp = (s.conn j).inp := by
  by_cases h : j = i
  · rw [h, close_self]
  · rw [close_ne h]

theorem Phased.step (h : s.Phased) (hs : s.step a = some s') : s'.Phased := by
  cases step_inv hs with
  | read hpc => exact h.pumped (read_pumped hpc)
  | write k hpc => exact h.pumped (write_pumped hpc k)
  | signal hpc =>
    rename_i i
    refine ⟨h.closed, ?_⟩
    have hdone := h.done
    rw [stops_eq s i] at hdone
    rw [stops_eq _ i]
    simp only [setPump_self, setPump_ne i.other_ne]
    simp only [hpc, PumpPc.stops] at hdone ⊢
    show s.done + 1 + s.main.received = _
    simp only [reduceCtorEq, if_false, if_true] at hdone ⊢
    omega
  | first hmain hpos =>
    have hdone := h.done
    rw [hmain] at hdone
    refine ⟨fun i => (h.closed i).trans (by rw [hmain]; rfl), ?_⟩
    show s.done - 1 + 1 = _
    rw [← hdone, Nat.sub_add_cancel hpos]
    rfl
  | closeA hmain | closeB hmain =>
    have hdone := h.done
    rw [hmain] at hdone
    refine ⟨fun i => ?_, hdone⟩
    rw [close_closed, h.closed, hmain]
    cases i <;> rfl
  | second hmain hpos =>
    have hdone := h.done
    rw [hmain] at hdone
    refine ⟨fun i => (h.closed i).trans (by rw [hmain]; rfl), ?_⟩
    rw [← hdone]
    show s.done - 1 + 2 = s.done + 1
    omega

theorem phased_start (inp : Side → Stream) : (start inp).Phased := ⟨fun _ => rfl, rfl⟩

theorem Phased.moves (h : s.Phased) (hmain : s.main ≠ .returned) : ∃ a, s.step a ≠ none := by
  by_cases hpumps : ∀ i, s.pump i = .stopped
  · have hdone := h.done
    simp only [hpumps, PumpPc.stops, if_true] at hdone
    refine ⟨.main, ?_⟩
    cases hm : s.main with
    | first | second =>
      rw [hm] at hdone
      simp only [RelayPc.received] at hdone
      have hpos : 0 < s.done := by omega
      simp [Relay.step, hm, hpos]
    | closeA | closeB => simp [Relay.step, hm]
    | returned => exact absurd hm hmain
  · obtain ⟨i, hi⟩ := not_forall.mp hpumps
    cases hpc : s.pump i with
    | read => exact ⟨.read i, by simp [Relay.step, hpc]⟩
    | write data err => exact ⟨.write i 0, by simp [Relay.step, hpc]⟩
    | signal => exact ⟨.signal i, by simp [Relay.step, hpc]⟩
    | stopped => exact absurd hpc hi

def pumpWork (unread : Nat) : PumpPc → Nat
  | .read => 2 * unread + 2
  | .write data _ => 2 * unread + data.length + 2
  | .signal => 1
  | .stopped => 0

def mainWork : RelayPc → Nat
  | .first => 4
  | .closeA => 3
  | .closeB => 2
  | .second => 1
  | .returned => 0

def work (s : Relay) : Nat :=
  pumpWork (s.conn .a).inp.bytes.length (s.pump .a) + pumpWork (s.conn .b).inp.bytes.length
    (s.pump .b) + mainWork s.main

theorem work_eq (s : Relay) (i : Side) : s.work = pumpWork (s.conn i).inp.bytes.length (s.pump i) +
    pumpWork (s.conn i.other).inp.bytes.length (s.pump i.other) + mainWork s.main := by
  cases i with
  | a => rfl
  | b => exact congrArg (· + _) (add_comm _ _)

theorem pumpWork_read (unread : Nat) : pumpWork unread .read = 2 * unread + 2 := rfl

theorem pumpWork_write (unread : Nat) (data : Bytes) (err : Option Err) :
    pumpWork unread (.write data err) = 2 * unread + data.length + 2 := rfl

theorem pumpWork_next (unread : Nat) : pumpWork unread (.next data err) ≤ 2 * unread + data.length + 2 := by
  unfold PumpPc.next
  split
  · cases err <;> simp only [pumpWork] <;> omega
  · exact le_rfl

theorem work_read (hpc : s.pump i = .read) : (s.read i).work + 1 ≤ s.work := by
  rw [work_eq s i, work_eq _ i, hpc]
  cases hclosed : (s.conn i).closed with
  | true =>
    rw [read_closed hclosed]
    simp only [setPump_self, setPump_ne i.other_ne, setPump_conn, pumpWork]
    show _ + mainWork s.main + 1 ≤ _
    omega
  | false =>
    obtain ⟨data, err, inp, heq, hbytes, herr⟩ := read_open hclosed
    rw [heq]
    simp only [setPump_self, setPump_ne i.other_ne, setPump_conn, setConn_self, setConn_ne i.other_ne, setConn_pump]
    show _ + mainWork s.main + 1 ≤ _
    rw [hbytes, length_append]
    have hnext : pumpWork inp.bytes.length (.next data err) + 1 ≤ pumpWork (data.length + inp.bytes.length) .read := by
      by_cases hnil : data = []
      · obtain ⟨e, rfl⟩ := Option.ne_none_iff_exists'.mp (herr hnil)
        simp [PumpPc.next, hnil, pumpWork]
      · have hpos := length_pos_iff.mpr hnil
        have hle : pumpWork inp.bytes.length (.next data err) ≤ _ := pumpWork_next _
        rw [pumpWork_read]
        omega
    omega

theorem work_write (hpc : s.pump i = .write data err) (hne : data ≠ []) (k : Nat) :
    (s.write i k data err).work + 1 ≤ s.work := by
  rw [work_eq s i, work_eq _ i, hpc]
  cases hclosed : (s.conn i.other).closed with
  | true =>
    rw [write_closed hclosed]
    simp only [setPump_self, setPump_ne i.other_ne, setPump_conn, pumpWork]
    show _ + mainWork s.main + 1 ≤ _
    omega
  | false =>
    rw [write_open hclosed]
    simp only [setPump_self, setPump_ne i.other_ne, setPump_conn, setConn_self, setConn_ne i.other_ne.symm,
      setConn_pump]
    show _ + mainWork s.main + 1 ≤ _
    have hpos := length_pos_iff.mpr hne
    have hle : pumpWork (s.conn i).inp.bytes.length (.next (data.drop (k + 1)) err) ≤ _ := pumpWork_next _
    rw [length_drop] at hle
    rw [pumpWork_write]
    omega

def Holding (s : Relay) : Prop := ∀ i data err, s.pump i = .write data err → data ≠ []

theorem next_write {data' : Bytes} {err' : Option Err} (h : PumpPc.next data err = .write data' err') : data' ≠ [] := by
  unfold PumpPc.next at h
  split at h
  · cases err <;> cases h
  · cases h
    assumption

theorem Holding.setPump (h : s.Holding) {pc : PumpPc} (hpc : ∀ data err, pc = .write data err → data ≠ []) :
    (s.setPump i pc).Holding := by
  intro j data err hj
  by_cases heq : j = i
  · rw [heq, setPump_self] at hj
    exact hpc data err hj
  · rw [setPump_ne heq] at hj
    exact h j data err hj

theorem Holding.setConn (h : s.Holding) (c : RelayConn) : (s.setConn i c).Holding := h

theorem Holding.step (h : s.Holding) (hs : s.step a = some s') : s'.Holding := by
  cases step_inv hs with
  | read hpc =>
    rename_i i
    cases hclosed : (s.conn i).closed with
    | true =>
      rw [read_closed hclosed]
      exact h.setPump (by simp)
    | false =>
      obtain ⟨data, err, inp, heq, -⟩ := read_open hclosed
      rw [heq]
      exact (h.setConn _).setPump fun _ _ => next_write
  | write k hpc =>
    rename_i i data err
    cases hclosed : (s.conn i.other).closed with
    | true =>
      rw [write_closed hclosed]
      exact h.setPump (by simp)
    | false =>
      rw [write_open hclosed]
      exact (h.setConn _).setPump fun _ _ => next_write
  | signal hpc => exact h.setPump (by simp)
  | _ => exact h

theorem work_main (hinp : ∀ i, (s'.conn i).inp = (s.conn i).inp) (hpump : s'.pump = s.pump)
    (hmain : mainWork s'.main + 1 = mainWork s.main) : s'.work + 1 ≤ s.work := by
  unfold work
  rw [hinp, hinp, hpump]
  omega

theorem work_step (h : s.Holding) (hs : s.step a = some s') : s'.work + 1 ≤ s.work := by
  cases step_inv hs with
  | read hpc => exact work_read hpc
  | write k hpc => exact work_write hpc (h _ _ _ hpc) k
  | signal hpc =>
    rename_i i
    rw [work_eq s i, work_eq _ i]
    simp only [setPump_self, setPump_ne i.other_ne, setPump_conn, hpc]
    show 0 + _ + mainWork s.main + 1 ≤ 1 + _ + mainWork s.main
    omega
  | first hmain _ | second hmain _ => exact work_main (fun _ => rfl) rfl (by rw [hmain]; rfl)
  | closeA hmain => exact work_main (close_inp s .a) rfl (by rw [hmain]; rfl)
  | closeB hmain => exact work_main (close_inp s .b) rfl (by rw [hmain]; rfl)

/-- What the end behind `i.other` has got and can still get: the bytes in the pump, and those to be read. -/
def carried (s : Relay) (i : Side) : Bytes :=
  (s.conn i.other).out ++
    if (s.conn i.other).closed then []
    else (s.pump i).held ++ if (s.conn i).closed then [] else (s.conn i).inp.bytes

theorem carried_congr (hout : (s'.conn i.other).out = (s.conn i.other).out)
    (hclosed : ∀ j, (s'.conn j).closed = (s.conn j).closed) (hheld : (s'.pump i).held = (s.pump i).held)
    (hinp : (s'.conn i).inp = (s.conn i).inp) : s'.carried i = s.carried i := by
  unfold carried
  rw [hout, hclosed, hclosed, hheld, hinp]

theorem carried_read (hpc : s.pump i = .read) (j : Side) : (s.read i).carried j = s.carried j := by
  have hp := read_pumped hpc
  cases hclosed : (s.conn i).closed with
  | true =>
    rw [read_closed hclosed] at hp ⊢
    refine carried_congr rfl hp.closed ?_ rfl
    by_cases h : j = i
    · rw [h, setPump_self, hpc]
      rfl
    · rw [setPump_ne h]
  | false =>
    obtain ⟨data, err, inp, heq, hbytes, -⟩ := read_open hclosed
    rw [heq] at hp ⊢
    by_cases h : j = i
    · subst h
      unfold carried
      simp [setConn_ne j.other_ne, hclosed, hpc, hbytes]
    · have hj : j = i.other := Side.eq_other h
      refine carried_congr ?_ hp.closed ?_ ?_
      · simp [hj]
      · rw [setPump_ne h]
        rfl
      · simp [setConn_ne h]

theorem carried_write (hpc : s.pump i = .write data err) (k : Nat) (j : Side) :
    (s.write i k data err).carried j = s.carried j := by
  have hp := write_pumped hpc k
  cases hclosed : (s.conn i.other).closed with
  | true =>
    rw [write_closed hclosed] at hp ⊢
    by_cases h : j = i
    · subst h
      simp [carried, hclosed]
    · refine carried_congr rfl hp.closed ?_ rfl
      rw [setPump_ne h]
  | false =>
    rw [write_open hclosed] at hp ⊢
    by_cases h : j = i
    · subst h
      unfold carried
      simp only [setPump_conn, setConn_self, setPump_self, hclosed, hpc, PumpPc.held_next, PumpPc.held_write,
        setConn_ne j.other_ne.symm, Bool.false_eq_true, if_false]
      rw [append_assoc, ← append_assoc (data.take (k + 1)), take_append_drop]
    · have hj : j = i.other := Side.eq_other h
      refine carried_congr ?_ hp.closed ?_ ?_
      · simp [hj, setConn_ne i.other_ne.symm]
      · rw [setPump_ne h]
        rfl
      · simp [hj]

/-- When `a` is closed, both connections are read to their ends and what came from `b` is written; when `b` is
    closed, what came from `a` is written. -/
def Lossless (s : Relay) : RelayAct → Prop
  | .main =>
    match s.main with
    | .closeA => (s.conn .a).inp.bytes = [] ∧ (s.conn .b).inp.bytes = [] ∧ (s.pump .b).held = []
    | .closeB => (s.pump .a).held = []
    | _ => True
  | _ => True

def total (s : Relay) : Nat := (s.carried .a).length + (s.carried .b).length

/-- A step drops bytes from the end of what is carried, and drops some exactly if it is a close that loses
    them. -/
theorem carried_step (h : s.Phased) (hs : s.step a = some s') :
    (∀ i, s'.carried i <+: s.carried i) ∧ (s'.total = s.total ↔ s.Lossless a) := by
  have hkeep : s.Lossless a → (∀ i, s'.carried i = s.carried i) →
      (∀ i, s'.carried i <+: s.carried i) ∧ (s'.total = s.total ↔ s.Lossless a) := fun hl heq =>
    ⟨fun i => heq i ▸ prefix_rfl, iff_of_true (by rw [total, heq, heq, total]) hl⟩
  cases step_inv hs with
  | read hpc => exact hkeep trivial (carried_read hpc)
  | write k hpc => exact hkeep trivial (carried_write hpc k)
  | signal hpc =>
    rename_i i
    refine hkeep trivial fun j => carried_congr rfl (fun _ => rfl) ?_ rfl
    by_cases h : j = i
    · rw [h, setPump_self, hpc]
      rfl
    · rw [setPump_ne h]
  | first hmain _ | second hmain _ => exact hkeep (by simp [Lossless, hmain]) fun _ => rfl
  | closeA hmain =>
    have hopen : ∀ i, (s.conn i).closed = false := fun i => by rw [h.closed, hmain]; rfl
    have ha : carried { s.close .a with main := .closeB } .a = (s.conn .b).out ++ (s.pump .a).held := by
      simp [carried, Side.other, close_self, close_ne, hopen]
      rfl
    have hb : carried { s.close .a with main := .closeB } .b = (s.conn .a).out := by
      simp [carried, Side.other, close_self]
    have ha' : s.carried .a = (s.conn .b).out ++ (s.pump .a).held ++ (s.conn .a).inp.bytes := by
      simp [carried, Side.other, hopen]
    have hb' : s.carried .b = (s.conn .a).out ++ ((s.pump .b).held ++ (s.conn .b).inp.bytes) := by
      simp [carried, Side.other, hopen]
    refine ⟨fun i => ?_, ?_⟩
    · cases i with
      | a => exact ha ▸ ha' ▸ prefix_append _ _
      | b => exact hb ▸ hb' ▸ prefix_append _ _
    · simp only [total, ha, hb, ha', hb', Lossless, hmain, length_append, ← length_eq_zero_iff]
      omega
  | closeB hmain =>
    have hopen : (s.conn .b).closed = false := by rw [h.closed, hmain]; rfl
    have hclosed : (s.conn .a).closed = true := by rw [h.closed, hmain]; rfl
    have ha : carried { s.close .b with main := .second } .a = (s.conn .b).out := by
      simp [carried, Side.other, close_self]
    have hb : carried { s.close .b with main := .second } .b = s.carried .b := by
      simp [carried, Side.other, close_ne, hclosed]
    have ha' : s.carried .a = (s.conn .b).out ++ (s.pump .a).held := by
      simp [carried, Side.other, hopen, hclosed]
    refine ⟨fun i => ?_, ?_⟩
    · cases i with
      | a => exact ha ▸ ha' ▸ prefix_append _ _
      | b => exact hb ▸ prefix_rfl
    · simp only [total, ha, hb, ha', Lossless, hmain, length_append, ← length_eq_zero_iff]
      omega

theorem Phased.carried_returned (h : s.Phased) (hmain : s.main = .returned) (i : Side) :
    s.carried i = (s.conn i.other).out := by
  have hclosed : (s.conn i.other).closed = true := by rw [h.closed, hmain]; rfl
  simp [carried, hclosed]

end Relay

/-- A relay returns after a bounded number of steps; and then each end has got everything that the other one
    sent exactly when no close of the run lost any of it. -/
theorem relay_delivers_iff {inp : Side → Stream} {as : List RelayAct} {s : Relay}
    (hrun : AnyRun Relay.step (.start inp) as s) :
    as.length ≤ 2 * ((inp .a).bytes.length + (inp .b).bytes.length) + 8 ∧
      ((∀ a, s.step a = none) → s.main = .returned) ∧
      (s.main = .returned → ((s.conn .b).out = (inp .a).bytes ∧ (s.conn .a).out = (inp .b).bytes ↔
        Run Relay.step Relay.Lossless (.start inp) as s)) := by
  have hphased : s.Phased := hrun.invariant (fun h _ hs => h.step hs) (Relay.phased_start inp)
  refine ⟨?_, fun hstuck => ?_, fun hmain => ?_⟩
  · have hw : (Relay.start inp).Holding ∧ (Relay.start inp).work ≤ (Relay.start inp).work :=
      ⟨nofun, le_rfl⟩
    obtain ⟨m, -, hle⟩ := hrun.count_le (W := fun s n => s.Holding ∧ s.work ≤ n) (fun _ => true)
      (fun {t a u n} hw _ hs => ⟨u.work, ⟨hw.1.step hs, le_rfl⟩, le_trans (Relay.work_step hw.1 hs) hw.2⟩) hw
    have hstart : (Relay.start inp).work = 2 * (inp .a).bytes.length + 2 + (2 * (inp .b).bytes.length + 2) + 4 := rfl
    rw [hstart, countP_true] at hle
    omega
  · by_contra hmain
    obtain ⟨a, ha⟩ := hphased.moves hmain
    exact ha (hstuck a)
  · have hpre : ∀ i, s.carried i <+: (inp i).bytes := fun i =>
      (hrun.invariant (I := fun t => t.Phased ∧ t.carried i <+: (inp i).bytes)
        (fun ht _ hs => ⟨ht.1.step hs, ((Relay.carried_step ht.1 hs).1 i).trans ht.2⟩)
        ⟨Relay.phased_start inp, prefix_rfl⟩).2
    have hstart : (Relay.start inp).total = (inp .a).bytes.length + (inp .b).bytes.length := rfl
    have htotal : s.total = (Relay.start inp).total ↔ Run Relay.step Relay.Lossless (.start inp) as s :=
      (Run.constant_iff (I := Relay.Phased) (fun h hs => h.step hs)
        (fun h hs => ⟨add_le_add ((Relay.carried_step h hs).1 .a).length_le ((Relay.carried_step h hs).1 .b).length_le,
          (Relay.carried_step h hs).2⟩) hrun (Relay.phased_start inp)).2
    rw [← htotal, hstart, Relay.total]
    have ha := hpre .a
    have hb := hpre .b
    rw [hphased.carried_returned hmain] at ha hb ⊢
    rw [hphased.carried_returned hmain]
    constructor
    · rintro ⟨hout, hout'⟩
      show (s.conn .b).out.length + (s.conn .a).out.length = _
      rw [hout, hout']
    · intro hlen
      have hla := ha.length_le
      have hlb := hb.length_le
      exact ⟨ha.eq_of_length (by omega), hb.eq_of_length (by omega)⟩

def exchange : Side → Stream
  | .a => ⟨[104], fun _ => 0, .eof, false⟩
  | .b => ⟨[105], fun _ => 0, .eof, false⟩

def throughRun : List RelayAct :=
  [.read .a, .write .a 0, .read .b, .write .b 0, .read .a, .read .b, .signal .a, .signal .b, .main, .main, .main, .main]

theorem relay_delivers_exchange : ∃ s, AnyRun Relay.step (.start exchange) throughRun s ∧ s.main = .returned ∧
    (((s.conn .b).out = [104] ∧ (s.conn .a).out = [105]) ↔
     Run Relay.step Relay.Lossless (.start exchange) throughRun s) := by
  refine Run.exists_of_exec ?_ fun s hrun hs => ⟨hs, (relay_delivers_iff hrun).2.2 hs⟩
  decide +kernel

def cutRun : List RelayAct :=
  [.read .a, .write .a 0, .read .a, .signal .a, .main, .main, .main, .read .b, .signal .b, .main]

theorem relay_loses_answer : ∃ s, AnyRun Relay.step (.start exchange) cutRun s ∧ s.main = .returned ∧
    (s.conn .b).out = [104] ∧ (s.conn .a).out = [] :=
  AnyRun.exists_of_exec (by decide +kernel)

end Whispera
