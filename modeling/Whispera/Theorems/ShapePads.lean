import Whispera.Lib.Processes
import Whispera.Theorems.Datapath

/-! The budget is in the `decoyLeaveConn` around the connection and comes back with it. The connection that
the manager probed with has none. -/

namespace Whispera
open List Option Processes

theorem ShapeKnobs.Reached.records_nonneg {k : ShapeKnobs} (h : k.Reached) : 0 ≤ k.records := by
  induction h with
  | new v => exact Int.le_of_lt (by decide : (0 : Int) < shapePadRecords)
  | set records min max _ hset _ =>
    unfold ShapeKnobs.set at hset
    repeat' split at hset
    all_goals cases hset
    rename_i hrange _
    show 0 ≤ int32 records
    have : int32 records = records := by
      unfold int32
      rw [Int.bmod_eq_of_le] <;> omega
    omega
  | setChunk min max _ hset ih =>
    unfold ShapeKnobs.setChunk at hset
    split at hset <;> cases hset
    exact ih
  | setFiller idleMs intervalMs min max _ hset ih =>
    unfold ShapeKnobs.setFiller at hset
    repeat' split at hset
    all_goals cases hset
    exact ih

def ShapeBudget.left (b : ShapeBudget) : Nat := (b.getD 0).toNat

theorem ShapeBudget.take_cases (b : ShapeBudget) :
    (b.take = (false, b)) ∨ (∃ b', b.take = (true, b') ∧ b'.left + 1 = b.left) := by
  cases b with
  | none => exact .inl rfl
  | some v =>
    by_cases hv : v ≤ 0
    · exact .inl (by simp [take, hv])
    · refine .inr ⟨some (v - 1), by simp [take, hv], ?_⟩
      simp only [left, getD_some]
      omega

def budgetAt (budgets : List ShapeBudget) (pad : Nat) : ShapeBudget := budgets[pad]?.getD none

theorem budgetAt_append {budgets more : List ShapeBudget} {pad : Nat} (h : pad < budgets.length) :
    budgetAt (budgets ++ more) pad = budgetAt budgets pad := by
  rw [budgetAt, budgetAt, getElem?_append_left h]

namespace ConnUse

def attached (u : ConnUse) : Option Nat :=
  match u.place with
  | .stream pad => some pad
  | .idle => u.decoy
  | .gone => none

/-- The budget that the connection draws on is its own, and covers what it may still pad. -/
structure Within (budgets : List ShapeBudget) (owner : Nat → Nat) (i : Nat) (u : ConnUse) : Prop where
  budget : ∀ pad, u.attached = some pad → pad < budgets.length ∧ owner pad = i ∧
    ∃ r, u.first = some r ∧ (u.padded : Int) + (budgetAt budgets pad).left ≤ r
  padded : (u.padded : Int) ≤ u.first.getD 0
  decoy : ∀ pad b, u.place = .stream pad → u.decoy = some b → b = pad

variable {u : ConnUse} {budgets budgets' : List ShapeBudget} {owner owner' : Nat → Nat} {i : Nat}

theorem Within.change (h : u.Within budgets owner i)
    (hkeep : ∀ pad < budgets.length, owner pad = i → pad < budgets'.length ∧
      owner' pad = i ∧ budgetAt budgets' pad = budgetAt budgets pad) : u.Within budgets' owner' i := by
  refine ⟨fun pad hpad => ?_, h.padded, h.decoy⟩
  obtain ⟨hlt, howner, hrest⟩ := h.budget pad hpad
  obtain ⟨hlt', howner', hsame⟩ := hkeep pad hlt howner
  rw [hsame]
  exact ⟨hlt', howner', hrest⟩

theorem Within.replaced (h : u.Within budgets owner i) {place : Place} (hplace : ∀ pad, place ≠ .stream pad)
    (hidle : place = .idle → ∃ pad, u.place = .stream pad) : ({ u with place } : ConnUse).Within budgets owner i := by
  refine ⟨fun pad hpad => h.budget pad ?_, h.padded, fun pad b hp => absurd hp (hplace pad)⟩
  cases place with
  | stream p => exact absurd rfl (hplace p)
  | gone => cases hpad
  | idle =>
    obtain ⟨q, hq⟩ := hidle rfl
    rw [attached, hq, h.decoy q pad hq hpad]

end ConnUse

def Budgeted (budgets : List ShapeBudget) (owner : Nat → Nat) (conns : List ConnUse) : Prop :=
  ∀ (i : Nat) (u : ConnUse), conns[i]? = some u → u.Within budgets owner i

namespace Budgeted
variable {budgets : List ShapeBudget} {owner : Nat → Nat} {conns : List ConnUse} (h : Budgeted budgets owner conns)
include h

theorem set {i : Nat} {u u' : ConnUse} (hu : conns[i]? = some u) (hu' : u'.Within budgets owner i) :
    Budgeted budgets owner (conns.set i u') := by
  intro j v hv
  rcases get_set_cases hu hv with ⟨rfl, rfl⟩ | ⟨-, hv⟩
  · exact hu'
  · exact h j v hv

theorem concat {u : ConnUse} (hu : u.Within budgets owner conns.length) : Budgeted budgets owner (conns ++ [u]) := by
  intro j v hv
  rcases get_begin_cases hv with hv | ⟨rfl, rfl⟩
  · exact h j v hv
  · exact hu

theorem closeTried (ids : List Nat) : Budgeted budgets owner (Datapath.closeTried conns ids) := by
  intro j v hv
  rw [Datapath.closeTried, getElem?_mapIdx, map_eq_some_iff] at hv
  obtain ⟨u, hu, rfl⟩ := hv
  split
  · exact (h j u hu).replaced nofun nofun
  · exact h j u hu

/-- A new budget is given to any connection. -/
theorem grow (more : List ShapeBudget) (i : Nat) :
    Budgeted (budgets ++ more) (Function.update owner budgets.length i) conns := by
  intro j v hv
  refine (h j v hv).change fun pad hlt howner => ⟨?_, ?_, budgetAt_append hlt⟩
  · rw [length_append]
    omega
  · rw [Function.update_of_ne (Nat.ne_of_lt hlt), howner]

end Budgeted

def ShapePads.Grown (p p' : ShapePads) : Prop := p'.knobs = p.knobs ∧ ∃ more, p'.budgets = p.budgets ++ more

theorem ShapePads.Grown.refl (p : ShapePads) : p.Grown p := ⟨rfl, [], (append_nil _).symm⟩

theorem ShapePads.grown_newShapeBudget (p : ShapePads) : p.Grown p.newShapeBudget.2 := ⟨rfl, _, rfl⟩

namespace OpenChoices
variable (c : OpenChoices) (p : ShapePads) (conn : BaseConn) (splice : Bool)

theorem finish_plain (h : c.keepAlive = false) (reused : Bool) :
    c.finish p conn reused splice = (.plain (.decoy conn.conn p.budgets.length), p.newShapeBudget.2) := by
  simp only [finish, h, if_true]
  rfl

theorem finish_reused (h : c.keepAlive = true) : c.finish p conn true splice =
    (.keepAlive { base := conn, pad := (p.shapeBudgetOf conn).1, downRaw := splice }, (p.shapeBudgetOf conn).2) := by
  simp only [finish, h, Bool.true_eq_false, if_false, if_true]

theorem finish_fresh (h : c.keepAlive = true) : c.finish p conn false splice =
    (.keepAlive { base := .decoy conn.conn p.budgets.length, pad := p.budgets.length, downRaw := splice },
      p.newShapeBudget.2) := by
  simp only [finish, h, Bool.true_eq_false, Bool.false_eq_true, if_false]
  rfl

variable {c p}

theorem grown_sendHeader {proto : UInt8} {addr : Bytes} {port : Nat} {reused : Bool} :
    p.Grown (c.sendHeader p proto addr port conn reused).2.2 := by
  have hfinish : ∀ conn reused splice, p.Grown (c.finish p conn reused splice).2 := by
    intro conn reused splice
    cases hk : c.keepAlive with
    | false =>
      rw [c.finish_plain p conn splice hk]
      exact p.grown_newShapeBudget
    | true =>
      cases reused with
      | false =>
        rw [c.finish_fresh p conn splice hk]
        exact p.grown_newShapeBudget
      | true =>
        rw [c.finish_reused p conn splice hk]
        cases conn with
        | dialled c => exact p.grown_newShapeBudget
        | decoy c pad => exact .refl p
  simp only [sendHeader]
  split
  · exact hfinish _ _ _
  · split
    · exact .refl p
    · split
      · exact .refl p
      · split
        · exact hfinish _ _ _
        · exact .refl p

theorem grown_open {proto : UInt8} {addr : Bytes} {port : Nat} :
    p.Grown (openStreamPerFlow c p proto addr port).2.2 := by
  rcases open_cases rfl with ⟨e, he⟩ | ⟨conn, -, -, hsend⟩ | ⟨conn, -, hsend⟩
  · rw [he]
    exact .refl p
  · rw [← hsend]
    exact grown_sendHeader conn
  · rw [← hsend]
    exact grown_sendHeader (.dialled conn)

end OpenChoices

namespace Datapath
variable {s t : Datapath} {a : OpenAct}

theorem closeTried_getElem? (conns : List ConnUse) (ids : List Nat) (i : Nat) :
    (closeTried conns ids)[i]? = conns[i]?.map fun u => if i ∈ ids then { u with place := .gone } else u :=
  getElem?_mapIdx

theorem idleConn_eq {i : Nat} {conn : BaseConn} (h : s.idleConn i = some conn) :
    ∃ u, s.conns[i]? = some u ∧ u.place = .idle ∧ conn = u.base i := by
  unfold idleConn at h
  split at h
  · rename_i u hu
    split at h
    · rename_i hidle
      exact ⟨u, hu, hidle, (some.inj h).symm⟩
    · cases h
  · cases h

def Resumes (s : Datapath) (i : Nat) (u : ConnUse) (pad : Nat) (shape : ShapePads) : Prop :=
  s.conns[i]? = some u ∧ u.place = .idle ∧
    ((u.decoy = some pad ∧ shape = s.shape) ∨
     (u.decoy = none ∧ pad = s.shape.budgets.length ∧ shape = s.shape.newShapeBudget.2))

def resumed (s : Datapath) (u : ConnUse) (pad : Nat) : ConnUse :=
  { u with place := .stream pad, first := u.first.or (some s.shape.knobs.val.records) }

def started (s : Datapath) (raw : Bool) : ConnUse where
  raw := raw
  decoy := some s.shape.budgets.length
  place := .stream s.shape.budgets.length
  first := some s.shape.knobs.val.records

theorem conn_base (u : ConnUse) (i : Nat) : (u.base i).conn = ⟨i, u.raw⟩ := by
  cases hd : u.decoy <;> simp only [ConnUse.base, hd, BaseConn.conn]

theorem carry_base (u : ConnUse) (i pad : Nat) (downRaw : Bool) :
    carry s.shape { u with place := .gone } { base := u.base i, pad, downRaw } = s.resumed u pad := by
  cases hd : u.decoy <;> simp only [carry, ConnUse.base, resumed, hd]

theorem resumes_base {i : Nat} {u : ConnUse} (hu : s.conns[i]? = some u) (hplace : u.place = .idle) :
    s.Resumes i u (s.shape.shapeBudgetOf (u.base i)).1 (s.shape.shapeBudgetOf (u.base i)).2 := by
  refine ⟨hu, hplace, ?_⟩
  cases hd : u.decoy with
  | none => simp only [ConnUse.base, hd, reduceCtorEq, false_and, false_or, true_and]; exact ⟨rfl, rfl⟩
  | some pad => simp only [ConnUse.base, hd, ShapePads.shapeBudgetOf, true_and, true_or]

theorem opened_cases (s : Datapath) (a : OpenAct) :
    (∃ ids shape, s.shape.Grown shape ∧ s.opened a = { shape, conns := closeTried s.conns ids }) ∨
    (∃ ids i u pad shape, a.keepAlive = true ∧ a.taken = some i ∧ s.Resumes i u pad shape ∧
      s.opened a = { shape, conns := (closeTried s.conns ids).set i (s.resumed u pad) }) ∨
    (∃ ids raw, s.opened a =
      { shape := s.shape.newShapeBudget.2, conns := closeTried s.conns ids ++ [s.started raw] }) := by
  have hgrown : s.shape.Grown (openStreamPerFlow (s.choices a) s.shape a.proto a.addr a.port).2.2 :=
    OpenChoices.grown_open
  have hnew : ∀ ids, (closeTried s.conns ids)[s.conns.length]? = none := by
    intro ids
    rw [closeTried_getElem?, getElem?_eq_none (le_rfl), map_none]
  unfold opened
  rcases hres : openStreamPerFlow (s.choices a) s.shape a.proto a.addr a.port with ⟨_ | _ | st, tried, shape⟩
  · rw [hres] at hgrown
    exact .inl ⟨_, shape, hgrown, rfl⟩
  · rw [hres] at hgrown
    exact .inl ⟨_, shape, hgrown, rfl⟩
  · refine .inr ?_
    rcases OpenChoices.open_cases hres with ⟨e, he⟩ | ⟨conn, hk, htaken, hsend⟩ | ⟨conn, hdial, hsend⟩
    · cases he
    · obtain ⟨i, hi, hidle⟩ := bind_eq_some_iff.mp htaken
      obtain ⟨u, hu, hplace, rfl⟩ := idleConn_eq hidle
      rcases OpenChoices.sendHeader_keepAlive hsend with ⟨-, rfl, hf⟩ | ⟨fresh, -, -, hfresh, rfl, hf⟩
      · rw [OpenChoices.finish_reused _ _ _ _ hk] at hf
        cases hf
        refine .inl ⟨[i], i, u, _, _, hk, hi, resumes_base hu hplace, ?_⟩
        have hgone : (closeTried s.conns [i])[i]? = some { u with place := .gone } := by
          rw [closeTried_getElem?, hu, map_some, if_pos (mem_singleton_self i)]
        simp only [map_cons, map_nil, conn_base, hgone, carry_base]
      · rw [OpenChoices.finish_fresh _ _ _ _ hk] at hf
        cases hf
        obtain ⟨raw, -, rfl⟩ := map_eq_some_iff.mp hfresh
        refine .inr ⟨[i, s.conns.length], raw, ?_⟩
        simp only [map_cons, map_nil, conn_base]
        simp only [BaseConn.conn, hnew]
        rfl
    · obtain ⟨raw, -, rfl⟩ := map_eq_some_iff.mp hdial
      rcases OpenChoices.sendHeader_keepAlive hsend with ⟨-, rfl, hf⟩ | ⟨fresh, -, hreused, -⟩
      · have hk := (OpenChoices.finish_keepAlive hf).1
        rw [OpenChoices.finish_fresh _ _ _ _ hk] at hf
        cases hf
        refine .inr ⟨[s.conns.length], raw, ?_⟩
        simp only [map_cons, map_nil, BaseConn.conn, hnew]
        rfl
      · cases hreused

/-- A stream is opened on a connection from the pool only if it is in a `decoyLeaveConn`, or has carried no
    stream. -/
def Owned (s : Datapath) : Act → Prop
  | .openStream a =>
    a.keepAlive = true → ∀ i ∈ a.taken, ∀ u ∈ s.conns[i]?, u.place = .idle → u.decoy ≠ none ∨ u.first = none
  | _ => True

instance (s : Datapath) (act) : Decidable (s.Owned act) := by
  unfold Owned
  split <;> infer_instance

theorem left_newShapeBudget (p : ShapePads) :
    ((budgetAt p.newShapeBudget.2.budgets p.budgets.length).left : Int) = p.knobs.val.records := by
  have hbudget : budgetAt p.newShapeBudget.2.budgets p.budgets.length = some p.knobs.val.records := by
    simp [ShapePads.newShapeBudget, budgetAt]
  rw [hbudget]
  exact Int.toNat_of_nonneg p.knobs.property.records_nonneg

def Inv (s : Datapath) : Prop := ∃ owner, Budgeted s.shape.budgets owner s.conns

theorem within_first {i : Nat} {u : ConnUse} (owner : Nat → Nat) (hplace : u.place = .stream s.shape.budgets.length)
    (hfirst : u.first = some s.shape.knobs.val.records) (hpadded : u.padded = 0)
    (hdecoy : ∀ b, u.decoy = some b → b = s.shape.budgets.length) :
    u.Within s.shape.newShapeBudget.2.budgets (Function.update owner s.shape.budgets.length i) i := by
  refine ⟨fun pad hpad => ?_, ?_, fun pad b hp hb => ?_⟩
  · rw [ConnUse.attached, hplace] at hpad
    cases hpad
    refine ⟨?_, Function.update_self .., _, hfirst, ?_⟩
    · show _ < (s.shape.budgets ++ [_]).length
      rw [length_append]
      exact Nat.lt_succ_self _
    · rw [left_newShapeBudget, hpadded]
      simp
  · rw [hpadded, hfirst]
    exact s.shape.knobs.property.records_nonneg
  · cases hplace.symm.trans hp
    exact hdecoy b hb

theorem inv_started (h : s.Inv) (ids : List Nat) (raw : Bool) :
    Inv { shape := s.shape.newShapeBudget.2, conns := closeTried s.conns ids ++ [s.started raw] } := by
  obtain ⟨owner, h⟩ := h
  exact ⟨_, ((h.closeTried ids).grow _ _).concat (within_first owner rfl rfl rfl fun b hb => (some.inj hb).symm)⟩

theorem inv_resumed (h : s.Inv) (ids : List Nat) {i pad : Nat} {u : ConnUse} {shape : ShapePads}
    (hres : s.Resumes i u pad shape) (hown : u.decoy ≠ none ∨ u.first = none) :
    Inv { shape, conns := (closeTried s.conns ids).set i (s.resumed u pad) } := by
  obtain ⟨owner, h⟩ := h
  obtain ⟨hu, hidle, hpad⟩ := hres
  have hi := (closeTried_getElem? s.conns ids i).trans (congrArg (Option.map _) hu)
  have hwithin := h i u hu
  rcases hpad with ⟨hdecoy, rfl⟩ | ⟨hbare, rfl, rfl⟩
  · -- The connection brings its budget along.
    have hatt : u.attached = some pad := by rw [ConnUse.attached, hidle]; exact hdecoy
    obtain ⟨hlt, howner, r, hr, hsum⟩ := hwithin.budget pad hatt
    have hfirst : (s.resumed u pad).first = u.first := by rw [resumed, hr]; rfl
    refine ⟨owner, (h.closeTried ids).set hi ⟨fun q hq => ?_, hfirst ▸ hwithin.padded, fun q b hq hb => ?_⟩⟩
    · cases hq
      exact ⟨hlt, howner, r, hfirst.trans hr, hsum⟩
    · cases hq
      exact some.inj (hb.symm.trans hdecoy)
  · -- The connection has no budget of its own and was not used, so that the new budget is its first.
    have hfirst : u.first = none := hown.resolve_left fun hne => hne hbare
    have hpadded : u.padded = 0 := by
      have := hwithin.padded
      rw [hfirst] at this
      exact Int.ofNat_inj.mp (Int.le_antisymm this (Int.natCast_nonneg _))
    refine ⟨_, ((h.closeTried ids).grow _ i).set hi
      (within_first owner rfl (by rw [resumed, hfirst]; rfl) hpadded fun b hb => ?_)⟩
    cases hbare.symm.trans hb

theorem inv_place (h : s.Inv) {i : Nat} {u : ConnUse} (hu : s.conns[i]? = some u) {place : Place}
    (hplace : ∀ pad, place ≠ .stream pad) (hidle : place = .idle → ∃ pad, u.place = .stream pad) :
    Inv { s with conns := s.conns.set i { u with place } } := by
  obtain ⟨owner, h⟩ := h
  exact ⟨owner, h.set hu ((h i u hu).replaced hplace hidle)⟩

theorem spend_cases (s : Datapath) (i : Nat) (u : ConnUse) {pad : Nat} (hlt : pad < s.shape.budgets.length) :
    s.spend i u pad = s ∨
    (∃ b : ShapeBudget, b.left + 1 = (budgetAt s.shape.budgets pad).left ∧ s.spend i u pad =
      { shape := { s.shape with budgets := s.shape.budgets.set pad b },
        conns := s.conns.set i { u with padded := u.padded + 1 } }) := by
  rcases ShapeBudget.take_cases (budgetAt s.shape.budgets pad) with htake | ⟨b, htake, hleft⟩
  · rw [budgetAt, getElem?_eq_getElem hlt, getD_some] at htake
    refine .inl ?_
    simp only [spend, getElem?_eq_getElem hlt, getD_some, htake, Bool.false_eq_true, if_false, set_getElem_self]
  · refine .inr ⟨b, hleft, ?_⟩
    have htake' : (s.shape.budgets[pad]?.getD none).take = (true, b) := htake
    simp only [spend, htake', if_true]

theorem inv_spend (h : s.Inv) {i pad : Nat} {u : ConnUse} (hu : s.conns[i]? = some u) (hplace : u.place = .stream pad) :
    (s.spend i u pad).Inv := by
  obtain ⟨owner, h⟩ := h
  have hatt : u.attached = some pad := by rw [ConnUse.attached, hplace]
  obtain ⟨hlt, howner, r, hr, hsum⟩ := (h i u hu).budget pad hatt
  rcases s.spend_cases i u hlt with heq | ⟨b, hleft, heq⟩
  · rw [heq]
    exact ⟨owner, h⟩
  · rw [heq]
    refine ⟨owner, fun j v hv => ?_⟩
    rcases get_set_cases hu hv with ⟨rfl, rfl⟩ | ⟨hj, hv⟩
    · refine ⟨fun q hq => ?_, ?_, (h j u hu).decoy⟩
      · obtain rfl : pad = q := some.inj (hatt.symm.trans hq)
        refine ⟨by rwa [length_set], howner, r, hr, ?_⟩
        rw [budgetAt, getElem?_set_self hlt, getD_some]
        push_cast
        omega
      · show ((u.padded + 1 : Nat) : Int) ≤ u.first.getD 0
        rw [hr, getD_some]
        push_cast
        omega
    · -- the other connections have budgets of their own
      refine (h j v hv).change fun q hq hj' => ⟨by rwa [length_set], hj', ?_⟩
      have hqp : pad ≠ q := fun heq => hj (hj'.symm.trans (heq ▸ howner))
      rw [budgetAt, budgetAt, getElem?_set_ne hqp]

theorem Inv.step (h : s.Inv) {act : Act} (hown : s.Owned act) (hs : s.step act = some t) : t.Inv := by
  cases act with
  | setShape records min max =>
    simp only [Datapath.step] at hs
    split at hs <;> cases hs <;> exact h
  | connect raw keepAlive =>
    cases keepAlive with
    | false => cases hs; exact h
    | true =>
      cases hs
      obtain ⟨owner, h⟩ := h
      exact ⟨owner, h.concat ⟨nofun, Int.le_refl _, nofun⟩⟩
  | openStream a =>
    cases hs
    rcases s.opened_cases a with ⟨ids, shape, ⟨-, more, hmore⟩, heq⟩ | ⟨ids, i, u, pad, shape, hk, hi, hres, heq⟩ |
      ⟨ids, raw, heq⟩
    · obtain ⟨owner, h⟩ := h
      have hgrown := (h.closeTried ids).grow more 0
      rw [← hmore] at hgrown
      rw [heq]
      exact ⟨_, hgrown⟩
    · rw [heq]
      exact inv_resumed h ids hres (hown hk i hi u hres.1 hres.2.1)
    · rw [heq]
      exact inv_started h ids raw
  | record i =>
    simp only [Datapath.step] at hs
    split at hs
    · split at hs <;> cases hs
      exact inv_spend h ‹_› ‹_›
    · cases hs
  | close i parked =>
    simp only [Datapath.step] at hs
    split at hs
    · split at hs <;> cases hs
      exact inv_place h ‹_› (fun p => by cases parked <;> simp) fun _ => ⟨_, ‹_›⟩
    · cases hs
  | leave i =>
    simp only [Datapath.step] at hs
    split at hs
    · split at hs <;> cases hs
      exact inv_place h ‹_› (fun p => by simp) nofun
    · cases hs

end Datapath

open Datapath Transition

/-- A connection has padded no more records than the settings allowed when it was first used, as long as no
    stream was opened on a connection that had carried one without a `decoyLeaveConn`. -/
theorem padding_stays_within_budget (chunk : List Char) (acts : List Act) (s : Datapath)
    (hrun : Run Datapath.step Owned (.new chunk) acts s) (u : ConnUse) (hu : u ∈ s.conns) :
    (u.padded : Int) ≤ u.first.getD 0 := by
  obtain ⟨owner, hinv⟩ : s.Inv := hrun.invariant (fun h hown hs => h.step hown hs)
    ⟨id, fun i u hu => by simp [Datapath.new] at hu⟩
  obtain ⟨i, hi⟩ := getElem?_of_mem hu
  exact (hinv i u hi).padded

def openOn (taken : Option Nat) : Act :=
  .openStream
    { taken, dial := some true, first := ⟨false, false⟩, second := ⟨false,
      false⟩, proto := 0x06, addr := [97], port := 443 }

theorem padding_over_two_streams : ∃ s, Run Datapath.step Owned (.new [])
    [openOn none, .record 0, .record 0, .record 0, .close 0 true, openOn (some 0), .record 0] s ∧
    s.conns.map ConnUse.padded = [3] ∧ ∀ u ∈ s.conns, (u.padded : Int) ≤ u.first.getD 0 := by
  refine Run.exists_of_exec ?_ fun s hrun hs => ⟨hs, padding_stays_within_budget [] _ s hrun⟩
  decide +kernel

/-- The connection that the manager probed with pads a fourth record, with its second stream. -/
theorem probe_pads_again : ∃ s, AnyRun Datapath.step (.new [])
    [.connect true true, openOn (some 0), .record 0, .record 0, .record 0, .close 0 true, openOn (some 0),
     .record 0] s ∧
    s.conns.map (fun u => (u.first, u.padded)) = [(some 3, 4)] :=
  AnyRun.exists_of_exec (by decide +kernel)

end Whispera
