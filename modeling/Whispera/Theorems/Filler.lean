import Whispera.Filler
import Whispera.Lib.Processes
import Whispera.Lib.Transition

/-! The framed connection of a spliced stream that is only read from has a filler loop only from when it is
made. -/

namespace Whispera
open List Option Processes Transition

variable (shape : ShapeKnobs)

theorem FillConn.armFiller_cases (c : FillConn) :
    c.armFiller shape = c ∨ (0 < shape.fillInterval ∧ c.armFiller shape = { c with filling := some .begin }) := by
  unfold FillConn.armFiller
  split
  · exact .inl rfl
  · rename_i hon
    split
    · exact .inr ⟨Int.not_le.mp hon, rfl⟩
    · exact .inl rfl

theorem FillConn.new_off {shape : ShapeKnobs} (h : shape.fillInterval ≤ 0) (peer : Peer) (layer : Layer) (now : Int) :
    FillConn.new shape peer layer now = { peer, layer, lastWrite := now } := if_pos h

theorem FillConn.new_frame (peer : Peer) (layer : Layer) (now : Int) :
    (FillConn.new shape peer layer now).peer = peer ∧ (FillConn.new shape peer layer now).layer = layer ∧
      (FillConn.new shape peer layer now).ended = false := by
  rcases FillConn.armFiller_cases shape { peer, layer, lastWrite := now } with h | ⟨-, h⟩
  · rw [FillConn.new, h]
    exact ⟨rfl, rfl, rfl⟩
  · rw [FillConn.new, h]
    exact ⟨rfl, rfl, rfl⟩

namespace FillerLink

/-- Both sides splice the same streams, with the filler off while they make the framed connections. -/
def Apart (s : FillerLink) : Act → Prop
  | .open _ bit splice => bit = splice ∧ (splice = true → (s.shape .client).fillInterval ≤ 0)
  | .accept _ splice => s.header = some true → splice = true ∧ (s.shape .server).fillInterval ≤ 0
  | _ => True

instance (s : FillerLink) (act) : Decidable (s.Apart act) := by
  unfold Apart
  split <;> infer_instance

def Active (c : FillConn) : Prop := c.filling ≠ none ∧ c.ended = false

def Current (s : FillerLink) (i : Nat) (c : FillConn) : Prop := s.current c.peer = some i

/-- While the connection is open: only framed connections that are written to have loops, the server answers
    the client's stream on the layer that it reads, and a header is of a stream without an answer. -/
structure Matched (s : FillerLink) : Prop where
  active : ∀ i c, s.conns[i]? = some c → Active c → s.Current i c
  up : ∀ splice up, s.client = .stream splice up → ∃ c, s.conns[up]? = some c ∧ c.peer = .client ∧ c.layer = .tls
  down : ∀ d, s.serving = some d → ∃ c, s.conns[d]? = some c ∧ c.peer = .server ∧
    (c.ended = false → s.header = none ∧ s.answered = false ∧
      ∃ splice up, s.client = .stream splice up ∧ c.layer = answerLayer splice)
  header : ∀ bit, s.header = some bit → s.answered = false ∧ ∃ up, s.client = .stream bit up

/-- Fillers go out framed, and the two sides agree. -/
structure Layered (s : FillerLink) : Prop where
  written : ∀ f ∈ s.fillers, f.framed = true
  matched : s.closed = false → s.Matched

section
variable {s t : FillerLink} {i : Nat} {c c' : FillConn}

theorem Matched.reads (h : s.Matched) (hc : s.conns[i]? = some c) (hactive : Active c) :
    s.reads c.peer c.layer = true := by
  have hcurrent := h.active i c hc hactive
  cases hpeer : c.peer with
  | client =>
    rw [Current, hpeer, current] at hcurrent
    split at hcurrent
    · rename_i splice up hclient
      cases hcurrent
      obtain ⟨c', hc', -, hlayer⟩ := h.up splice i hclient
      obtain rfl : c = c' := some.inj (hc.symm.trans hc')
      rw [hlayer, FillerLink.reads, hclient]
      simp only [hc, any_some, hactive.2, Bool.not_false]
    · cases hcurrent
  | server =>
    rw [Current, hpeer, current] at hcurrent
    obtain ⟨c', hc', -, hopen⟩ := h.down i hcurrent
    obtain rfl : c = c' := some.inj (hc.symm.trans hc')
    obtain ⟨-, hanswered, splice, up, hclient, hlayer⟩ := hopen hactive.2
    rw [FillerLink.reads, hclient]
    simp only [hlayer, hanswered, and_self, decide_true]

theorem Matched.setConn (h : s.Matched) (hc : s.conns[i]? = some c) (hpeer : c'.peer = c.peer)
    (hlayer : c'.layer = c.layer)
    (hended : c'.ended = false → c.ended = false) (hactive : Active c' → s.Current i c) : (s.setConn i c').Matched where
  active j d hd hact := by
    rcases get_set_cases hc hd with ⟨rfl, rfl⟩ | ⟨-, hd⟩
    · have hcurrent := hactive hact
      rw [Current, ← hpeer] at hcurrent
      exact hcurrent
    · exact h.active j d hd hact
  up splice up hclient := by
    obtain ⟨d, hd, hrest⟩ := h.up splice up hclient
    rcases eq_or_ne i up with rfl | hne
    · obtain rfl : c = d := some.inj (hc.symm.trans hd)
      rw [← hpeer, ← hlayer] at hrest
      exact ⟨c', get_set_self hc c', hrest⟩
    · exact ⟨d, (getElem?_set_ne hne).trans hd, hrest⟩
  down k hserving := by
    obtain ⟨d, hd, hserver, hopen⟩ := h.down k hserving
    rcases eq_or_ne i k with rfl | hne
    · obtain rfl : c = d := some.inj (hc.symm.trans hd)
      refine ⟨c', get_set_self hc c', hpeer.trans hserver, fun hend => ?_⟩
      obtain ⟨hheader, hanswered, splice, up, hclient, hl⟩ := hopen (hended hend)
      exact ⟨hheader, hanswered, splice, up, hclient, hlayer.trans hl⟩
    · exact ⟨d, (getElem?_set_ne hne).trans hd, hserver, hopen⟩
  header := h.header

theorem Matched.not_active (h : s.Matched) (hidle : s.client = .idle) (hc : s.conns[i]? = some c) : ¬Active c := by
  intro hactive
  have hcurrent := h.active i c hc hactive
  cases hpeer : c.peer with
  | client =>
    rw [Current, hpeer, current, hidle] at hcurrent
    cases hcurrent
  | server =>
    rw [Current, hpeer, current] at hcurrent
    obtain ⟨c', hc', -, hopen⟩ := h.down i hcurrent
    obtain rfl : c = c' := some.inj (hc.symm.trans hc')
    obtain ⟨-, -, splice, up, hclient, -⟩ := hopen hactive.2
    cases hidle.symm.trans hclient

variable {d : Nat} {bit splice : Bool} {now : Int}

section
variable (h : s.Matched)
include h

theorem Matched.down_ended (hidle : s.client = .idle) (hserving : s.serving = some d) :
    ∃ c, s.conns[d]? = some c ∧ c.peer = .server ∧ c.ended = true := by
  obtain ⟨c, hc, hpeer, hopen⟩ := h.down d hserving
  refine ⟨c, hc, hpeer, Bool.of_not_eq_false fun hend => ?_⟩
  obtain ⟨-, -, splice, up, hclient, -⟩ := hopen hend
  cases hidle.symm.trans hclient

theorem Matched.openStream (hidle : s.client = .idle)
    (hp : s.Apart (.open now bit splice)) : (s.openStream now bit splice).Matched := by
  obtain ⟨rfl, hoff⟩ := hp
  obtain ⟨hpeer, hlayer, -⟩ := FillConn.new_frame (s.shape .client) .client .tls now
  have hnew : (s.openStream now bit bit).conns[s.conns.length]? =
      some (FillConn.new (s.shape .client) .client .tls now) := by
    simp only [FillerLink.openStream, getElem?_append_right (Nat.le_refl _), Nat.sub_self]
    split
    · rfl
    · rfl
  refine ⟨fun i c hc hactive => ?_, fun sp up hclient => ?_, fun d hserving => ?_, fun b hheader => ?_⟩
  · rcases get_append_cases hc with hc | ⟨k, hk, rfl⟩
    · exact absurd hactive (h.not_active hidle hc)
    · split at hk
      · -- the framed connection on the raw socket is made while the filler is off
        rename_i hsplice
        rcases k with _ | _ | k
        · cases hk
          rw [Current, hpeer]
          rfl
        · cases hk
          rw [FillConn.new_off (hoff hsplice)] at hactive
          exact absurd rfl hactive.1
        · cases hk
      · rcases k with _ | k
        · cases hk
          rw [Current, hpeer]
          rfl
        · cases hk
  · cases hclient
    exact ⟨_, hnew, hpeer, hlayer⟩
  · obtain ⟨c, hc, hserver, hend⟩ := h.down_ended hidle hserving
    exact ⟨c, get_append_left hc _, hserver, fun hopen => by cases hend.symm.trans hopen⟩
  · cases hheader
    exact ⟨rfl, _, rfl⟩

theorem Matched.accept (hserving : s.serving = none)
    (hheader : s.header = some bit) (hsplice : splice = true → s.header = some true)
    (hp : s.Apart (.accept now splice)) :
    (s.accept now splice).Matched := by
  obtain ⟨hanswered, up, hclient⟩ := h.header bit hheader
  have hbit : splice = bit := by
    cases bit with
    | true => exact (hp hheader).1
    | false =>
      refine Bool.eq_false_iff.mpr fun htrue => ?_
      cases hheader.symm.trans (hsplice htrue)
  subst hbit
  refine ⟨fun i c hc hactive => ?_, fun sp u hcl => ?_, fun d hd => ?_, nofun⟩
  · rcases get_append_cases hc with hc | ⟨k, hk, rfl⟩
    · have hcurrent := h.active i c hc hactive
      cases hpeer : c.peer with
      | client =>
        rw [Current, hpeer] at hcurrent ⊢
        exact hcurrent
      | server =>
        rw [Current, hpeer, current, hserving] at hcurrent
        cases hcurrent
    · split at hk
      · -- the framed connection inside TLS is made while the filler is off
        rename_i htrue
        rcases k with _ | _ | k
        · cases hk
          rw [htrue] at hheader
          rw [FillConn.new_off (hp hheader).2] at hactive
          exact absurd rfl hactive.1
        · cases hk
          subst htrue
          rw [Current, (FillConn.new_frame _ _ _ _).1]
          rfl
        · cases hk
      · rename_i hfalse
        rcases k with _ | k
        · cases hk
          obtain rfl := Bool.eq_false_iff.mpr hfalse
          rw [Current, (FillConn.new_frame _ _ _ _).1]
          rfl
        · cases hk
  · obtain ⟨c, hc, hrest⟩ := h.up sp u hcl
    exact ⟨c, get_append_left hc _, hrest⟩
  · obtain ⟨hpeer, hlayer, -⟩ := FillConn.new_frame (s.shape .server) .server (answerLayer splice) now
    refine ⟨_, ?_, hpeer, fun _ => ⟨rfl, hanswered, splice, up, hclient, hlayer⟩⟩
    cases hd
    cases splice with
    | true =>
      simp only [FillerLink.accept, if_true]
      rw [getElem?_append_right (Nat.le_add_right _ _), Nat.add_sub_cancel_left]
      rfl
    | false =>
      simp only [FillerLink.accept, Bool.false_eq_true, if_false]
      rw [getElem?_append_right (Nat.le_refl _), Nat.sub_self]
      rfl

theorem Matched.endDown (hserving : s.serving = some d) (hc : s.conns[d]? = some c) (c' : FillConn)
    (hpeer : c'.peer = c.peer) (hlayer : c'.layer = c.layer) (hended : c'.ended = true) {answered switched : Bool}
    (hanswered : answered = (s.answered || !c.ended)) :
    Matched { s.setConn d c' with answered := answered, switched := switched } := by
  have hset : (s.setConn d c').Matched := h.setConn hc hpeer hlayer (fun hend => by cases hended.symm.trans hend)
    fun hactive => by cases hended.symm.trans hactive.2
  obtain ⟨c₀, hc₀, hserver, hopen⟩ := h.down d hserving
  obtain rfl : c = c₀ := some.inj (hc.symm.trans hc₀)
  refine ⟨hset.active, hset.up, fun k hk => ?_, fun bit hheader => ?_⟩
  · obtain rfl : d = k := some.inj (hserving.symm.trans hk)
    exact ⟨c', get_set_self hc c', hpeer.trans hserver, fun hend => by cases hended.symm.trans hend⟩
  · obtain ⟨hfalse, up, hclient⟩ := h.header bit hheader
    refine ⟨?_, up, hclient⟩
    cases hend : c.ended with
    | true =>
      rw [hanswered, hfalse, hend]
      rfl
    | false => cases hheader.symm.trans (hopen hend).1

theorem Matched.finish (hserving : s.serving = some d) (hc : s.conns[d]? = some c)
    (hended : c.ended = true) : Matched { s with serving := none } where
  active i c' hc' hactive := by
    have hcurrent := h.active i c' hc' hactive
    cases hpeer : c'.peer with
    | client =>
      rw [Current, hpeer] at hcurrent ⊢
      exact hcurrent
    | server =>
      rw [Current, hpeer, current] at hcurrent
      obtain rfl : d = i := some.inj (hserving.symm.trans hcurrent)
      obtain rfl : c = c' := some.inj (hc.symm.trans hc')
      cases hended.symm.trans hactive.2
  up := h.up
  down _ hnone := by cases hnone
  header := h.header

theorem Matched.park {splice : Bool} {up : Nat} (hclient : s.client = .stream splice up)
    (hc : s.conns[up]? = some c) (hended : c.ended = true) (hanswered : s.answered = true) :
    Matched { s with client := .idle } where
  active i c' hc' hactive := by
    have hcurrent := h.active i c' hc' hactive
    cases hpeer : c'.peer with
    | client =>
      rw [Current, hpeer, current, hclient] at hcurrent
      obtain rfl : up = i := some.inj hcurrent
      obtain rfl : c = c' := some.inj (hc.symm.trans hc')
      cases hended.symm.trans hactive.2
    | server =>
      rw [Current, hpeer] at hcurrent ⊢
      exact hcurrent
  up _ _ hidle := by cases hidle
  down d hserving := by
    obtain ⟨c', hc', hpeer, hopen⟩ := h.down d hserving
    refine ⟨c', hc', hpeer, fun hend => ?_⟩
    cases hanswered.symm.trans (hopen hend).2.1
  header bit hheader := by
    cases hanswered.symm.trans (h.header bit hheader).1

theorem Matched.current_peer {peer : Peer} (hcurrent : s.current peer = some i) (hc : s.conns[i]? = some c) :
    c.peer = peer := by
  cases peer with
  | client =>
    rw [current] at hcurrent
    split at hcurrent
    · rename_i splice up hclient
      cases hcurrent
      obtain ⟨c', hc', hpeer, -⟩ := h.up splice i hclient
      obtain rfl : c = c' := some.inj (hc.symm.trans hc')
      exact hpeer
    · cases hcurrent
  | server =>
    obtain ⟨c', hc', hpeer, -⟩ := h.down i hcurrent
    obtain rfl : c = c' := some.inj (hc.symm.trans hc')
    exact hpeer

theorem Matched.write {peer : Peer} (hcurrent : s.current peer = some i) (hc : s.conns[i]? = some c)
    (shape : ShapeKnobs) (now : Int) :
    (s.setConn i (({ c with lastWrite := now } : FillConn).armFiller shape)).Matched := by
  have hcur : s.Current i c := by rw [Current, h.current_peer hcurrent hc, hcurrent]
  rcases FillConn.armFiller_cases shape { c with lastWrite := now } with harm | ⟨-, harm⟩
  · rw [harm]
    exact h.setConn hc rfl rfl id fun _ => hcur
  · rw [harm]
    exact h.setConn hc rfl rfl id fun _ => hcur

end

theorem Layered.of_matched (h : s.Layered) (hfillers : t.fillers = s.fillers)
    (hclosed : t.closed = false → s.closed = false)
    (hmatched : s.Matched → t.Matched) : t.Layered where
  written := by
    rw [hfillers]
    exact h.written
  matched hopen := hmatched (h.matched (hclosed hopen))

theorem Layered.wake {ok : Bool} (h : s.Layered) (hc : s.conns[i]? = some c)
    (hs : s.wake i c now ok = some t) : t.Layered := by
  -- the loop is the one that was there before, so that the connection is still the one its side writes to
  have hgo : ∀ pc : Option FillPc, c.filling ≠ none → s.Matched → (s.setConn i { c with filling := pc }).Matched :=
    fun pc hfilling hm => hm.setConn hc rfl rfl id fun hactive => hm.active i c hc ⟨hfilling, hactive.2⟩
  unfold FillerLink.wake at hs
  split at hs
  · cases hs
  · rename_i hpc
    have hfilling : c.filling ≠ none := by rw [hpc]; exact some_ne_none _
    split at hs
    · cases hs
      exact h.of_matched rfl id (hgo none hfilling)
    · cases hs
      exact h.of_matched rfl id (hgo _ hfilling)
  · rename_i idleMs hpc
    have hfilling : c.filling ≠ none := by rw [hpc]; exact some_ne_none _
    split at hs
    · cases hs
      exact h.of_matched rfl id (hgo _ hfilling)
    · split at hs
      · cases hs
        exact h.of_matched rfl id (hgo none hfilling)
      · rename_i hfail
        cases hs
        have hopen : s.closed = false := Bool.eq_false_iff.mpr fun hclosed => hfail (.inr (.inl hclosed))
        have hend : c.ended = false := Bool.eq_false_iff.mpr fun hended => hfail (.inl hended)
        have hm := h.matched hopen
        refine ⟨fun f hf => ?_, fun _ => ?_⟩
        · rcases mem_append.mp hf with hf | hf
          · exact h.written f hf
          · obtain rfl := mem_singleton.mp hf
            exact hm.reads hc ⟨hfilling, hend⟩
        · have hset := hgo (some .begin) hfilling hm
          exact ⟨hset.active, hset.up, hset.down, hset.header⟩

theorem Layered.step {act : Act} (h : s.Layered) (hp : s.Apart act) (hs : s.step act = some t) : t.Layered := by
  cases act with
  | setFiller peer idleMs intervalMs min max =>
    simp only [FillerLink.step] at hs
    split at hs
    · cases hs
      exact h.of_matched rfl id fun hm => ⟨hm.active, hm.up, hm.down, hm.header⟩
    · cases hs
      exact h
  | «open» now bit splice =>
    simp only [FillerLink.step] at hs
    split at hs
    · rename_i hidle
      cases hs
      exact h.of_matched rfl id fun hm => hm.openStream hidle.1 hp
    · cases hs
  | accept now splice =>
    simp only [FillerLink.step] at hs
    split at hs
    · rename_i hguard
      cases hs
      obtain ⟨hserving, hheader, hsplice, -⟩ := hguard
      obtain ⟨bit, hbit⟩ := ne_none_iff_exists'.mp hheader
      exact h.of_matched rfl id fun hm => hm.accept hserving hbit hsplice hp
    · cases hs
  | write peer now =>
    obtain ⟨i, hcurrent, hs⟩ := bind_eq_some_iff.mp hs
    obtain ⟨c, hc, hs⟩ := bind_eq_some_iff.mp hs
    split at hs
    · cases hs
    · cases hs
      exact h.of_matched rfl id fun hm => hm.write hcurrent hc _ now
  | endUp =>
    obtain ⟨i, -, hs⟩ := bind_eq_some_iff.mp hs
    obtain ⟨c, hc, rfl⟩ := map_eq_some_iff.mp hs
    refine h.of_matched rfl id fun hm => hm.setConn hc rfl rfl nofun fun hactive => ?_
    cases hactive.2
  | endDown stop =>
    obtain ⟨d, hserving, hs⟩ := bind_eq_some_iff.mp hs
    obtain ⟨c, hc, rfl⟩ := map_eq_some_iff.mp hs
    exact h.of_matched rfl id fun hm =>
      hm.endDown hserving hc { c with ended := true, stopped := c.stopped || stop } rfl rfl rfl rfl
  | switchRaw =>
    obtain ⟨d, hserving, hs⟩ := bind_eq_some_iff.mp hs
    obtain ⟨c, hc, hs⟩ := bind_eq_some_iff.mp hs
    split at hs
    · rename_i hraw
      cases hs
      refine h.of_matched rfl id fun hm => hm.endDown hserving hc { c with ended := true } rfl rfl rfl ?_
      rw [hraw.2, Bool.not_false, Bool.or_true]
    · cases hs
  | finish =>
    obtain ⟨d, hserving, hs⟩ := bind_eq_some_iff.mp hs
    obtain ⟨c, hc, hs⟩ := bind_eq_some_iff.mp hs
    split at hs
    · rename_i hended
      cases hs
      exact h.of_matched rfl id fun hm => hm.finish hserving hc hended.1
    · cases hs
  | park =>
    obtain ⟨up, hcurrent, hs⟩ := bind_eq_some_iff.mp hs
    obtain ⟨c, hc, hs⟩ := bind_eq_some_iff.mp hs
    split at hs
    · rename_i hended
      cases hs
      rw [current] at hcurrent
      split at hcurrent
      · rename_i splice up' hclient
        cases hcurrent
        exact h.of_matched rfl id fun hm => hm.park hclient hc hended.1 hended.2.1
      · cases hcurrent
    · cases hs
  | close =>
    cases hs
    exact ⟨h.written, nofun⟩
  | wake i now ok =>
    obtain ⟨c, hc, hs⟩ := bind_eq_some_iff.mp hs
    exact h.wake hc hs
  | quit i =>
    obtain ⟨c, hc, hs⟩ := bind_eq_some_iff.mp hs
    split at hs
    · cases hs
      exact h.of_matched rfl id fun hm => hm.setConn hc rfl rfl id fun hactive => absurd rfl hactive.1
    · cases hs

theorem layered_start (shape : Peer → ShapeKnobs) : (start shape).Layered where
  written _ hf := absurd hf not_mem_nil
  matched _ := {
    active := nofun
    up := nofun
    down := nofun
    header := nofun }

end
end FillerLink

open FillerLink

/-- Each filler is written where the other side reads framed records, as long as the server splices the
    streams that the client splices and no others, and the filler of a side is off while it makes the framed
    connections of a spliced stream. -/
theorem fillers_stay_on_their_layer (shape : Peer → ShapeKnobs) (acts : List Act) (s : FillerLink)
    (hrun : Run FillerLink.step Apart (start shape) acts s) : ∀ f ∈ s.fillers, f.framed = true :=
  (hrun.invariant Layered.step (layered_start shape)).written

def laterFillerActs : List Act :=
  [.open 0 true true, .accept 0 true, .setFiller .client 0 1 0 0, .setFiller .server 0 1 0 0,
   .write .client 1, .write .server 1,
    .wake 0 2 true, .wake 0 3 true, .wake 3 2 true, .wake 3 3 true, .endUp, .endDown false, .park, .finish,
    .open 4 false false, .wake 4 5 true, .wake 4 6 true]

theorem fillers_stay_when_switched_on_later : ∃ s,
    Run FillerLink.step Apart (start fun _ => newShapeKnobs []) laterFillerActs s ∧
    s.fillers.map (fun f => (f.peer, f.layer)) = [(.client, .tls), (.server, .raw), (.client, .tls)] ∧
    ∀ f ∈ s.fillers, f.framed = true := by
  refine Run.exists_of_exec ?_ fun s hrun hs => ⟨hs, fillers_stay_on_their_layer _ _ s hrun⟩
  decide +kernel

/-- A filler in clear on the socket that the server reads as TLS, and one inside TLS while the client reads
    the raw socket. -/
theorem fillers_on_the_other_layer : ∃ s, AnyRun FillerLink.step (start fun _ => newShapeKnobs [])
      [.setFiller .client 0 1 0 0, .setFiller .server 0 1 0 0, .open 0 true true, .accept 0 true,
       .wake 1 1 true, .wake 1 2 true,
        .wake 2 1 true, .wake 2 2 true] s ∧
    s.client = .stream true 0 ∧ s.serving = some 3 ∧ s.answered = false ∧
    s.fillers = [{ peer := .client, layer := .raw, framed := false },
      { peer := .server, layer := .tls, framed := false }] :=
  AnyRun.exists_of_exec (by decide +kernel)

end Whispera
