import Whispera.ProxyStream
import Whispera.Theorems.FramedWriter

/-! What each step of a stream requires and what it leaves alone. The copy from the client touches the reading
side of the framed connection, the copy from the target the writing side. -/

namespace Whispera
open BigEndian Reader Transition

namespace ProxyStream

/-- What a step of the proxied stream does. -/
inductive Step (s : ProxyStream) : ProxyAct → ProxyStream → Prop
  | upRead : s.up = .read → Step s .upRead s.upRead
  | upWrite {data : Bytes} (err : Option Err) : s.up = .write data → Step s (.upWrite err) (s.upWrite data err)
  | upFinish {err : Option Err} : s.up = .finish err → Step s .upFinish (s.upFinish err)
  | downRead {r : TargetRead} {data : Bytes} {err : Option Err} {target : Target} : s.down = .read →
      s.target.read r = some (data, err, target) → Step s (.downRead r) (s.downRead data err target)
  | downReadRaw {r : TargetRead} {data : Bytes} {err : Option Err} {target : Target} : s.down = .readRaw →
      s.target.read r = some (data, err, target) → Step s (.downRead r) (s.downReadRaw data err target)
  | downWrite {data : Bytes} {err : Option Err} (d : Nat → Draws) : s.down = .write data err →
      Step s (.downWrite d) (s.downWrite d data err)
  | downWriteRaw {data : Bytes} {err : Option Err} (d : Nat → Draws) : s.down = .writeRaw data err →
      Step s (.downWrite d) (s.downWriteRaw data err)
  | downSwitch (d : Draws) : s.kind = .splice → s.down = .read → Step s (.downSwitch d) (s.downSwitch d)
  | downFinish {err : Option Err} (d : Draws) : s.down = .finish err → Step s (.downFinish d) (s.downFinish d err)
  | filler (d : FillerDraws) : s.result = none → Step s (.filler d) { s with framed := (s.framed.writeFiller d).1 }
  | collect (d : Draws) : s.up = .done → s.down = .done → s.result = none → Step s (.collect d) (s.collect d)

theorem step_inv {s s' : ProxyStream} {a : ProxyAct} (h : s.step a = some s') : Step s a s' := by
  -- one goal for each way through `step` that leads to a state, in the order of its cases
  cases a <;> simp only [step] at h <;> split at h <;> try cases h
  · exact .upRead ‹_›
  · exact .upWrite _ ‹_›
  · exact .upFinish ‹_›
  · split at h
    · cases h
    · obtain ⟨⟨data, err, target⟩, hread, h⟩ := Option.map_eq_some_iff.mp h
      cases h
      exact .downRead ‹_› hread
  · obtain ⟨⟨data, err, target⟩, hread, h⟩ := Option.map_eq_some_iff.mp h
    cases h
    exact .downReadRaw ‹_› hread
  · exact .downWrite _ ‹_›
  · exact .downWriteRaw _ ‹_›
  · rename_i hc
    exact .downSwitch _ hc.1 hc.2.2
  · exact .downFinish _ ‹_›
  · exact .filler _ ‹_›
  · rename_i hc
    exact .collect _ hc.1 hc.2.1 hc.2.2

/-- The answer and its writer are as before. -/
structure SameAnswer (s s' : ProxyStream) : Prop where
  kind : s'.kind = s.kind
  out : s'.framed.out = s.framed.out
  ended : s'.framed.ended = s.framed.ended
  endErr : s'.framed.endErr = s.framed.endErr
  switched : s'.framed.switched = s.framed.switched
  done : s.framed.done = true → s'.framed.done = true
  parts : s'.target.parts = s.target.parts
  fin : s'.target.fin = s.target.fin
  taken : s'.target.taken = s.target.taken
  down : s'.down = s.down

end ProxyStream

/-- The writing half is as before. -/
structure FramedConn.SameWriter (c c' : FramedConn) : Prop where
  out : c'.out = c.out
  ended : c'.ended = c.ended
  endErr : c'.endErr = c.endErr
  switched : c'.switched = c.switched
  done : c.done = true → c'.done = true

namespace FramedConn

theorem SameWriter.refl (c : FramedConn) : c.SameWriter c := ⟨rfl, rfl, rfl, rfl, id⟩

theorem SameWriter.trans {c c' c'' : FramedConn} (h : c.SameWriter c') (h' : c'.SameWriter c'') : c.SameWriter c'' :=
  ⟨h'.out.trans h.out, h'.ended.trans h.ended, h'.endErr.trans h.endErr, h'.switched.trans h.switched,
    fun hd => h'.done (h.done hd)⟩

theorem read_sameWriter (n : Nat) (c : FramedConn) : c.SameWriter (c.read n).2.2 := by
  unfold read
  split
  · exact ⟨rfl, rfl, rfl, rfl, id⟩
  · split
    · exact .refl c
    · split
      · exact ⟨rfl, rfl, rfl, rfl, id⟩
      · exact ⟨rfl, rfl, rfl, rfl, fun _ => rfl⟩
      · exact ⟨rfl, rfl, rfl, rfl, id⟩

theorem readFull_sameWriter (want : Nat) (c : FramedConn) : c.SameWriter (readFull FramedConn.read want c).2.2 :=
  readFull_invariant (I := c.SameWriter) (fun n c' h => h.trans (read_sameWriter n c')) want (.refl c)

theorem readDatagram_sameWriter (c : FramedConn) : c.SameWriter (readDatagram c).2 := by
  have h₁ := readFull_sameWriter 2 c
  unfold readDatagram
  rcases hhdr : readFull FramedConn.read 2 c with ⟨hdr, _ | e, c₁⟩ <;> rw [hhdr] at h₁
  · dsimp only
    split
    · exact h₁
    · have h₂ := readFull_sameWriter (get hdr) c₁
      rcases hdata : readFull FramedConn.read (get hdr) c₁ with ⟨data, _ | e, c₂⟩ <;> rw [hdata] at h₂
      · exact h₁.trans h₂
      · exact h₁.trans h₂
  · exact h₁

end FramedConn

namespace ProxyStream
variable {s s' : ProxyStream}

theorem upRead_eq (s : ProxyStream) : ∃ framed up, s.upRead = { s with framed, up } ∧ s.framed.SameWriter framed := by
  have hread := FramedConn.read_sameWriter bufSize s.framed
  have hdatagram := FramedConn.readDatagram_sameWriter s.framed
  unfold upRead
  cases s.kind with
  | udp =>
    rcases hr : readDatagram s.framed with ⟨_ | data, c⟩ <;> rw [hr] at hdatagram
    · exact ⟨c, _, rfl, hdatagram⟩
    · exact ⟨c, _, rfl, hdatagram⟩
  | tcp | splice =>
    rcases hr : s.framed.read bufSize with ⟨data, _ | e, c⟩ <;> rw [hr] at hread
    · exact ⟨c, _, rfl, hread⟩
    · exact ⟨c, _, rfl, hread⟩

theorem sameAnswer_upRead (s : ProxyStream) : s.SameAnswer s.upRead := by
  obtain ⟨framed, up, heq, h⟩ := s.upRead_eq
  rw [heq]
  exact ⟨rfl, h.out, h.ended, h.endErr, h.switched, h.done, rfl, rfl, rfl, rfl⟩

theorem sameAnswer_upWrite (s : ProxyStream) (data : Bytes) (err : Option Err) : s.SameAnswer (s.upWrite data err) := by
  cases err <;> exact ⟨rfl, rfl, rfl, rfl, rfl, id, rfl, rfl, rfl, rfl⟩

theorem sameAnswer_upFinish (s : ProxyStream) (err : Option Err) : s.SameAnswer (s.upFinish err) := by
  unfold upFinish
  split <;> exact ⟨rfl, rfl, rfl, rfl, rfl, id, rfl, rfl, rfl, rfl⟩

end ProxyStream

theorem Target.read_spec {t t' : Target} {r : TargetRead} {data : Bytes} {err : Option Err}
    (h : t.read r = some (data, err, t')) : t'.fin = t.fin ∧ t'.closed = t.closed ∧ t'.deadline = t.deadline ∧
      ((t.parts = data :: t'.parts ∧ t'.taken = t.taken ++ [data] ∧ ∀ e, err = some e → t.fin = some e ∧
       t'.parts = []) ∨
       (t' = t ∧ data = [] ∧ ∃ e, err = some e ∧ (e = .eof → t.fin = some e ∧ t.parts = []))) := by
  cases r <;> simp only [Target.read] at h <;> split at h <;> try cases h
  · rename_i hparts
    split at h <;> cases h
    exact ⟨rfl, rfl, rfl, .inl ⟨hparts, rfl, nofun⟩⟩
  · rename_i hparts hfin
    split at h <;> cases h
    refine ⟨rfl, rfl, rfl, .inl ⟨hparts, rfl, fun e he => ?_⟩⟩
    cases he
    exact ⟨hfin, rfl⟩
  · rename_i hparts hfin
    split at h <;> cases h
    exact ⟨rfl, rfl, rfl, .inr ⟨rfl, rfl, _, rfl, fun _ => ⟨hfin, hparts⟩⟩⟩
  · exact ⟨rfl, rfl, rfl, .inr ⟨rfl, rfl, _, rfl, nofun⟩⟩
  · exact ⟨rfl, rfl, rfl, .inr ⟨rfl, rfl, _, rfl, nofun⟩⟩

namespace ProxyStream
variable {s s' : ProxyStream}

/-- The target's parts are the same, some of them taken. -/
structure Targets (s₀ s : ProxyStream) : Prop where
  kind : s.kind = s₀.kind
  fin : s.target.fin = s₀.target.fin
  parts : s.target.taken ++ s.target.parts = s₀.target.parts

theorem Targets.of_eq {s₀ : ProxyStream} (h : Targets s₀ s) (hkind : s'.kind = s.kind)
    (htarget : s'.target = s.target) :
    Targets s₀ s' :=
  ⟨hkind.trans h.kind, by rw [htarget, h.fin], by rw [htarget, h.parts]⟩

theorem Targets.read {s₀ : ProxyStream} (h : Targets s₀ s) {r : TargetRead} {data : Bytes} {err : Option Err}
    {target : Target} (hread : s.target.read r = some (data, err, target)) (hkind : s'.kind = s.kind)
    (htarget : s'.target = target) : Targets s₀ s' := by
  obtain ⟨hfin, -, -, ⟨hparts, htaken, -⟩ | ⟨rfl, -⟩⟩ := Target.read_spec hread
  · refine ⟨hkind.trans h.kind, by rw [htarget, hfin, h.fin], ?_⟩
    rw [htarget, htaken, ← h.parts, hparts, List.append_assoc]
    rfl
  · exact h.of_eq hkind htarget

theorem Targets.step {s₀ : ProxyStream} {a : ProxyAct} (h : Targets s₀ s) (hs : s.step a = some s') :
    Targets s₀ s' := by
  have hsame : ∀ {s'}, s.SameAnswer s' → Targets s₀ s' := fun heq =>
    ⟨heq.kind.trans h.kind, heq.fin.trans h.fin, by rw [heq.taken, heq.parts, h.parts]⟩
  cases step_inv hs with
  | upRead _ => exact hsame s.sameAnswer_upRead
  | upWrite err _ => exact hsame (s.sameAnswer_upWrite _ err)
  | upFinish _ => exact hsame (s.sameAnswer_upFinish _)
  | downRead hdown hread | downReadRaw hdown hread =>
    rename_i data err target
    cases err <;> exact h.read hread rfl rfl
  | downWrite d _ =>
    unfold downWrite
    split <;> exact h.of_eq rfl rfl
  | downWriteRaw _ _ =>
    unfold downWriteRaw
    split <;> exact h.of_eq rfl rfl
  | downSwitch d _ _ =>
    unfold downSwitch
    split <;> exact h.of_eq rfl rfl
  | downFinish d _ =>
    unfold downFinish
    split <;> exact h.of_eq rfl rfl
  | filler d _ => exact h.of_eq rfl rfl
  | collect d _ _ _ =>
    unfold collect
    split <;> exact h.of_eq rfl rfl

end ProxyStream

end Whispera
