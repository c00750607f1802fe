import Whispera.Lib.Processes
import Whispera.Lib.Transition
import Whispera.UserWatch

/-! Loads that overtake each other leave an older modification time behind whenever they leave an older table,
and the next tick reads the file again. A load whose `Stat` finds no file leaves no time, and an older table
under the time of the file. -/

namespace Whispera
open List Option Processes Transition

namespace UserServer

def times (s : UserServer) : List Nat := s.files.map (·.modTime)

/-- Each replacement gives the file a new modification time, and a load finds that of the file. -/
def Steady (s : UserServer) : Act → Prop
  | .replace _ now => now ∉ s.times
  | .apply | .tick => True
  | .go i ok => s.loads[i]? = some .stat → ok = true ∧ s.file ≠ none

instance (s : UserServer) (act) : Decidable (s.Steady act) := by
  unfold Steady
  split <;> infer_instance

def Dated (s : UserServer) (modTime : Nat) (p : UserPersist) : Prop :=
  modTime ∈ s.times ∧ ∀ f, s.file = some f → f.modTime = modTime → f.data = some p

def LoadSound (s : UserServer) : LoadPc → Prop
  | .tick | .compare _ | .stat | .done => True
  | .read m => ∃ t, m = some t ∧ t ∈ s.times
  | .publish m p => ∃ t, m = some t ∧ s.Dated t p

/-- The store has the users of the time that it notes. -/
structure Sound (s : UserServer) : Prop where
  loads : ∀ pc ∈ s.loads, s.LoadSound pc
  store : ∀ t, s.store.usersFileModTime = some t → ∃ p, s.Dated t p ∧ s.store.users = p.fresh

section
variable {s t : UserServer} {i : Nat}

theorem mem_times {f : UsersFile} (h : s.file = some f) : f.modTime ∈ s.times :=
  List.mem_map_of_mem (mem_of_mem_head? h)

variable {data : Option UserPersist} {pc : LoadPc}

theorem Dated.replace {m : Nat} {p : UserPersist} (h : s.Dated m p) {now : Nat} (hnew : now ∉ s.times)
    (ht : t.files = { data := data, modTime := now } :: s.files) : t.Dated m p := by
  refine ⟨?_, fun f hf hm => ?_⟩
  · rw [times, ht]
    exact mem_cons_of_mem _ h.1
  · rw [file, ht] at hf
    cases hf
    obtain rfl : now = m := hm
    exact absurd h.1 hnew

theorem LoadSound.replace (h : s.LoadSound pc) {now : Nat} (hnew : now ∉ s.times)
    (ht : t.files = { data := data, modTime := now } :: s.files) : t.LoadSound pc := by
  cases pc with
  | tick | compare m | stat | done => trivial
  | read m =>
    obtain ⟨k, rfl, hk⟩ := h
    refine ⟨k, rfl, ?_⟩
    rw [times, ht]
    exact mem_cons_of_mem _ hk
  | publish m p =>
    obtain ⟨k, rfl, hk⟩ := h
    exact ⟨k, rfl, hk.replace hnew ht⟩

theorem LoadSound.of_files (h : s.LoadSound pc) (ht : t.files = s.files) : t.LoadSound pc := by
  cases pc with
  | tick | compare m | stat | done => trivial
  | read m | publish m p =>
    simp only [LoadSound, Dated, times, file, ht] at h ⊢
    exact h

theorem Sound.setLoad (h : s.Sound) (hpc : s.LoadSound pc) : (s.setLoad i pc).Sound where
  loads := by
    intro q hq
    rcases mem_or_eq_of_mem_set hq with hq | rfl
    · exact (h.loads q hq).of_files rfl
    · exact hpc.of_files rfl
  store := h.store

theorem Sound.begin (h : s.Sound) (hpc : s.LoadSound pc) : Sound { s with loads := s.loads ++ [pc] } where
  loads := by
    intro q hq
    rcases mem_append.mp hq with hq | hq
    · exact (h.loads q hq).of_files rfl
    · obtain rfl := mem_singleton.mp hq
      exact hpc.of_files rfl
  store := h.store

end

theorem sound_stepLoad {s t : UserServer} {i : Nat} {ok : Bool} {pc : LoadPc} (h : s.Sound) (hi : s.loads[i]? = some pc)
    (hsteady : pc = .stat → ok = true ∧ s.file ≠ none) (hs : s.stepLoad i ok pc = some t) : t.Sound := by
  have hpc := h.loads pc (mem_of_getElem? hi)
  cases pc with
  | tick | compare m =>
    simp only [stepLoad] at hs
    split at hs <;> cases hs
    · exact h.setLoad trivial
    · exact h.setLoad trivial
  | stat =>
    obtain ⟨rfl, hfile⟩ := hsteady rfl
    obtain ⟨f, hf⟩ := ne_none_iff_exists'.mp hfile
    cases hs
    refine h.setLoad ⟨f.modTime, ?_, mem_times hf⟩
    rw [found, if_pos rfl, hf, map_some]
  | read m =>
    obtain ⟨k, rfl, hk⟩ := hpc
    simp only [stepLoad] at hs
    split at hs <;> cases hs
    · exact h.setLoad trivial
    · rename_i p hp
      refine h.setLoad ⟨k, rfl, hk, fun f hf _ => ?_⟩
      -- what is read is the file that there is
      obtain ⟨f', hf', hp⟩ := bind_eq_some_iff.mp hp
      rw [found] at hf'
      split at hf'
      · obtain rfl := some.inj (hf.symm.trans hf')
        exact hp
      · cases hf'
  | publish m p =>
    obtain ⟨k, rfl, hk⟩ := hpc
    cases hs
    have hdone : (s.setLoad i .done).Sound := h.setLoad trivial
    refine ⟨fun q hq => (hdone.loads q hq).of_files rfl, fun m hm => ?_⟩
    obtain rfl : k = m := some.inj hm
    exact ⟨p, hk, rfl⟩
  | done => cases hs

theorem sound_step {s t : UserServer} {act : Act} (h : s.Sound) (ha : s.Steady act)
    (hs : s.step act = some t) : t.Sound := by
  cases act with
  | replace data now =>
    cases hs
    refine ⟨fun pc hpc => (h.loads pc hpc).replace ha rfl, fun m hm => ?_⟩
    obtain ⟨p, hd, hp⟩ := h.store m hm
    exact ⟨p, hd.replace ha rfl, hp⟩
  | apply | tick =>
    cases hs
    exact h.begin trivial
  | go i ok =>
    simp only [step] at hs
    split at hs
    · rename_i pc hi
      exact sound_stepLoad h hi (fun hpc => ha (hpc ▸ hi)) hs
    · cases hs

def withLoad (s : UserServer) (pc : LoadPc) : UserServer := { s with loads := s.loads ++ [pc] }

theorem setLoad_withLoad (s : UserServer) (pc pc' : LoadPc) :
    (s.withLoad pc).setLoad s.loads.length pc' = s.withLoad pc' := by
  simp [setLoad, withLoad]

theorem step_withLoad (s : UserServer) (pc : LoadPc) (ok : Bool) :
    (s.withLoad pc).step (.go s.loads.length ok) = (s.withLoad pc).stepLoad s.loads.length ok pc := by
  simp [step, withLoad]

theorem found_withLoad {s : UserServer} {f : UsersFile} (hf : s.file = some f) (pc : LoadPc) :
    (s.withLoad pc).found true = some f := hf

section
variable {s : UserServer} {f : UsersFile} {p : UserPersist}

theorem step_withLoad_tick (hf : s.file = some f) :
    (s.withLoad .tick).step (.go s.loads.length true) = some (s.withLoad (.compare f.modTime)) := by
  rw [step_withLoad, stepLoad, found_withLoad hf]
  exact congrArg some (s.setLoad_withLoad _ _)

theorem step_withLoad_compare (m : Nat) : (s.withLoad (.compare m)).step (.go s.loads.length true) =
      some (s.withLoad (if s.store.usersFileModTime = some m then .done else .stat)) := by
  rw [step_withLoad, stepLoad, setLoad_withLoad, setLoad_withLoad]
  exact (apply_ite (fun pc => some (s.withLoad pc)) _ _ _).symm

theorem step_withLoad_stat (hf : s.file = some f) :
    (s.withLoad .stat).step (.go s.loads.length true) = some (s.withLoad (.read (some f.modTime))) := by
  rw [step_withLoad, stepLoad, found_withLoad hf, setLoad_withLoad, map_some]

theorem step_withLoad_read (hf : s.file = some f) (hp : f.data = some p) (m : Option Nat) :
    (s.withLoad (.read m)).step (.go s.loads.length true) = some (s.withLoad (.publish m p)) := by
  rw [step_withLoad, stepLoad, found_withLoad hf, bind_some, hp]
  exact congrArg some (s.setLoad_withLoad _ _)

theorem step_withLoad_publish (m : Option Nat) : (s.withLoad (.publish m p)).step (.go s.loads.length true) =
      some { s.withLoad .done with store := s.store.publish m p } := by
  rw [step_withLoad, stepLoad, setLoad_withLoad]
  rfl

theorem Sound.tick (h : s.Sound) (hf : s.file = some f) (hp : f.data = some p) :
    ∃ k t, exec step s (.tick :: replicate k (.go s.loads.length true)) = some t ∧ t.file = some f ∧
      t.loads = s.loads ++ [.done] ∧ t.store.users = p.fresh := by
  by_cases hm : s.store.usersFileModTime = some f.modTime
  · -- nothing has changed since the last load
    obtain ⟨q, hdated, hq⟩ := h.store f.modTime hm
    obtain rfl : p = q := some.inj (hp.symm.trans (hdated.2 f hf rfl))
    have hcompare : (s.withLoad (.compare f.modTime)).step (.go s.loads.length true) = some (s.withLoad .done) := by
      rw [step_withLoad_compare, if_pos hm]
    refine ⟨2, s.withLoad .done, ?_, hf, rfl, hq⟩
    calc exec step s (.tick :: replicate 2 (.go s.loads.length true))
      _ = exec step (s.withLoad .tick) (replicate 2 (.go s.loads.length true)) := exec_cons rfl _
      _ = exec step (s.withLoad (.compare f.modTime)) [.go s.loads.length true] := exec_cons (step_withLoad_tick hf) _
      _ = some (s.withLoad .done) := exec_cons hcompare []
  · have hcompare : (s.withLoad (.compare f.modTime)).step (.go s.loads.length true) = some (s.withLoad .stat) := by
      rw [step_withLoad_compare, if_neg hm]
    refine ⟨5, { s.withLoad .done with store := s.store.publish (some f.modTime) p }, ?_, hf, rfl, rfl⟩
    calc exec step s (.tick :: replicate 5 (.go s.loads.length true))
      _ = exec step (s.withLoad .tick) (replicate 5 (.go s.loads.length true)) := exec_cons rfl _
      _ = exec step (s.withLoad (.compare f.modTime)) (replicate 4 (.go s.loads.length true)) :=
        exec_cons (step_withLoad_tick hf) _
      _ = exec step (s.withLoad .stat) (replicate 3 (.go s.loads.length true)) := exec_cons hcompare _
      _ = exec step (s.withLoad (.read (some f.modTime))) (replicate 2 (.go s.loads.length true)) :=
        exec_cons (step_withLoad_stat hf) _
      _ = exec step (s.withLoad (.publish (some f.modTime) p)) [.go s.loads.length true] :=
        exec_cons (step_withLoad_read hf hp _) _
      _ = some { s.withLoad .done with store := s.store.publish (some f.modTime) p } :=
        exec_cons (step_withLoad_publish _) []

end

/-- If the recorded modification time is that of the file, the table is that of the file; and a tick that runs
    by itself leaves it so. -/
theorem table_is_that_of_the_file {file : Option UsersFile} {acts : List Act} {s : UserServer}
    (h : Run step Steady { files := file.toList } acts s) :
    (∀ f, s.file = some f → s.store.usersFileModTime = some f.modTime → ∃ p, f.data = some p ∧
     s.store.users = p.fresh) ∧
    ∀ f p, s.file = some f → f.data = some p →
      ∃ k t, exec step s (.tick :: replicate k (.go s.loads.length true)) = some t ∧ t.file = some f ∧
        t.loads = s.loads ++ [.done] ∧ t.store.users = p.fresh := by
  have hsound : s.Sound := h.invariant (fun h ha hs => sound_step h ha hs)
    ⟨nofun, nofun⟩
  refine ⟨fun f hf hm => ?_, fun f p hf hp => hsound.tick hf hp⟩
  obtain ⟨p, hdated, hp⟩ := hsound.store f.modTime hm
  exact ⟨p, hdated.2 f hf rfl, hp⟩

/-- The file is replaced after a load has read it, and a tick reads it again before the load publishes the old
    users. -/
def overtaken : List Act :=
  [.apply, .go 0 true, .go 0 true, .replace (some { users := [], nextUserID := 4 }) 7, .tick, .go 1 true,
   .go 1 true, .go 1 true,
    .go 1 true, .go 1 true, .go 0 true, .tick, .go 2 true, .go 2 true, .go 2 true, .go 2 true, .go 2 true]

theorem overtaken_load_is_repaired :
    ∃ s f, Run step Steady { files := [{ data := some { users := [], nextUserID := 3 }, modTime := 5 }] } overtaken s ∧
      s.file = some f ∧ s.store.usersFileModTime = some f.modTime ∧ ∃ p, f.data = some p ∧ s.store.users = p.fresh := by
  obtain ⟨s, hrun, hfile, htime⟩ := Run.exists_of_exec (R := fun s => s.file =
    some { data := some { users := [], nextUserID := 4 }, modTime := 7 } ∧ s.store.usersFileModTime = some 7)
    (show ∃ s ∈ exec (checked step Steady)
      { files := (some { data := some { users := [], nextUserID := 3 }, modTime := 5 }).toList }
      overtaken, _ by decide) fun _ _ hs => hs
  exact ⟨s, _, hrun, hfile, htime, (table_is_that_of_the_file hrun).1 _ hfile htime⟩

def firstUsers : UserPersist :=
  { users := [{ id := 1, username := "alice".toList, status := "active".toList, createdAt := 3 }], nextUserID := 2 }

/-- A load that begins before there is a file reads the first one and publishes it, without a time, after a
    tick has loaded the second. -/
def untimed : List Act :=
  [.apply, .go 0 true, .replace (some firstUsers) 5, .go 0 true,
   .replace (some { users := [], nextUserID := 2 }) 7, .tick,
    .go 1 true, .go 1 true, .go 1 true, .go 1 true, .go 1 true, .go 0 true]

/-- The recorded time is that of the file, the user that is not in it any more is in the table, and a further
    tick leaves it there. -/
theorem untimed_load_is_kept : ∃ s, AnyRun step { files := [] } untimed s ∧ (∀ pc ∈ s.loads, pc = .done) ∧
    s.file = some { data := some { users := [], nextUserID := 2 }, modTime := 7 } ∧ s.store.usersFileModTime = some 7 ∧
    s.store.users.keys = [1] ∧ ∃ t ∈ exec step s [.tick, .go 2 true, .go 2 true], (∀ pc ∈ t.loads, pc = .done) ∧
      t.store.users.keys = [1] :=
  AnyRun.exists_of_exec (by decide)

end UserServer
end Whispera
