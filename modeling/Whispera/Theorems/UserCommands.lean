import Whispera.Lib.Processes
import Whispera.Lib.Transition
import Whispera.Theorems.UserStore

/-! As long as no command replaces the file while another one has it loaded, the file has the effects of all
of them, up to commands that undo one another. -/

namespace Whispera
open List Processes Table Transition

def User.keys (u : User) : UserKeys := { privateKey := u.privateKey, publicKey := u.publicKey }

namespace UserCommand

def Upserts (c : UserCommand) (username : List Char) : Prop :=
  match c with
  | .upsert n _ _ => n = username
  | .delete _ | .buildKey _ _ => False

def Deletes (c : UserCommand) (username : List Char) : Prop :=
  match c with
  | .delete n => n = username
  | .upsert _ _ _ | .buildKey _ _ => False

def Builds (c : UserCommand) (username : List Char) : Prop :=
  match c with
  | .buildKey n _ => n = username
  | .upsert _ _ _ | .delete _ => False

/-- The user with the keys it returned, no user of the name, the key it returned. -/
def Done (c : UserCommand) (r : CommandResult) (p : UserPersist) : Prop :=
  match c, r with
  | .upsert username _ _, .keys k => ∃ u ∈ p.users, u.username = username ∧ u.keys = k
  | .delete username, .deleted _ => ¬ p.Names username
  | .buildKey username _, .uri text => ∃ u ∈ p.users, u.username = username ∧ u.connectionURI = text
  | _, _ => True

def Undoes (d c : UserCommand) : Prop :=
  match c with
  | .upsert username _ _ => d.Deletes username
  | .delete username => d.Upserts username
  | .buildKey username _ => d.Deletes username ∨ d.Builds username

end UserCommand

theorem UserPersist.DistinctIDs.inj {p : UserPersist} (hp : p.DistinctIDs) {u v : User} (hu : u ∈ p.users)
    (hv : v ∈ p.users)
    (h : u.id = v.id) : u = v :=
  inj_on_of_nodup_map hp hu hv h

/-- The ids are in the range that the next id is above, and no two users have one id or one name. -/
structure UserPersist.Proper (p : UserPersist) : Prop where
  ids : p.DistinctIDs
  names : ∀ u ∈ p.users, ∀ v ∈ p.users, u.username = v.username → u = v
  range : ∀ u ∈ p.users, 0 < u.id ∧ u.id < p.freeID

/-- The file has what every command was to do that no later one takes back. -/
def Reflects (p : UserPersist) (log : List (UserCommand × CommandResult)) : Prop :=
  ∀ earlier c r later, log = earlier ++ (c, r) :: later → (∀ d ∈ later, ¬ d.1.Undoes c) → c.Done r p

/-- What a command that returned `r` makes of the file, up to the users of other names. -/
structure Effect (c : UserCommand) (r : CommandResult) (p p' : UserPersist) : Prop where
  proper : p'.Proper
  kept : ∀ u ∈ p.users, ¬ c.Deletes u.username → ∃ u' ∈ p'.users, u'.username = u.username ∧ u'.keys = u.keys ∧
    (¬ c.Builds u.username → u'.connectionURI = u.connectionURI)
  added : ∀ u ∈ p'.users, ¬ c.Upserts u.username → p.Names u.username
  done : c.Done r p'

section Effect
variable {c : UserCommand} {r : CommandResult} {p p' : UserPersist}

theorem Effect.carry (h : Effect c r p p') {c₀ : UserCommand} {r₀ : CommandResult} (hno : ¬ c.Undoes c₀)
    (hd : c₀.Done r₀ p) :
    c₀.Done r₀ p' := by
  cases c₀ with
  | upsert username keys now =>
    cases r₀ with
    | keys k =>
      obtain ⟨u, hu, rfl, hk⟩ := hd
      obtain ⟨u', hu', hn, hk', -⟩ := h.kept u hu hno
      exact ⟨u', hu', hn, hk'.trans hk⟩
    | _ => trivial
  | delete username =>
    cases r₀ with
    | deleted found =>
      rintro ⟨u, hu, rfl⟩
      exact hd (h.added u hu hno)
    | keys _ | uri _ | failed | notFound => trivial
  | buildKey username uri =>
    cases r₀ with
    | uri text =>
      obtain ⟨u, hu, rfl, hk⟩ := hd
      obtain ⟨hnd, hnb⟩ := not_or.mp hno
      obtain ⟨u', hu', hn, -, huri⟩ := h.kept u hu hnd
      exact ⟨u', hu', hn, (huri hnb).trans hk⟩
    | _ => trivial

theorem Effect.reflects (h : Effect c r p p') {log : List (UserCommand × CommandResult)} (hlog : Reflects p log) :
    Reflects p' (log ++ [(c, r)]) := by
  intro earlier c₀ r₀ later hsplit hlater
  rcases eq_nil_or_concat later with rfl | ⟨l, d, rfl⟩
  · -- the command itself
    obtain ⟨-, heq⟩ := append_inj' hsplit rfl
    cases heq
    exact h.done
  · rw [concat_eq_append] at hsplit hlater
    rw [← cons_append, ← append_assoc] at hsplit
    obtain ⟨hbefore, heq⟩ := append_inj' hsplit rfl
    cases heq
    have hdone := hlog earlier c₀ r₀ l hbefore fun d hd => hlater d (mem_append_left _ hd)
    exact h.carry (hlater (c, r) (mem_append_right _ mem_cons_self)) hdone

end Effect

namespace UserMemory
variable {s t : UserMemory} {p : UserPersist} {find save : List Int}

def Keyed (s : UserMemory) : Prop := ∀ i u, s.users.lookup i = some u → u.id = i

theorem Keyed.snapshot_distinct (h : s.Keyed) (hsave : save.Perm s.users.keys) : (s.snapshot save).DistinctIDs := by
  rw [UserPersist.DistinctIDs, snapshot, List.Nodup, pairwise_map, pairwise_filterMap]
  refine (hsave.nodup_iff.mpr s.users.keys_nodup).imp fun hne u hu v hv => ?_
  rwa [h _ u hu, h _ v hv]

theorem Loaded.keyed (hs : s.Loaded p) (hp : p.DistinctIDs) : s.Keyed := fun i u h => ((hs.lookup hp i u).mp h).2

theorem Keyed.insert (h : s.Keyed) (v : User) (ht : t.users = s.users.insert v.id v) : t.Keyed := by
  intro i u hu
  rw [ht] at hu
  rcases eq_or_ne i v.id with rfl | hne
  · rw [AList.lookup_insert] at hu
    exact (congrArg User.id (Option.some.inj hu)).symm
  · rw [AList.lookup_insert_ne hne] at hu
    exact h i u hu

theorem Keyed.erase (h : s.Keyed) {id : Int} (ht : t.users = s.users.erase id) : t.Keyed := by
  intro i u hu
  rw [ht] at hu
  rcases eq_or_ne i id with rfl | hne
  · rw [AList.lookup_erase] at hu
    cases hu
  · rw [AList.lookup_erase_ne hne] at hu
    exact h i u hu

theorem Loaded.mem_snapshot_erase (hs : s.Loaded p) (hp : p.DistinctIDs) {id : Int} (ht : t.users = s.users.erase id)
    (hsave : save.Perm t.users.keys) (u : User) : u ∈ (t.snapshot save).users ↔ u ∈ p.users ∧ u.id ≠ id := by
  rw [UserMemory.mem_snapshot hsave, ht]
  constructor
  · rintro ⟨i, hi⟩
    rcases eq_or_ne i id with rfl | hne
    · rw [AList.lookup_erase] at hi
      cases hi
    · rw [AList.lookup_erase_ne hne] at hi
      obtain ⟨hu, rfl⟩ := (hs.lookup hp i u).mp hi
      exact ⟨hu, hne⟩
  · rintro ⟨hu, hne⟩
    exact ⟨u.id, by rw [AList.lookup_erase_ne hne]; exact (hs.lookup hp u.id u).mpr ⟨hu, rfl⟩⟩

theorem effect_same {c : UserCommand} {r : CommandResult} {p' : UserPersist} (hp : p.Proper) (hids : p'.DistinctIDs)
    (hmem : ∀ u, u ∈ p'.users ↔ u ∈ p.users) (hfree : p'.freeID = p.freeID) (hd : c.Done r p') : Effect c r p p' where
  proper := ⟨hids, fun u hu v hv => hp.names u ((hmem u).mp hu) v ((hmem v).mp hv),
    fun u hu => hfree ▸ hp.range u ((hmem u).mp hu)⟩
  kept := fun u hu _ => ⟨u, (hmem u).mpr hu, rfl, rfl, fun _ => rfl⟩
  added := fun u hu _ => ⟨u, (hmem u).mp hu, rfl⟩
  done := hd

theorem effect_unsaved {c : UserCommand} {r : CommandResult} (hp : p.Proper) (hd : c.Done r p) : Effect c r p p :=
  effect_same hp hp.ids (fun _ => Iff.rfl) rfl hd

theorem one_le_freeID (p : UserPersist) : 1 ≤ p.freeID := by
  unfold UserPersist.freeID
  split <;> omega

theorem freeID_snapshot (h : 1 ≤ t.nextUserID) (save : List Int) : (t.snapshot save).freeID = t.nextUserID := by
  show (if 1 < t.nextUserID then t.nextUserID else 1) = t.nextUserID
  omega

section
variable (hs : s.Loaded p) (hp : p.Proper) (hfind : find.Perm s.users.keys)
include hs hp hfind

variable {username : List Char} {saves : Bool}

theorem Loaded.effect_upsert {keys : Option UserKeys} {now : Int} {r : CommandResult}
    (hroom : p.freeID < 9223372036854775807)
    (hmod : (UserCommand.upsert username keys now).modify find s = (t, r, saves)) (hsave : save.Perm t.users.keys) :
    Effect (.upsert username keys now) r p (if saves then t.snapshot save else p) := by
  rcases hs.upsert hp.ids hfind with ⟨u, hu, hun, h⟩ | ⟨-, -, h⟩ | ⟨hno, k, -, h⟩
  · rw [hmod] at h
    cases h
    have hmem := hs.mem_snapshot hp.ids hsave
    refine effect_same hp ((hs.keyed hp.ids).snapshot_distinct hsave) hmem ?_ ⟨u, (hmem u).mpr hu, hun, rfl⟩
    rw [if_pos rfl, freeID_snapshot (hs.nextUserID ▸ one_le_freeID p), hs.nextUserID]
  · rw [hmod] at h
    cases h
    exact effect_unsaved hp trivial
  · rw [hmod] at h
    cases h
    have hmem := hs.mem_snapshot_insert hp.ids rfl hsave
    have hone := one_le_freeID p
    have hwrap : Exec.wrap (p.freeID + 1) = p.freeID + 1 := Exec.wrap_of_lt (by omega) (by omega)
    have hfree : (snapshot ⟨s.users.insert p.freeID (p.newUser username k now), Exec.wrap (p.freeID + 1),
      s.usersFileModTime,
        s.version⟩ save).freeID = p.freeID + 1 := by
      rw [freeID_snapshot _ save]
      · exact hwrap
      · show 1 ≤ Exec.wrap (p.freeID + 1)
        omega
    have hnew := (hmem _).mpr (.inl rfl)
    have hold := fun (u : User) (hu : u ∈ p.users) => (hmem u).mpr (.inr ⟨hu, (Int.ne_of_lt (hp.range u hu).2)⟩)
    refine ⟨⟨?_, fun u hu v hv huv => ?_, fun u hu => ?_⟩, fun u hu _ => ⟨u, hold u hu, rfl, rfl, fun _ => rfl⟩,
      fun u hu hno' => ?_, ⟨_, hnew, rfl, rfl⟩⟩
    · exact ((hs.keyed hp.ids).insert (p.newUser username k now) rfl).snapshot_distinct hsave
    · rcases (hmem u).mp hu with rfl | ⟨hu, -⟩ <;> rcases (hmem v).mp hv with rfl | ⟨hv, -⟩
      · rfl
      · exact absurd ⟨v, hv, huv.symm⟩ hno
      · exact absurd ⟨u, hu, huv⟩ hno
      · exact hp.names u hu v hv huv
    · rw [if_pos rfl, hfree]
      rcases (hmem u).mp hu with rfl | ⟨hu, -⟩
      · simp only [UserPersist.newUser]
        omega
      · have := hp.range u hu
        omega
    · rcases (hmem u).mp hu with rfl | ⟨hu, -⟩
      · exact absurd rfl hno'
      · exact ⟨u, hu, rfl⟩

theorem Loaded.effect_delete {r : CommandResult}
    (hmod : (UserCommand.delete username).modify find s = (t, r, saves)) (hsave : save.Perm t.users.keys) :
    Effect (.delete username) r p (if saves then t.snapshot save else p) := by
  simp only [UserCommand.modify] at hmod
  cases hf : s.find find username with
  | none =>
    rw [hf] at hmod
    cases hmod
    exact effect_unsaved hp (hs.find_none hp.ids hfind hf)
  | some id =>
    obtain ⟨u, hu, rfl, rfl, -⟩ := hs.find_some hp.ids hf
    have hid : u.id ≠ -1 := fun h => by
      have := (hp.range u hu).1
      omega
    rw [hf] at hmod
    simp only [if_neg hid] at hmod
    cases hmod
    have hmem := hs.mem_snapshot_erase hp.ids rfl hsave
    have hfree := (freeID_snapshot (t := { s with users := s.users.erase u.id })
      (hs.nextUserID ▸ one_le_freeID p) save).trans
      hs.nextUserID
    refine ⟨⟨?_, fun v hv w hw => hp.names v ((hmem v).mp hv).1 w ((hmem w).mp hw).1, fun v hv => ?_⟩,
      fun v hv hno => ⟨v, (hmem v).mpr ⟨hv, ?_⟩, rfl, rfl, fun _ => rfl⟩,
      fun v hv _ => ⟨v, ((hmem v).mp hv).1, rfl⟩, ?_⟩
    · exact ((hs.keyed hp.ids).erase rfl).snapshot_distinct hsave
    · rw [if_pos rfl, hfree]
      exact hp.range v ((hmem v).mp hv).1
    · exact fun hid => hno (congrArg User.username (hp.ids.inj hv hu hid)).symm
    · rintro ⟨v, hv, hvn⟩
      obtain ⟨hv, hne⟩ := (hmem v).mp hv
      exact hne (congrArg User.id (hp.names v hv u hu hvn))

omit hfind in
theorem Loaded.effect_buildKey {uri : User → Option (List Char)} {r : CommandResult}
    (hmod : (UserCommand.buildKey username uri).modify find s = (t, r, saves)) (hsave : save.Perm t.users.keys) :
    Effect (.buildKey username uri) r p (if saves then t.snapshot save else p) := by
  simp only [UserCommand.modify] at hmod
  cases hf : s.find find username with
  | none =>
    rw [hf] at hmod
    cases hmod
    exact effect_unsaved hp trivial
  | some id =>
    obtain ⟨u, hu, rfl, rfl, hl⟩ := hs.find_some hp.ids hf
    rw [hf] at hmod
    simp only [hl] at hmod
    cases htext : uri u with
    | none =>
      rw [htext] at hmod
      cases hmod
      exact effect_unsaved hp trivial
    | some text =>
      rw [htext] at hmod
      cases hmod
      have hmem := hs.mem_snapshot_insert hp.ids rfl hsave
      have hfree := (freeID_snapshot (t := { s with users := s.users.insert u.id { u with connectionURI := text } })
        (hs.nextUserID ▸ one_le_freeID p) save).trans hs.nextUserID
      have hnew := (hmem _).mpr (.inl rfl)
      refine ⟨⟨?_, fun v hv w hw hvw => ?_, fun v hv => ?_⟩, fun v hv _ => ?_, fun v hv _ => ?_, ⟨_, hnew, rfl, rfl⟩⟩
      · exact ((hs.keyed hp.ids).insert { u with connectionURI := text } rfl).snapshot_distinct hsave
      · rcases (hmem v).mp hv with rfl | ⟨hv, hvne⟩ <;> rcases (hmem w).mp hw with rfl | ⟨hw, hwne⟩
        · rfl
        · exact absurd (congrArg User.id (hp.names w hw u hu hvw.symm)) hwne
        · exact absurd (congrArg User.id (hp.names v hv u hu hvw)) hvne
        · exact hp.names v hv w hw hvw
      · rw [if_pos rfl, hfree]
        rcases (hmem v).mp hv with rfl | ⟨hv, -⟩
        · exact hp.range u hu
        · exact hp.range v hv
      · by_cases hid : v.id = u.id
        · obtain rfl := hp.ids.inj hv hu hid
          exact ⟨_, hnew, rfl, rfl, fun hno => absurd rfl hno⟩
        · exact ⟨v, (hmem v).mpr (.inr ⟨hv, hid⟩), rfl, rfl, fun _ => rfl⟩
      · rcases (hmem v).mp hv with rfl | ⟨hv, -⟩
        · exact ⟨u, hu, rfl⟩
        · exact ⟨v, hv, rfl⟩

theorem Loaded.effect {c : UserCommand} {r : CommandResult} (hroom : p.freeID < 9223372036854775807)
    (hmod : c.modify find s = (t, r, saves))
    (hsave : save.Perm t.users.keys) : Effect c r p (if saves then t.snapshot save else p) := by
  cases c with
  | upsert username keys now => exact hs.effect_upsert hp hfind hroom hmod hsave
  | delete username => exact hs.effect_delete hp hfind hmod hsave
  | buildKey username uri => exact hs.effect_buildKey hp hmod hsave

end
end UserMemory

namespace UserCommands

def OthersIdle (s : UserCommands) (i : Nat) : Prop :=
  ∀ j < s.processes.length, j ≠ i → ∀ q ∈ s.processes[j]?, q.active = false

instance (s : UserCommands) (i : Nat) : Decidable (s.OthersIdle i) :=
  inferInstanceAs (Decidable (∀ j < s.processes.length, _))

/-- The operations on files succeed, a process writes only while no other has the file loaded, and there is an
    id left. -/
def Apart (s : UserCommands) : Act → Prop
  | .begin _ => True
  | .load _ _ read => read = true
  | .modify _ _ _ => (UsersFile.content s.file).freeID < 9223372036854775807
  | .write i ok | .rename i _ ok => ok = true ∧ s.OthersIdle i

instance (s : UserCommands) (act) : Decidable (s.Apart act) := by
  unfold Apart
  split <;> infer_instance

def PcSound (s : UserCommands) (c : UserCommand) : CommandPc → Prop
  | .load => True
  | .modify st => st.Loaded (UsersFile.content s.file)
  | .write p r => Effect c r (UsersFile.content s.file) p
  | .rename p r => Effect c r (UsersFile.content s.file) p ∧ s.tmp = some p
  | .returned r => (c, r) ∈ s.log

/-- The file holds what the commands logged have left. -/
structure Sound (s : UserCommands) : Prop where
  proper : (UsersFile.content s.file).Proper
  pcs : ∀ q ∈ s.processes, s.PcSound q.cmd q.pc
  reflects : Reflects (UsersFile.content s.file) s.log

section
variable {s t : UserCommands} {i : Nat} {q : UserProcess}

theorem PcSound.of_eq (hfile : t.file = s.file) (htmp : t.tmp = s.tmp) (hlog : ∀ e ∈ s.log, e ∈ t.log) {c : UserCommand}
    {pc : CommandPc} (h : s.PcSound c pc) : t.PcSound c pc := by
  cases pc with
  | load => trivial
  | modify st | write p r =>
    simp only [PcSound, hfile] at h ⊢
    exact h
  | rename p r =>
    simp only [PcSound, hfile, htmp] at h ⊢
    exact h
  | returned r => exact hlog _ h

theorem PcSound.of_idle (hidle : q.active = false) (hlog : ∀ e ∈ s.log, e ∈ t.log) (h : s.PcSound q.cmd q.pc) :
    t.PcSound q.cmd q.pc := by
  cases hpc : q.pc with
  | load => trivial
  | returned r =>
    rw [hpc] at h
    exact hlog _ h
  | modify st | write p r | rename p r =>
    rw [UserProcess.active, hpc] at hidle
    cases hidle

theorem OthersIdle.idle (h : s.OthersIdle i) {j : Nat} (hj : j ≠ i) {q' : UserProcess}
    (hq : s.processes[j]? = some q') :
    q'.active = false :=
  h j (List.getElem?_eq_some_iff.mp hq).choose hj q' hq

theorem Sound.pc (h : s.Sound) (hq : q ∈ s.processes) {pc : CommandPc} (hpc : q.pc = pc) : s.PcSound q.cmd pc :=
  hpc ▸ h.pcs q hq

theorem Sound.move (h : s.Sound) {pc : CommandPc} (hpc : s.PcSound q.cmd pc) : (s.move i q pc).Sound where
  proper := h.proper
  pcs := by
    intro q' hq'
    rcases mem_or_eq_of_mem_set hq' with hq' | rfl
    · exact (h.pcs q' hq').of_eq rfl rfl fun _ he => he
    · exact hpc.of_eq rfl rfl fun _ he => he
  reflects := h.reflects

theorem Sound.finish {r : CommandResult} {p : UserPersist} (h : s.Sound) (hq : s.processes[i]? = some q)
    (he : Effect q.cmd r (UsersFile.content s.file) p) (hproc : t.processes = (s.finish i q r).processes)
    (hlog : t.log = (s.finish i q r).log) (hfile : UsersFile.content t.file = p)
    (hsame : (t.file = s.file ∧ t.tmp = s.tmp) ∨ s.OthersIdle i) : t.Sound := by
  have hold : ∀ e ∈ s.log, e ∈ t.log := fun e he => by
    rw [hlog]
    exact mem_append_left _ he
  refine ⟨hfile ▸ he.proper, fun q' hq' => ?_, ?_⟩
  · rw [hproc] at hq'
    obtain ⟨j, hj⟩ := mem_iff_getElem?.mp hq'
    rcases get_set_cases hq hj with ⟨-, rfl⟩ | ⟨hne, hj⟩
    · show (q.cmd, r) ∈ t.log
      rw [hlog]
      exact mem_append_right _ mem_cons_self
    · have hpc := h.pcs q' (mem_of_getElem? hj)
      rcases hsame with ⟨hf, ht⟩ | hidle
      · exact hpc.of_eq hf ht hold
      · exact hpc.of_idle (hidle.idle hne hj) hold
  · rw [hlog, hfile]
    exact he.reflects h.reflects

end

theorem sound_step {s t : UserCommands} {act : Act} (h : s.Sound) (ha : s.Apart act)
    (hs : s.step act = some t) : t.Sound := by
  cases act with
  | begin cmd =>
    cases hs
    refine ⟨h.proper, fun q hq => ?_, h.reflects⟩
    rcases mem_append.mp hq with hq | hq
    · exact (h.pcs q hq).of_eq rfl rfl fun _ he => he
    · obtain rfl := mem_singleton.mp hq
      trivial
  | load i stat read =>
    simp only [step] at hs
    split at hs
    · rename_i q hq
      split at hs <;> cases hs
      obtain rfl : read = true := ha
      exact h.move (UserMemory.loaded_apply stat true s.file)
    · cases hs
  | modify i find save =>
    simp only [step] at hs
    split at hs
    · rename_i q hq
      split at hs
      · rename_i st hpc
        have hst : st.Loaded (UsersFile.content s.file) := h.pc (mem_of_getElem? hq) hpc
        rcases hmod : q.cmd.modify find st with ⟨st', r, saves⟩
        simp only [stepModify, hmod] at hs
        split at hs
        · rename_i hv
          have he := hst.effect h.proper hv.1 ha hmod hv.2
          cases saves with
          | true =>
            cases hs
            exact h.move he
          | false =>
            cases hs
            exact h.finish hq he rfl rfl rfl (.inl ⟨rfl, rfl⟩)
        · cases hs
      · cases hs
    · cases hs
  | write i ok =>
    obtain ⟨rfl, hidle⟩ := ha
    simp only [step] at hs
    split at hs
    · rename_i q hq
      split at hs <;> cases hs
      rename_i p r hpc
      have he : Effect q.cmd r (UsersFile.content s.file) p := h.pc (mem_of_getElem? hq) hpc
      refine ⟨h.proper, fun q' hq' => ?_, h.reflects⟩
      obtain ⟨j, hj⟩ := mem_iff_getElem?.mp hq'
      rcases get_set_cases hq hj with ⟨-, rfl⟩ | ⟨hne, hj⟩
      · exact ⟨he, rfl⟩
      · exact PcSound.of_idle (s := s) (hidle.idle hne hj) (fun _ he => he) (h.pcs q' (mem_of_getElem? hj))
    · cases hs
  | rename i now ok =>
    obtain ⟨rfl, hidle⟩ := ha
    simp only [step] at hs
    split at hs
    · rename_i q hq
      split at hs
      · rename_i p r hpc
        obtain ⟨he, htmp⟩ : Effect q.cmd r (UsersFile.content s.file) p ∧ s.tmp = some p :=
          h.pc (mem_of_getElem? hq) hpc
        rw [htmp] at hs
        cases hs
        exact h.finish hq he rfl rfl rfl (.inr hidle)
      · cases hs
    · cases hs

end UserCommands
end Whispera
