import Whispera.Theorems.Selector
import Whispera.Lib.Transition

/-! Builders store what they built without a look at what is stored; but each built from users that it read
after the version. So a reader that finds its own version finds users that are new enough. -/

namespace Whispera
open List Transition

namespace UserTable

section
variable {crypto : Crypto} {cfg : ServerConfig}

/-- What a step of the table does. -/
inductive Step (crypto : Crypto) (cfg : ServerConfig) (s : UserTable) : Act → UserTable → Prop
  | replace (users : List UserEntry) : Step crypto cfg s (.replace users) { s with
      installed := Function.update s.installed (s.count + 1) users
      count := s.count + 1
      replaced := (s.count + 1) :: s.replaced }
  | bump {u : Nat} : u ∈ s.replaced → Step crypto cfg s (.bump u)
      { s with replaced := s.replaced.erase u, completed := s.completed ++ [u], ver := s.ver + 1 }
  | begin (i : Nat) : Step crypto cfg s (.begin i)
      { s with calls := Function.update s.calls i { since := s.completed.length, pc := .begun } }
  | readVer {i : Nat} : (s.calls i).pc = .begun →
      Step crypto cfg s (.readVer i) (s.setPc i (.checking (if cfg.versioned then s.ver else 0)))
  | found {i : Nat} {ver : UInt64} {byTag : TagMap} (now : Int) : (s.calls i).pc = .checking ver →
      s.index.byTag = some byTag → s.index.fresh cfg.versioned ver now = true →
      Step crypto cfg s (.check i now) (s.setPc i (.returned byTag))
  | stale {i : Nat} {ver : UInt64} (now : Int) : (s.calls i).pc = .checking ver →
      Step crypto cfg s (.check i now) (s.setPc i (.building ver))
  | getUsers {i : Nat} {ver : UInt64} {users : List UserEntry} : (s.calls i).pc = .building ver → users.Perm s.users →
      Step crypto cfg s (.getUsers i users) (s.setPc i (.storing ver (buildIndex crypto cfg.sharedSecret users)))
  | store {i : Nat} {ver : UInt64} {built : TagMap} (now : Int) : (s.calls i).pc = .storing ver built →
      Step crypto cfg s (.store i now) { s.setPc i (.returned built) with
        index := { builtAt := now, builtVer := ver, hasVer := cfg.versioned, byTag := some built } }

theorem step_inv {s s' : UserTable} {a : Act} (h : s.step crypto cfg a = some s') : Step crypto cfg s a s' := by
  -- one goal for each way through `step` that leads to a state, in the order of its cases
  cases a <;> simp only [step] at h <;> (try split at h) <;> try cases h
  · exact .replace _
  · exact .bump ‹_›
  · exact .begin _
  · exact .begin _
  · exact .readVer ‹_›
  · rename_i hpc
    split at h <;> cases h
    · split
      · exact .found _ hpc ‹_› ‹_›
      · exact .stale _ hpc
    · exact .stale _ hpc
  · split at h <;> cases h
    exact .getUsers ‹_› (isPerm_iff.mp ‹_›)
  · exact .store _ ‹_›

/-- Updates that are installed or complete stay so. -/
structure Grows (s s' : UserTable) : Prop where
  completed : s.completed <+: s'.completed
  count : s.count ≤ s'.count
  installed : ∀ m ≤ s.count, s'.installed m = s.installed m

theorem Step.grows {s s' : UserTable} {a : Act} (h : Step crypto cfg s a s') : s.Grows s' := by
  cases h with
  | replace users => exact ⟨prefix_rfl, Nat.le_succ _, fun m hm => Function.update_of_ne (by omega) _ _⟩
  | bump hu => exact ⟨prefix_append _ _, le_rfl, fun _ _ => rfl⟩
  | _ => exact ⟨prefix_rfl, le_rfl, fun _ _ => rfl⟩

theorem setPc_self (s : UserTable) (i : Nat) (pc : SnapshotPc) : (s.setPc i pc).calls i = { s.calls i with pc } := by
  simp [setPc]

theorem setPc_ne {s : UserTable} {i j : Nat} (h : j ≠ i) (pc : SnapshotPc) : (s.setPc i pc).calls j = s.calls j := by
  simp [setPc, h]

theorem setPc_since (s : UserTable) (i j : Nat) (pc : SnapshotPc) :
    ((s.setPc i pc).calls j).since = (s.calls j).since := by
  by_cases hj : j = i
  · rw [hj, setPc_self]
  · rw [setPc_ne hj]

theorem Step.since_eq {s s' : UserTable} {a : Act} (h : Step crypto cfg s a s') {i : Nat} (ha : a ≠ .begin i) :
    (s'.calls i).since = (s.calls i).since := by
  cases h with
  | replace users | bump hu => rfl
  | begin j =>
    have hij : i ≠ j := fun hij => ha (hij ▸ rfl)
    simp only [Function.update_of_ne hij]
  | _ => exact setPc_since ..

end

section
variable (crypto : Crypto) (cfg : ServerConfig)

/-- The map is built from users that are as new as those of the first `r` updates to complete. -/
def Covers (s : UserTable) (byTag : TagMap) (r : Nat) : Prop :=
  r ≤ s.completed.length ∧ ∃ m users, m ≤ s.count ∧ users.Perm (s.installed m) ∧
    byTag = buildIndex crypto cfg.sharedSecret users ∧ ∀ u ∈ s.completed.take r, u ≤ m

def CallFresh (s : UserTable) (c : SnapshotCall) : Prop :=
  match c.pc with
  | .idle => True
  | .begun => c.since ≤ s.completed.length
  | .checking ver | .building ver => c.since ≤ ver.toNat ∧ ver.toNat ≤ s.completed.length
  | .storing ver built => c.since ≤ ver.toNat ∧ s.Covers crypto cfg built ver.toNat
  | .returned byTag => ∃ r, c.since ≤ r ∧ s.Covers crypto cfg byTag r

/-- The index covers the updates that its version counts. -/
structure Fresh (s : UserTable) : Prop where
  ver : s.ver.toNat = s.completed.length
  updates : ∀ u ∈ s.completed ++ s.replaced, u ≤ s.count
  index : ∀ byTag, s.index.byTag = some byTag → s.index.hasVer = true ∧ s.Covers crypto cfg byTag s.index.builtVer.toNat
  calls : ∀ i, s.CallFresh crypto cfg (s.calls i)

end

section
variable {crypto : Crypto} {cfg : ServerConfig} {s s' : UserTable}

theorem Covers.mono {byTag : TagMap} {r : Nat} (h : s.Covers crypto cfg byTag r) (hg : s.Grows s') :
    s'.Covers crypto cfg byTag r := by
  obtain ⟨hr, m, users, hm, hperm, heq, hall⟩ := h
  obtain ⟨more, hmore⟩ := hg.completed
  refine ⟨le_trans hr hg.completed.length_le, m, users, le_trans hm hg.count, ?_, heq, ?_⟩
  · rw [hg.installed m hm]
    exact hperm
  · rw [← hmore, take_append_of_le_length hr]
    exact hall

theorem CallFresh.mono {c : SnapshotCall} (h : s.CallFresh crypto cfg c) (hg : s.Grows s') :
    s'.CallFresh crypto cfg c := by
  have hlen := hg.completed.length_le
  unfold CallFresh at h ⊢
  cases hpc : c.pc with
  | idle => trivial
  | begun =>
    rw [hpc] at h
    exact le_trans h hlen
  | checking ver | building ver =>
    rw [hpc] at h
    exact ⟨h.1, le_trans h.2 hlen⟩
  | storing ver built =>
    rw [hpc] at h
    exact ⟨h.1, h.2.mono hg⟩
  | returned byTag =>
    rw [hpc] at h
    obtain ⟨r, hr, hcov⟩ := h
    exact ⟨r, hr, hcov.mono hg⟩

theorem Fresh.of_grows (h : s.Fresh crypto cfg) (hg : s.Grows s') (hver : s'.ver.toNat = s'.completed.length)
    (hupdates : ∀ u ∈ s'.completed ++ s'.replaced, u ≤ s'.count) (hindex : s'.index = s.index) {i : Nat}
    (hcall : s'.CallFresh crypto cfg (s'.calls i)) (hcalls : ∀ j, j ≠ i → s'.calls j = s.calls j) :
    s'.Fresh crypto cfg := by
  refine ⟨hver, hupdates, ?_, fun j => ?_⟩
  · intro byTag hbt
    rw [hindex] at hbt ⊢
    obtain ⟨hhas, hcov⟩ := h.index byTag hbt
    exact ⟨hhas, hcov.mono hg⟩
  · by_cases hj : j = i
    · rw [hj]
      exact hcall
    · rw [hcalls j hj]
      exact (h.calls j).mono hg

theorem grows_setPc (s : UserTable) (i : Nat) (pc : SnapshotPc) : s.Grows (s.setPc i pc) :=
  ⟨prefix_rfl, le_rfl, fun _ _ => rfl⟩

theorem Fresh.setPc (h : s.Fresh crypto cfg) {i : Nat} {pc : SnapshotPc}
    (hpc : s.CallFresh crypto cfg { s.calls i with pc }) : (s.setPc i pc).Fresh crypto cfg := by
  refine h.of_grows (grows_setPc s i pc) h.ver h.updates rfl (i := i) ?_ fun j hj => setPc_ne hj pc
  rw [setPc_self]
  exact hpc.mono (grows_setPc s i pc)

theorem fresh_start (users : List UserEntry) : (start users).Fresh crypto cfg :=
  ⟨rfl, by simp [start], by simp [start], fun _ => trivial⟩

/-- The version goes up with every update: the counter does not wrap around. -/
def Increases (s : UserTable) : Act → Prop
  | .bump _ => s.ver < s.ver + 1
  | _ => True

instance (s : UserTable) (a) : Decidable (s.Increases a) := by
  unfold Increases
  split <;> infer_instance

theorem Fresh.bump (h : s.Fresh crypto cfg) {u : Nat} (hu : u ∈ s.replaced) (hinc : s.ver < s.ver + 1) :
    Fresh crypto cfg { s with replaced := s.replaced.erase u, completed := s.completed ++ [u], ver := s.ver + 1 } := by
  have hgrows := (Step.bump hu : Step crypto cfg s _ _).grows
  refine h.of_grows hgrows ?_ ?_ rfl (i := 0) ((h.calls 0).mono hgrows) fun _ _ => rfl
  · rw [UInt64.lt_iff_toNat_lt, UInt64.toNat_add] at hinc
    rw [UInt64.toNat_add, length_append, ← h.ver]
    have hone : (1 : UInt64).toNat = 1 := rfl
    have hlt := s.ver.toNat_lt
    simp only [hone, length_singleton] at hinc ⊢
    omega
  · intro v hv
    refine h.updates v ?_
    simp only [mem_append, mem_singleton] at hv ⊢
    rcases hv with (hv | rfl) | hv
    · exact Or.inl hv
    · exact Or.inr hu
    · exact Or.inr (mem_of_mem_erase hv)

theorem Fresh.replace (h : s.Fresh crypto cfg) (users : List UserEntry) : Fresh crypto cfg { s with
    installed := Function.update s.installed (s.count + 1) users
    count := s.count + 1
    replaced := (s.count + 1) :: s.replaced } := by
  have hgrows := (Step.replace users : Step crypto cfg s _ _).grows
  refine h.of_grows hgrows h.ver ?_ rfl (i := 0) ((h.calls 0).mono hgrows) fun _ _ => rfl
  intro v hv
  simp only [mem_append, mem_cons] at hv
  rcases hv with hv | rfl | hv
  · exact Nat.le_succ_of_le (h.updates v (mem_append_left _ hv))
  · exact le_rfl
  · exact Nat.le_succ_of_le (h.updates v (mem_append_right _ hv))

theorem Fresh.covers (h : s.Fresh crypto cfg) {users : List UserEntry} (hperm : users.Perm s.users) {r : Nat}
    (hr : r ≤ s.completed.length) : s.Covers crypto cfg (buildIndex crypto cfg.sharedSecret users) r :=
  ⟨hr, s.count, users, le_rfl, hperm, rfl,
    fun u hu => h.updates u (mem_append_left _ (mem_of_mem_take hu))⟩

theorem Fresh.step {a : Act} (hcfg : cfg.versioned = true) (h : s.Fresh crypto cfg) (hinc : s.Increases a)
    (hs : s.step crypto cfg a = some s') : s'.Fresh crypto cfg := by
  cases step_inv hs with
  | replace users => exact h.replace users
  | bump hu => exact h.bump hu hinc
  | begin i =>
    have hgrows := (Step.begin i : Step crypto cfg s _ _).grows
    refine h.of_grows hgrows h.ver h.updates rfl (i := i) ?_ fun j hj => Function.update_of_ne hj _ _
    simp only [Function.update_self]
    exact le_refl s.completed.length
  | readVer hpc =>
    rename_i i
    have hcall : s.CallFresh crypto cfg (s.calls i) := h.calls i
    simp only [CallFresh, hpc] at hcall
    rw [if_pos hcfg]
    exact h.setPc ⟨h.ver ▸ hcall, le_of_eq h.ver⟩
  | found now hpc hbt hfresh =>
    rename_i i ver byTag
    have hcall : s.CallFresh crypto cfg (s.calls i) := h.calls i
    simp only [CallFresh, hpc] at hcall
    obtain ⟨hhas, hcov⟩ := h.index byTag hbt
    have hver : s.index.builtVer = ver := by
      simpa [SelectorIndex.fresh, hcfg, hhas] using hfresh
    exact h.setPc ⟨ver.toNat, hcall.1, hver ▸ hcov⟩
  | stale now hpc =>
    rename_i i ver
    have hcall : s.CallFresh crypto cfg (s.calls i) := h.calls i
    simp only [CallFresh, hpc] at hcall
    exact h.setPc hcall
  | getUsers hpc hperm =>
    rename_i i ver users
    have hcall : s.CallFresh crypto cfg (s.calls i) := h.calls i
    simp only [CallFresh, hpc] at hcall
    exact h.setPc ⟨hcall.1, h.covers hperm hcall.2⟩
  | store now hpc =>
    rename_i i ver built
    have hcall : s.CallFresh crypto cfg (s.calls i) := h.calls i
    simp only [CallFresh, hpc] at hcall
    have hset : (s.setPc i (.returned built)).Fresh crypto cfg := h.setPc ⟨ver.toNat, hcall⟩
    refine ⟨hset.ver, hset.updates, ?_, hset.calls⟩
    intro byTag hbt
    cases hbt
    exact ⟨hcfg, hcall.2⟩

end

end UserTable

def SnapshotPc.left : SnapshotPc → Nat
  | .idle | .returned _ => 0
  | .begun => 4
  | .checking _ => 3
  | .building _ => 2
  | .storing _ _ => 1

namespace UserTable

variable {crypto : Crypto} {cfg : ServerConfig} {s : UserTable}

theorem call_moves {i : Nat} (h : (s.calls i).pc.left ≠ 0) :
    ∃ a s', s.step crypto cfg a = some s' ∧ (s'.calls i).pc.left < (s.calls i).pc.left := by
  cases hpc : (s.calls i).pc with
  | idle | returned byTag => exact absurd (by rw [hpc]; rfl) h
  | begun => exact ⟨.readVer i, _, by simp only [step, hpc]; rfl, by rw [setPc_self]; exact Nat.lt_succ_self 3⟩
  | checking ver =>
    cases hbt : s.index.byTag with
    | none => exact ⟨.check i 0, _, by simp only [step, hpc, hbt]; rfl, by rw [setPc_self]; exact Nat.lt_succ_self 2⟩
    | some byTag =>
      refine ⟨.check i 0, _, by simp only [step, hpc, hbt]; rfl, ?_⟩
      rw [setPc_self]
      split <;> simp [SnapshotPc.left]
  | building ver =>
    refine ⟨.getUsers i s.users, _, by simp only [step, hpc, isPerm_iff.mpr (List.Perm.refl _), if_true]; rfl, ?_⟩
    rw [setPc_self]
    simp [SnapshotPc.left]
  | storing ver built =>
    refine ⟨.store i 0, _, by simp only [step, hpc]; rfl, ?_⟩
    rw [setPc_self]
    simp [SnapshotPc.left]

end UserTable

/-- A call that began after the update `v` was complete returns a map that was built from the users of `v` or
    newer ones; and a call that has not returned can go on. -/
theorem snapshot_is_fresh {crypto : Crypto} {cfg : ServerConfig} {users : List UserEntry} {as : List UserTable.Act}
    {s : UserTable} (hcfg : cfg.versioned = true)
    (hrun : Run (UserTable.step crypto cfg) UserTable.Increases (.start users) as s) (i : Nat) :
    (∀ byTag, (s.calls i).pc = .returned byTag → ∀ v ∈ s.completed.take (s.calls i).since,
      ∃ m users, v ≤ m ∧ m ≤ s.count ∧ users.Perm (s.installed m) ∧ byTag = buildIndex crypto cfg.sharedSecret users) ∧
    ((s.calls i).pc.left ≠ 0 →
      ∃ a s', s.step crypto cfg a = some s' ∧ (s'.calls i).pc.left < (s.calls i).pc.left) := by
  have hfresh : s.Fresh crypto cfg :=
    hrun.invariant (fun h hinc hs => h.step hcfg hinc hs) (UserTable.fresh_start users)
  refine ⟨fun byTag hpc v hv => ?_, UserTable.call_moves⟩
  have hcall : s.CallFresh crypto cfg (s.calls i) := hfresh.calls i
  simp only [UserTable.CallFresh, hpc] at hcall
  obtain ⟨r, hr, -, m, users, hm, hperm, heq, hall⟩ := hcall
  exact ⟨m, users, hall v ((take_prefix_take_left hr).subset hv), hm, hperm, heq⟩

/-- The call 0 is slow to store what it built of the empty store; meanwhile a user is added, and call 1 has
    stored the new map. The call 2 begins after the slow one has put the old map in its place. -/
def slowBuilderRun : List UserTable.Act :=
  [.begin 0, .readVer 0, .check 0 0, .getUsers 0 [], .replace [alice], .bump 1, .begin 1, .readVer 1, .check 1 0,
    .getUsers 1 [alice], .store 1 0, .store 0 0, .begin 2, .readVer 2, .check 2 0, .getUsers 2 [alice], .store 2 0]

theorem snapshot_is_fresh_after_slow_builder : ∃ s byTag,
    Run (UserTable.step sampleCrypto sampleConfig) UserTable.Increases (.start []) slowBuilderRun s ∧
    (s.calls 2).pc = .returned byTag ∧
    ∃ m users, 1 ≤ m ∧ m ≤ s.count ∧ users.Perm (s.installed m) ∧ byTag = buildIndex sampleCrypto [] users := by
  obtain ⟨s, hrun, hsince, hret⟩ := Run.exists_of_exec (R := fun s => s.completed.take (s.calls 2).since = [1] ∧
    (match (s.calls 2).pc with | .returned _ => true | _ => false) = true)
    (show ∃ s ∈ exec (checked (UserTable.step sampleCrypto sampleConfig) UserTable.Increases) (.start [])
        slowBuilderRun, _ by
      decide +kernel) fun _ _ hs => hs
  cases hpc : (s.calls 2).pc with
  | returned byTag =>
    have hfresh := (snapshot_is_fresh rfl hrun 2).1 byTag hpc 1 (by rw [hsince]; exact mem_singleton_self 1)
    exact ⟨s, byTag, hrun, hpc, hfresh⟩
  | _ => simp [hpc] at hret

end Whispera
