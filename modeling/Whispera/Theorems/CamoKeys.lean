import Whispera.CamoKeys
import Whispera.Theorems.SelectorIndex

/-! The list is read after the call of `snapshot`, and by then a slow builder may have put an older index
there. -/

namespace Whispera
open List Transition

namespace CamoTable

def keysOf (byTag : TagMap) : List Bytes := byTag.entries.map fun e => e.2.camoKey

/-- An index replaces one with a higher version only if no other call of `camoKeys` is about to read the list.
    -/
def StoresNewer (s : CamoTable) : UserTable.Act → Prop
  | .store i _ =>
    match (s.table.calls i).pc with
    | .storing ver _ =>
      s.table.index.builtVer ≤ ver ∨ ∀ j ∈ s.scanning, j ≠ i → (s.table.calls j).pc.isReturned = false
    | _ => True
  | _ => True

def Kept (s : CamoTable) : Act → Prop
  | .table a => s.table.Increases a ∧ s.StoresNewer a
  | _ => True

instance (s : CamoTable) (a : UserTable.Act) : Decidable (s.StoresNewer a) := by
  unfold StoresNewer
  split
  · split <;> infer_instance
  · infer_instance

instance (s : CamoTable) (a : Act) : Decidable (s.Kept a) := by
  cases a <;> unfold Kept <;> infer_instance

section
variable (crypto : Crypto) (cfg : ServerConfig)

def Ready (s : CamoTable) : Prop := ∀ i ∈ s.scanning, (s.table.calls i).pc.isReturned = true →
  s.table.index.byTag.isSome ∧ (s.table.calls i).since ≤ s.table.index.builtVer.toNat

/-- The keys returned cover all updates before the call. -/
structure KeysFresh (s : CamoTable) : Prop where
  table : s.table.Fresh crypto cfg
  ready : s.Ready
  returned : ∀ r ∈ s.returned, ∃ byTag n, r.since ≤ n ∧ s.table.Covers crypto cfg byTag n ∧ r.keys = keysOf byTag

end

section
variable {crypto : Crypto} {cfg : ServerConfig} {s s' : CamoTable}

theorem Ready.of_calls {table : UserTable} (h : s.Ready) (hindex : table.index = s.table.index) {i : Nat}
    (hcall : (table.calls i).pc.isReturned = true → table.index.byTag.isSome ∧
     (table.calls i).since ≤ table.index.builtVer.toNat)
    (hcalls : ∀ j, j ≠ i → table.calls j = s.table.calls j) : Ready { s with table } := by
  intro j hj hret
  by_cases hji : j = i
  · subst hji
    exact hcall hret
  · have hcall := hcalls j hji
    rw [hcall] at hret ⊢
    rw [hindex]
    exact h j hj hret

theorem Ready.table {a : UserTable.Act} {table : UserTable} (h : s.Ready) (hfresh : s.table.Fresh crypto cfg)
    (hcfg : cfg.versioned = true) (hstores : s.StoresNewer a)
    (hs : UserTable.Step crypto cfg s.table a table) : Ready { s with table } := by
  cases hs with
  | replace users | bump hu => exact h
  | begin i =>
    refine h.of_calls rfl (i := i) ?_ fun j hj => Function.update_of_ne hj _ _
    simp [SnapshotPc.isReturned]
  | readVer hpc =>
    rename_i i
    refine h.of_calls rfl (i := i) ?_ fun j hj => UserTable.setPc_ne hj _
    simp [UserTable.setPc_self, SnapshotPc.isReturned]
  | found now hpc hbt hfound =>
    rename_i i ver byTag
    refine h.of_calls rfl (i := i) (fun _ => ?_) fun j hj => UserTable.setPc_ne hj _
    have hcall : s.table.CallFresh crypto cfg (s.table.calls i) := hfresh.calls i
    simp only [UserTable.CallFresh, hpc] at hcall
    have hver : s.table.index.builtVer = ver := by
      simpa [SelectorIndex.fresh, hcfg, (hfresh.index byTag hbt).1] using hfound
    rw [UserTable.setPc_since]
    exact ⟨by change s.table.index.byTag.isSome = true; rw [hbt]; rfl, hver ▸ hcall.1⟩
  | stale now hpc =>
    rename_i i ver
    refine h.of_calls rfl (i := i) ?_ fun j hj => UserTable.setPc_ne hj _
    simp [UserTable.setPc_self, SnapshotPc.isReturned]
  | getUsers hpc hperm =>
    rename_i i ver users
    refine h.of_calls rfl (i := i) ?_ fun j hj => UserTable.setPc_ne hj _
    simp [UserTable.setPc_self, SnapshotPc.isReturned]
  | store now hpc =>
    rename_i i ver built
    have hcall : s.table.CallFresh crypto cfg (s.table.calls i) := hfresh.calls i
    simp only [UserTable.CallFresh, hpc] at hcall
    simp only [StoresNewer, hpc] at hstores
    intro j hj hret
    refine ⟨rfl, ?_⟩
    rw [UserTable.setPc_since]
    by_cases hji : j = i
    · subst hji
      exact hcall.1
    · -- Another list is about to be read, so the index that was there is not newer.
      rw [UserTable.setPc_ne hji] at hret
      rcases hstores with hver | hnone
      · exact Nat.le_trans (h j hj hret).2 (UInt64.le_iff_toNat_le.mp hver)
      · rw [hnone j hj hji] at hret
        cases hret

theorem KeysFresh.returned_of_grows {table : UserTable} (h : s.KeysFresh crypto cfg) (hgrows : s.table.Grows table) :
    ∀ r ∈ s.returned, ∃ byTag n, r.since ≤ n ∧ table.Covers crypto cfg byTag n ∧ r.keys = keysOf byTag := by
  intro r hr
  obtain ⟨byTag, n, hsince, hcov, hkeys⟩ := h.returned r hr
  exact ⟨byTag, n, hsince, hcov.mono hgrows, hkeys⟩

theorem KeysFresh.step {a : Act} (hcfg : cfg.versioned = true) (h : s.KeysFresh crypto cfg) (ha : s.Kept a)
    (hs : s.step crypto cfg a = some s') : s'.KeysFresh crypto cfg := by
  cases a with
  | table a =>
    simp only [CamoTable.step] at hs
    split at hs
    · cases hs
    · obtain ⟨table, ht, rfl⟩ := Option.map_eq_some_iff.mp hs
      have hstep := UserTable.step_inv ht
      exact ⟨h.table.step hcfg ha.1 ht, h.ready.table h.table hcfg ha.2 hstep, h.returned_of_grows hstep.grows⟩
  | camoKeys i =>
    simp only [CamoTable.step] at hs
    split at hs
    · cases hs
    · obtain ⟨table, ht, rfl⟩ := Option.map_eq_some_iff.mp hs
      have hstep := UserTable.step_inv ht
      have hinc : s.table.Increases (.begin i) := trivial
      have hstores : s.StoresNewer (.begin i) := trivial
      refine ⟨h.table.step hcfg hinc ht, ?_, h.returned_of_grows hstep.grows⟩
      have hready := h.ready.table h.table hcfg hstores hstep
      intro j hj hret
      rcases mem_cons.mp hj with rfl | hj
      · cases hstep
        simp [SnapshotPc.isReturned] at hret
      · exact hready j hj hret
  | read i =>
    simp only [CamoTable.step] at hs
    split at hs <;> cases hs
    rename_i hread
    refine ⟨h.table, fun j hj hret => h.ready j (mem_of_mem_filter hj) hret, fun r hr => ?_⟩
    rcases mem_append.mp hr with hr | hr
    · exact h.returned r hr
    · obtain ⟨hsome, hsince⟩ := h.ready i hread.1 hread.2
      obtain ⟨byTag, hbt⟩ := Option.isSome_iff_exists.mp hsome
      rw [mem_singleton.mp hr]
      refine ⟨byTag, _, hsince, (h.table.index byTag hbt).2, ?_⟩
      simp only [SelectorIndex.keys, hbt]
      rfl

theorem keysFresh_start (users : List UserEntry) : (start users).KeysFresh crypto cfg :=
  ⟨UserTable.fresh_start users, nofun, nofun⟩

end

/-- If no index is replaced by an older one while a list is about to be read, a call of `camoKeys` that began
    after the update `v` was complete returns the keys of the users of `v` or of newer ones. -/
theorem camoKeys_are_fresh {crypto : Crypto} {cfg : ServerConfig} {users : List UserEntry} {as : List Act}
    {s : CamoTable}
    (hcfg : cfg.versioned = true) (hrun : Run (step crypto cfg) Kept (start users) as s) :
    ∀ r ∈ s.returned, ∀ v ∈ s.table.completed.take r.since,
      ∃ m users, v ≤ m ∧ m ≤ s.table.count ∧ users.Perm (s.table.installed m) ∧
        r.keys = keysOf (buildIndex crypto cfg.sharedSecret users) := by
  intro r hr v hv
  have hfresh : s.KeysFresh crypto cfg := hrun.invariant (fun h ha hs => h.step hcfg ha hs) (keysFresh_start users)
  obtain ⟨byTag, n, hsince, ⟨-, m, users, hm, hperm, rfl, hall⟩, hkeys⟩ := hfresh.returned r hr
  exact ⟨m, users, hall v ((take_prefix_take_left hsince).subset hv), hm, hperm, hkeys⟩

/-- The call 0 of `snapshot` reads the empty store and is slow to store; meanwhile a user is added, and call 1
    has stored the new map. -/
def slowBuilder : List Act :=
  [.table (.begin 0), .table (.readVer 0), .table (.check 0 0), .table (.getUsers 0 []), .table (.replace [alice]),
    .table (.bump 1), .camoKeys 1, .table (.readVer 1), .table (.check 1 0), .table (.getUsers 1 [alice]),
    .table (.store 1 0)]

theorem camoKeys_before_slow_builder : ∃ s, Run (step sampleCrypto sampleConfig) Kept (start [])
    (slowBuilder ++ [.read 1, .table (.store 0 0)]) s ∧ s.returned = [{ since := 1, keys := [aliceCamoKey] }] ∧
    ∀ r ∈ s.returned, ∀ v ∈ s.table.completed.take r.since,
      ∃ m users, v ≤ m ∧ m ≤ s.table.count ∧ users.Perm (s.table.installed m) ∧
        r.keys = keysOf (buildIndex sampleCrypto sampleConfig.sharedSecret users) := by
  refine Run.exists_of_exec ?_ fun s hrun hs => ⟨hs, camoKeys_are_fresh rfl hrun⟩
  decide +kernel

/-- The slow builder puts the old map there before the list is read. -/
theorem camoKeys_after_slow_builder : ∃ s, AnyRun (step sampleCrypto sampleConfig) (start [])
    (slowBuilder ++ [.table (.store 0 0), .read 1]) s ∧ s.returned = [{ since := 1, keys := [] }] ∧
    s.table.completed = [1] ∧ s.table.count = 1 ∧ s.table.installed 1 = [alice] ∧
    keysOf (buildIndex sampleCrypto sampleConfig.sharedSecret [alice]) = [aliceCamoKey] :=
  AnyRun.exists_of_exec (by decide +kernel)

end CamoTable
end Whispera
