import Whispera.UpdateFiles
import Whispera.Theorems.Updater

/-! The rollback runs when the binary is still there, and the backup that it takes may be another one or has
lost the mode. -/

namespace Whispera
open List Option Strings Table

namespace UpdateFiles
variable {u : UpdateFiles} {e : ApplyEnv}

/-! ### The steps of `Apply` -/

def Writes (e : ApplyEnv) : Prop := e.mkdir = true ∧ e.openBinary = true ∧ e.create = true

def copiedPart (e : ApplyEnv) (source : Bytes) : Bytes := (e.copied.map fun n => source.take n).getD source

def backupFile (u : UpdateFiles) (e : ApplyEnv) (bin : DiskFile) : DiskFile where
  content := copiedPart e (if u.backupPath = u.binaryPath then [] else bin.content)
  mode := ((u.files.lookup u.backupPath).map (·.mode)).getD e.newMode

theorem backup_cases (u : UpdateFiles) (e : ApplyEnv) :
    ((u.backup e).1 = u ∧ ∀ bin, u.binary = some bin → ¬Writes e ∧ (u.backup e).2 = false) ∨
    ∃ bin, u.binary = some bin ∧ Writes e ∧
      u.backup e = ({ u with files := u.files.insert u.backupPath (u.backupFile e bin) }, e.copied.isNone) := by
  unfold backup
  split
  · rename_i hmkdir
    exact .inl ⟨rfl, fun _ _ => ⟨fun h => absurd (h.1.symm.trans hmkdir) nofun, rfl⟩⟩
  · rename_i hmkdir
    split
    · rename_i hnone
      exact .inl ⟨rfl, fun bin hbin => absurd (hnone.symm.trans hbin) nofun⟩
    · rename_i bin hbin
      split
      · rename_i hfail
        refine .inl ⟨rfl, fun _ _ => ⟨fun h => ?_, rfl⟩⟩
        rw [h.2.1, h.2.2] at hfail
        simp at hfail
      · rename_i hwrites
        rw [not_or, Bool.not_eq_false, Bool.not_eq_false] at hwrites
        exact .inr ⟨bin, hbin, ⟨by simpa using hmkdir, hwrites⟩, rfl⟩

theorem backup_paths (u : UpdateFiles) (e : ApplyEnv) :
    (u.backup e).1.binaryPath = u.binaryPath ∧ (u.backup e).1.backupDir = u.backupDir := by
  rcases backup_cases u e with ⟨hsame, -⟩ | ⟨bin, -, -, heq⟩
  · rw [hsame]
    exact ⟨rfl, rfl⟩
  · rw [heq]
    exact ⟨rfl, rfl⟩

/-- The backup is written to the path of the binary, which is not empty. -/
def Overwrites (u : UpdateFiles) (e : ApplyEnv) : Prop :=
  u.backupPath = u.binaryPath ∧ Writes e ∧ ∃ bin, u.binary = some bin ∧ bin.content ≠ []

theorem backup_binary_iff (u : UpdateFiles) (e : ApplyEnv) : (u.backup e).1.binary = u.binary ↔ ¬u.Overwrites e := by
  rcases backup_cases u e with ⟨hsame, hnot⟩ | ⟨bin, hbin, hwrites, heq⟩
  · rw [hsame]
    exact ⟨fun _ ⟨_, hwrites, bin, hbin, _⟩ => (hnot bin hbin).1 hwrites, fun _ => rfl⟩
  · rw [heq]
    by_cases hpath : u.backupPath = u.binaryPath
    · -- The file keeps its mode, and loses its content.
      have hfile : u.backupFile e bin = { content := [], mode := bin.mode } := by
        have hlookup : u.files.lookup u.backupPath = some bin := hpath ▸ hbin
        have hnil : copiedPart e [] = [] := by
          unfold copiedPart
          cases e.copied <;> simp
        rw [backupFile, hlookup, if_pos hpath, hnil]
        rfl
      have hafter : ({ u with files := u.files.insert u.backupPath (u.backupFile e bin) } : UpdateFiles).binary =
          some { content := [], mode := bin.mode } := by
        rw [binary, hfile, hpath]
        exact AList.lookup_insert _
      rw [hafter, hbin, some.injEq]
      constructor
      · rintro hempty ⟨-, -, bin', hbin', hne⟩
        rw [hbin] at hbin'
        cases hbin'
        exact hne (congrArg DiskFile.content hempty).symm
      · intro hspared
        have hcontent : bin.content = [] := by
          by_contra hne
          exact hspared ⟨hpath, hwrites, bin, hbin, hne⟩
        rw [← hcontent]
    · refine ⟨fun _ h => hpath h.1, fun _ => ?_⟩
      exact AList.lookup_insert_ne (Ne.symm hpath)

theorem rollback_binary (u : UpdateFiles) (e : ApplyEnv) :
    (u.rollback e).1.binary = ((u.restorable e).map Prod.snd).or u.binary := by
  unfold rollback
  split
  · rename_i hnone
    rw [hnone]
    rfl
  · rename_i latest f hsome
    rw [hsome]
    exact AList.lookup_insert _

/-! ### The last backup -/

def IsBackup (u : UpdateFiles) (path : DiskPath) : Prop :=
  path = u.backupDir ++ [path.getLastD []] ∧ matchesBackup (path.getLastD []) = true

/-- The path is that of a backup, and no backup among the present ones has a name that comes later. -/
structure IsLast (u : UpdateFiles) (present : DiskPath → Prop) (path : DiskPath) : Prop where
  backup : u.IsBackup path
  there : present path
  last : ∀ other, u.IsBackup other → present other → other.getLastD [] ≤ path.getLastD []

theorem IsLast.unique {present : DiskPath → Prop} {path other : DiskPath} (h : u.IsLast present path)
    (h' : u.IsLast present other) : path = other := by
  have hname := List.le_antisymm (h'.last path h.backup h.there) (h.last other h'.backup h'.there)
  rw [h.backup.1, h'.backup.1, hname]

theorem mem_globBackups {path : DiskPath} : path ∈ u.globBackups ↔ u.IsBackup path ∧ path ∈ u.files := by
  unfold globBackups IsBackup
  rw [mem_insertionSort, mem_filter, Bool.and_eq_true_iff, decide_eq_true_iff, and_comm]
  rfl

theorem getLast?_globBackups {path : DiskPath} : u.globBackups.getLast? = some path ↔ u.IsLast (· ∈ u.files) path := by
  have hlast : ∀ {path}, u.globBackups.getLast? = some path → u.IsLast (· ∈ u.files) path := by
    intro path h
    obtain ⟨hbackup, hfile⟩ := mem_globBackups.mp (mem_of_getLast? h)
    refine ⟨hbackup, hfile, fun other hother hin => ?_⟩
    obtain ⟨init, hinit⟩ := getLast?_eq_some_iff.mp h
    have hsorted : u.globBackups.Pairwise fun p q => p.getLastD [] ≤ q.getLastD [] := pairwise_insertionSort _ _
    have hmem := mem_globBackups.mpr ⟨hother, hin⟩
    rw [hinit] at hsorted hmem
    rcases mem_append.mp hmem with hmem | hmem
    · exact (pairwise_append.mp hsorted).2.2 other hmem path mem_cons_self
    · rw [mem_singleton.mp hmem]
      exact List.le_refl _
  refine ⟨hlast, fun h => ?_⟩
  cases hget : u.globBackups.getLast? with
  | none =>
    rw [getLast?_eq_none_iff] at hget
    have hmem := mem_globBackups.mpr ⟨h.backup, h.there⟩
    rw [hget] at hmem
    cases hmem
  | some other => rw [h.unique (hlast hget)]

/-! ### Failed updates -/

/-- The backup succeeds: there is no binary, or it is copied as a whole. -/
def BacksUp (u : UpdateFiles) (e : ApplyEnv) : Prop :=
  e.mkdir = true ∧ (u.binary = none ∨ (e.openBinary = true ∧ e.create = true ∧ e.copied = none))

theorem backup_ok_iff (u : UpdateFiles) (e : ApplyEnv) : (u.backup e).2 = true ↔ u.BacksUp e := by
  unfold backup BacksUp
  cases hm : e.mkdir with
  | false => simp
  | true =>
    cases u.binary with
    | none => simp
    | some bin => cases e.openBinary <;> cases e.create <;> simp

/-- The backup that the rollback takes: the last one, where the one that the call writes counts as well. -/
def IsLatest (u : UpdateFiles) : DiskPath → Prop := u.IsLast fun path => path = u.backupPath ∨ path ∈ u.files

/-- What is at the path of a backup once the binary is copied. -/
def kept (u : UpdateFiles) (e : ApplyEnv) (bin : DiskFile) (path : DiskPath) : Option DiskFile :=
  if path = u.backupPath then some (u.backupFile e bin) else u.files.lookup path

theorem getLast?_globBackups_insert {f : DiskFile} {path : DiskPath} :
    ({ u with files := u.files.insert u.backupPath f } : UpdateFiles).globBackups.getLast? = some path ↔
    u.IsLatest path := by
  rw [getLast?_globBackups]
  constructor
  · rintro ⟨hbackup, hthere, hlast⟩
    exact ⟨hbackup, (AList.mem_insert _).mp hthere, fun other hother h =>
      hlast other hother ((AList.mem_insert _).mpr h)⟩
  · rintro ⟨hbackup, hthere, hlast⟩
    exact ⟨hbackup, (AList.mem_insert _).mpr hthere, fun other hother h =>
      hlast other hother ((AList.mem_insert _).mp h)⟩

theorem lookup_kept {bin : DiskFile} {path : DiskPath} (h : path = u.backupPath ∨ path ∈ u.files) :
    ∃ f, (u.files.insert u.backupPath (u.backupFile e bin)).lookup path = some f ∧ u.kept e bin path = some f := by
  unfold kept
  split
  · rename_i heq
    exact ⟨_, by rw [heq]; exact AList.lookup_insert _, rfl⟩
  · rename_i hne
    obtain ⟨f, hf⟩ := isSome_iff_exists.mp (AList.lookup_isSome.mpr (h.resolve_left hne))
    exact ⟨f, (AList.lookup_insert_ne hne).trans hf, hf⟩

/-- An `Apply` that fails after the checks leaves the binary alone, or puts the same file back: without a
    binary, there is no backup to put in its place; with one, the latest backup has its content and its mode
    if it can be renamed, and else the backup was not written over it. -/
def Spared (u : UpdateFiles) (e : ApplyEnv) : Prop :=
  (u.binary = none → e.mkdir = true → e.restore = true → ∀ path, u.IsBackup path → path ∉ u.files) ∧
  ∀ bin, u.binary = some bin →
    (u.BacksUp e ∧ e.restore = true → ∀ path, u.IsLatest path → u.kept e bin path = some bin) ∧
    (¬(u.BacksUp e ∧ e.restore = true ∧ ∃ path, u.IsLatest path) → ¬u.Overwrites e)

section
variable {sha256 : Bytes → Bytes} {verify : Bytes → Bytes → Bytes → Bool} {info : VersionInfo}

theorem apply_of_checks {data : Bytes} (hdownload : download e.net info.size = .ok data)
    (hchecks : u.updater.checks sha256 verify e.net info data = .ok ()) :
    (¬u.BacksUp e ∧ u.apply sha256 verify e info = ((u.backup e).1, some .backup)) ∨
    (u.BacksUp e ∧ (e.chmod = true ∧ e.rename = true) ∧
      u.apply sha256 verify e info =
      ({ (u.backup e).1.atomicReplace data with currentVersion := info.version }, none)) ∨
    (u.BacksUp e ∧ ¬(e.chmod = true ∧ e.rename = true) ∧
      u.apply sha256 verify e info =
        (((u.backup e).1.rollback e).1, some (.replace ((u.backup e).1.rollback e).2))) := by
  rw [← backup_ok_iff]
  rcases hbackup : u.backup e with ⟨u', ok⟩
  simp only [apply, hdownload, hchecks, hbackup]
  cases ok with
  | false => exact .inl ⟨Bool.false_ne_true, rfl⟩
  | true =>
    by_cases hinstall : e.chmod = true ∧ e.rename = true
    · refine .inr (.inl ⟨rfl, hinstall, ?_⟩)
      simp only [Bool.and_eq_true_iff.mpr hinstall, if_true]
    · refine .inr (.inr ⟨rfl, hinstall, ?_⟩)
      simp only [if_neg fun h => hinstall (Bool.and_eq_true_iff.mp h)]

theorem rollback_spares_iff (hok : u.BacksUp e) : ((u.backup e).1.rollback e).1.binary = u.binary ↔ u.Spared e := by
  rw [rollback_binary, restorable]
  rcases backup_cases u e with ⟨hsame, hnot⟩ | ⟨bin, hbin, -, heq⟩
  · -- there is no binary, and nothing was written
    have hnone : u.binary = none := by
      cases hbin : u.binary with
      | none => rfl
      | some bin => exact absurd (((backup_ok_iff u e).mpr hok).symm.trans (hnot bin hbin).2) nofun
    rw [hsame]
    constructor
    · intro h
      refine ⟨fun _ _ hrestore path hbackup hfile => ?_, fun bin hbin => absurd (hnone.symm.trans hbin) nofun⟩
      rw [if_pos hrestore] at h
      cases hlast : u.globBackups.getLast? with
      | none =>
        have hmem := mem_globBackups.mpr ⟨hbackup, hfile⟩
        rw [getLast?_eq_none_iff.mp hlast] at hmem
        cases hmem
      | some latest =>
        obtain ⟨f, hf⟩ := isSome_iff_exists.mp (AList.lookup_isSome.mpr (getLast?_globBackups.mp hlast).there)
        rw [hlast, bind_some, hf, hnone] at h
        cases h
    · intro h
      rw [hnone, or_none]
      split
      · rename_i hrestore
        cases hlast : u.globBackups.getLast? with
        | none => rfl
        | some latest =>
          have hlatest := getLast?_globBackups.mp hlast
          exact absurd hlatest.there (h.1 hnone hok.1 hrestore latest hlatest.backup)
      · rfl
  · have hplain : ¬(u.BacksUp e ∧ e.restore = true ∧ ∃ path, u.IsLatest path) →
        ((u.backup e).1.binary = u.binary ↔ u.Spared e) := fun hno =>
      (backup_binary_iff u e).trans ⟨fun h => ⟨fun hnone => absurd (hnone.symm.trans hbin) nofun,
        fun _ _ => ⟨fun hc path hlatest => absurd ⟨hc.1, hc.2, path, hlatest⟩ hno, fun _ => h⟩⟩,
        fun h => (h.2 bin hbin).2 hno⟩
    have hglob : ∀ path, (u.backup e).1.globBackups.getLast? = some path ↔ u.IsLatest path := fun path => by
      rw [heq]
      exact getLast?_globBackups_insert
    by_cases hrestore : e.restore = true
    · rw [if_pos hrestore]
      cases hlast : (u.backup e).1.globBackups.getLast? with
      | none =>
        refine hplain ?_
        rintro ⟨-, -, path, hlatest⟩
        exact absurd (((hglob path).mpr hlatest).symm.trans hlast) nofun
      | some latest =>
        have hlatest := (hglob latest).mp hlast
        have hkept : ∃ f, (u.backup e).1.files.lookup latest = some f ∧ u.kept e bin latest = some f := by
          rw [heq]
          exact lookup_kept hlatest.there
        obtain ⟨f, hf, hkept⟩ := hkept
        rw [bind_some, hf, hbin]
        constructor
        · intro h
          cases h
          refine ⟨fun hnone => absurd (hnone.symm.trans hbin) nofun,
            fun bin' hbin' => ⟨fun _ path hpath => ?_, fun hno => ?_⟩⟩
          · cases hbin.symm.trans hbin'
            rw [hpath.unique hlatest, hkept]
          · exact absurd ⟨hok, hrestore, latest, hlatest⟩ hno
        · intro h
          exact hkept.symm.trans ((h.2 bin hbin).1 ⟨hok, hrestore⟩ latest hlatest)
    · rw [if_neg hrestore]
      exact hplain fun h => hrestore h.2.1

theorem backup_spares_iff (hfail : ¬u.BacksUp e) : (u.backup e).1.binary = u.binary ↔ u.Spared e := by
  rw [backup_binary_iff]
  constructor
  · intro h
    refine ⟨fun hnone hmkdir => absurd ⟨hmkdir, .inl hnone⟩ hfail,
      fun bin hbin => ⟨fun hok => absurd hok.1 hfail, fun _ => h⟩⟩
  · rintro h ⟨hpath, hwrites, bin, hbin, hne⟩
    exact (h.2 bin hbin).2 (fun hok => hfail hok.1) ⟨hpath, hwrites, bin, hbin, hne⟩

/-- A failed update leaves the binary as it was, content and mode, exactly if it does not come to the backup,
    or the backup is not written over the binary and no other file is put in its place. -/
theorem failed_update_keeps_binary_iff (u : UpdateFiles) (e : ApplyEnv) (info : VersionInfo) :
    (∀ err, (u.apply sha256 verify e info).2 = some err → (u.apply sha256 verify e info).1.binary = u.binary) ↔
      ∀ data, download e.net info.size = .ok data → u.updater.checks sha256 verify e.net info data = .ok () →
        (u.BacksUp e ∧ e.chmod = true ∧ e.rename = true) ∨ u.Spared e := by
  constructor
  · intro h data hdownload hchecks
    rcases apply_of_checks hdownload hchecks with ⟨hok, happly⟩ | ⟨hok, hinstall, -⟩ | ⟨hok, -, happly⟩
    · right
      have hkept := h .backup (by rw [happly])
      rw [happly] at hkept
      exact (backup_spares_iff hok).mp hkept
    · exact .inl ⟨hok, hinstall⟩
    · right
      have hkept := h _ (by rw [happly])
      rw [happly] at hkept
      exact (rollback_spares_iff hok).mp hkept
  · intro h err herr
    cases hdownload : download e.net info.size with
    | error err' => simp only [apply, hdownload]
    | ok data =>
      cases hchecks : u.updater.checks sha256 verify e.net info data with
      | error err' => simp only [apply, hdownload, hchecks]
      | ok _ =>
        have hcond := h data hdownload hchecks
        rcases apply_of_checks hdownload hchecks with ⟨hok, happly⟩ | ⟨-, -, happly⟩ | ⟨hok, hinstall, happly⟩
        · rw [happly]
          exact (backup_spares_iff hok).mpr (hcond.resolve_left fun hi => hok hi.1)
        · rw [happly] at herr
          cases herr
        · rw [happly]
          exact (rollback_spares_iff hok).mpr (hcond.resolve_left fun hi => hinstall hi.2)

end

def onDisk (version : Bytes) (backups : Map DiskPath DiskFile) : UpdateFiles where
  publicKey := none
  currentVersion := version
  binaryPath := [bytes "opt", bytes "whispera"]
  backupDir := [bytes "opt", bytes "backups"]
  files := backups.insert [bytes "opt", bytes "whispera"] { content := [1], mode := 0o755 }

def oldBackup : Map DiskPath DiskFile :=
  (∅ : Map DiskPath DiskFile).insert [bytes "opt", bytes "backups", bytes "whispera-9.bak"]
    { content := [9], mode := 0o755 }

def failedRename : ApplyEnv := { net := Updater.sampleEnv [], rename := false }

/-- When the new file cannot be renamed, the rollback puts the backup there, which is no longer executable; or
    an older backup with a name that comes later. -/
theorem failed_update_changes_binary :
    (((onDisk (bytes "1.0") ∅).apply Updater.sampleHash Updater.sampleVerify failedRename (Updater.sampleInfo [])).2 =
        some (.replace true) ∧
      ((onDisk (bytes "1.0") ∅).apply Updater.sampleHash Updater.sampleVerify failedRename
       (Updater.sampleInfo [])).1.binary =
        some { content := [1], mode := 0o644 }) ∧
    (((onDisk (bytes "10") oldBackup).apply Updater.sampleHash Updater.sampleVerify failedRename
     (Updater.sampleInfo [])).2 =
        some (.replace true) ∧
      ((onDisk (bytes "10") oldBackup).apply Updater.sampleHash Updater.sampleVerify failedRename
        (Updater.sampleInfo [])).1.binary = some { content := [9], mode := 0o755 }) := by
  decide +kernel

/-! ### The updater without paths -/

/-- Two updaters with the same files, in whatever order the backups are listed. -/
structure Agree (v w : Updater) : Prop where
  publicKey : v.publicKey = w.publicKey
  currentVersion : v.currentVersion = w.currentVersion
  binary : v.binary = w.binary
  backups : ∀ name, v.backups.lookup name = w.backups.lookup name

theorem Agree.refl (v : Updater) : Agree v v := ⟨rfl, rfl, rfl, fun _ => rfl⟩

theorem lookup_backups (u : UpdateFiles) (name : Bytes) :
    u.backups.lookup name = (u.files.lookup (u.backupDir ++ [name])).map (·.content) := by
  have hlast : ∀ x : Bytes, (u.backupDir ++ [x]).getLastD [] = x := fun x => by simp
  suffices h : ∀ l : List (Sigma fun _ : DiskPath => DiskFile),
      (l.foldr (fun f m => if f.1 = u.backupDir ++ [f.1.getLastD []] then m.insert (f.1.getLastD []) f.2.content else m)
        (∅ : Map Bytes Bytes)).lookup name = (l.dlookup (u.backupDir ++ [name])).map (·.content) from h u.files.entries
  intro l
  induction l with
  | nil => rfl
  | cons f l ih =>
    obtain ⟨path, file⟩ := f
    rw [foldr_cons]
    by_cases hpath : path = u.backupDir ++ [name]
    · subst hpath
      rw [dlookup_cons_eq]
      simp only [hlast, if_true, AList.lookup_insert, map_some]
    · rw [dlookup_cons_ne _ _ (Ne.symm hpath)]
      split
      · rename_i hin
        have hne : name ≠ path.getLastD [] := fun heq => hpath (heq ▸ hin)
        rw [AList.lookup_insert_ne hne]
        exact ih
      · exact ih

instance (e : ApplyEnv) : Decidable (Writes e) := by
  unfold Writes
  infer_instance

def written (u : UpdateFiles) (e : ApplyEnv) : Option Bytes :=
  if Writes e then u.binary.map fun bin => copiedPart e bin.content else none

/-- What the surroundings choose for the updater without paths. -/
def forgetful (u : UpdateFiles) (e : ApplyEnv) : UpdateEnv :=
  { e.net with
    backup := if (u.backup e).2 then .ok else .failed (u.written e)
    install := e.chmod && e.rename
    globbed := (u.backup e).1.globBackups.map (·.getLastD [])
    restore := e.restore }

section
variable {w : Updater}

theorem agree_insert_binary {f : DiskFile} {version : Bytes} (hout : ∀ name, u.binaryPath ≠ u.backupDir ++ [name])
    (h : Agree u.updater w) :
    Agree { u with files := u.files.insert u.binaryPath f, currentVersion := version : UpdateFiles }.updater
      { w with binary := some f.content, currentVersion := version } := by
  refine ⟨h.publicKey, rfl, ?_, fun name => ?_⟩
  · have hlookup : (u.files.insert u.binaryPath f).lookup u.binaryPath = some f := AList.lookup_insert _
    exact congrArg (Option.map (·.content)) hlookup
  · have hlookup : (u.files.insert u.binaryPath f).lookup (u.backupDir ++ [name]) =
      u.files.lookup (u.backupDir ++ [name]) :=
      AList.lookup_insert_ne (Ne.symm (hout name))
    rw [← h.backups name]
    refine (lookup_backups _ name).trans (Eq.trans ?_ (lookup_backups u name).symm)
    exact congrArg (Option.map (·.content)) hlookup

theorem backup_agrees (hplain : u.backupPath = u.backupDir ++ [Updater.backupName u.currentVersion])
    (hout : ∀ name, u.binaryPath ≠ u.backupDir ++ [name]) : Agree (u.backup e).1.updater
      (u.updater.backedUp (u.written e)) := by
  rcases backup_cases u e with ⟨hsame, hnot⟩ | ⟨bin, hbin, hwrites, heq⟩
  · have hnone : u.written e = none := by
      unfold written
      split
      · rename_i hwrites
        cases hbin : u.binary with
        | none => rfl
        | some bin => exact absurd hwrites (hnot bin hbin).1
      · rfl
    rw [hsame, hnone]
    exact .refl _
  · have hne : u.backupPath ≠ u.binaryPath := fun h => hout _ (h.symm.trans hplain)
    have hwritten : u.written e = some (copiedPart e bin.content) := by
      rw [written, if_pos hwrites, hbin]
      rfl
    rw [heq, hwritten]
    refine ⟨rfl, rfl, ?_, fun name => ?_⟩
    · have hlookup : (u.files.insert u.backupPath (u.backupFile e bin)).lookup u.binaryPath = u.binary :=
        AList.lookup_insert_ne (Ne.symm hne)
      exact congrArg (Option.map (·.content)) hlookup
    · refine (lookup_backups _ name).trans ?_
      change ((u.files.insert u.backupPath (u.backupFile e bin)).lookup (u.backupDir ++ [name])).map (·.content) =
        (u.backups.insert (Updater.backupName u.currentVersion) (copiedPart e bin.content)).lookup name
      by_cases hname : name = Updater.backupName u.currentVersion
      · subst hname
        rw [hplain, AList.lookup_insert, AList.lookup_insert, map_some, backupFile, if_neg hne]
      · rw [AList.lookup_insert_ne hname, lookup_backups, hplain, AList.lookup_insert_ne]
        intro heq
        exact hname (singleton_inj.mp (append_cancel_left heq))

theorem rollback_agrees {env : UpdateEnv} (hout : ∀ name, u.binaryPath ≠ u.backupDir ++ [name]) (h : Agree u.updater w)
    (hglob : env.globbed = u.globBackups.map (·.getLastD [])) (hrestore : env.restore = e.restore) :
    Agree (u.rollback e).1.updater (w.rollback env).1 ∧ (u.rollback e).2 = (w.rollback env).2.isSome := by
  unfold rollback restorable Updater.rollback
  rw [hglob, hrestore, getLast?_map]
  cases hrest : e.restore with
  | false =>
    simp only [Bool.false_eq_true, if_false]
    cases u.globBackups.getLast? with
    | none | some latest => exact ⟨h, rfl⟩
  | true =>
    cases hlast : u.globBackups.getLast? with
    | none => exact ⟨h, rfl⟩
    | some latest =>
      obtain ⟨⟨hpath, -⟩, hfile⟩ := mem_globBackups.mp (mem_of_getLast? hlast)
      obtain ⟨f, hf⟩ := isSome_iff_exists.mp (AList.lookup_isSome.mpr hfile)
      simp only [if_true, bind_some, hf, map_some]
      refine ⟨⟨h.publicKey, h.currentVersion, ?_, fun name => ?_⟩, rfl⟩
      · have hlookup : ((u.files.erase latest).insert u.binaryPath f).lookup u.binaryPath = some f :=
          AList.lookup_insert _
        rw [← h.backups]
        refine Eq.trans ?_ (lookup_backups u _).symm
        rw [← hpath, hf]
        exact congrArg (Option.map (·.content)) hlookup
      · refine (lookup_backups _ name).trans ?_
        change (((u.files.erase latest).insert u.binaryPath f).lookup (u.backupDir ++ [name])).map (·.content) =
          (w.backups.erase (latest.getLastD [])).lookup name
        rw [AList.lookup_insert_ne (Ne.symm (hout name))]
        by_cases hname : name = latest.getLastD []
        · subst hname
          rw [← hpath, AList.lookup_erase, AList.lookup_erase]
          rfl
        · have hne : u.backupDir ++ [name] ≠ latest := by
            intro heq
            rw [hpath] at heq
            exact hname (singleton_inj.mp (append_cancel_left heq))
          rw [AList.lookup_erase_ne hne, AList.lookup_erase_ne hname, ← h.backups name]
          exact (lookup_backups u name).symm

theorem written_of_ok (hok : u.BacksUp e) : u.written e = u.updater.binary := by
  rcases backup_cases u e with ⟨-, hnot⟩ | ⟨bin, hbin, hwrites, heq⟩
  · have hnone : u.binary = none := by
      cases hbin : u.binary with
      | none => rfl
      | some bin => exact absurd (((backup_ok_iff u e).mpr hok).symm.trans (hnot bin hbin).2) nofun
    rw [written, updater, hnone]
    split <;> rfl
  · have hok := (backup_ok_iff u e).mpr hok
    rw [heq] at hok
    have hcopied : copiedPart e bin.content = bin.content := by
      rw [copiedPart, isNone_iff_eq_none.mp hok]
      rfl
    rw [written, if_pos hwrites, updater, hbin, map_some, hcopied]
    rfl

end

/-- Where the backup goes into its directory and the binary is elsewhere, `Apply` does to the contents what
    `Updater.apply` does. -/
theorem apply_refines {sha256 : Bytes → Bytes} {verify : Bytes → Bytes → Bytes → Bool}
    {info : VersionInfo} (hplain : u.backupPath = u.backupDir ++ [Updater.backupName u.currentVersion])
    (hout : ∀ name, u.binaryPath ≠ u.backupDir ++ [name]) :
    Agree (u.apply sha256 verify e info).1.updater (u.updater.apply sha256 verify (u.forgetful e) info).1 ∧
      (u.apply sha256 verify e info).2 = (u.updater.apply sha256 verify (u.forgetful e) info).2.2 := by
  have hdownload' : download (u.forgetful e) info.size = download e.net info.size := rfl
  have hchecks' : ∀ data, u.updater.checks sha256 verify (u.forgetful e) info data =
      u.updater.checks sha256 verify e.net info data := fun _ => rfl
  cases hdownload : download e.net info.size with
  | error err =>
    simp only [apply, Updater.apply, hdownload', hdownload]
    exact ⟨.refl _, trivial⟩
  | ok data =>
    cases hchecks : u.updater.checks sha256 verify e.net info data with
    | error err =>
      simp only [apply, Updater.apply, hdownload', hdownload, hchecks', hchecks]
      exact ⟨.refl _, trivial⟩
    | ok _ =>
      have hbackup : Agree (u.backup e).1.updater (u.updater.backedUp (u.written e)) := backup_agrees hplain hout
      have hout' : ∀ name, (u.backup e).1.binaryPath ≠ (u.backup e).1.backupDir ++ [name] := by
        rw [(backup_paths u e).1, (backup_paths u e).2]
        exact hout
      simp only [Updater.apply, hdownload', hdownload, hchecks', hchecks]
      rcases apply_of_checks hdownload hchecks with ⟨hok, happly⟩ | ⟨hok, hinstall, happly⟩ | ⟨hok, hinstall, happly⟩
      · have hfailed : (u.forgetful e).backup = .failed (u.written e) := by simp [forgetful, backup_ok_iff, hok]
        rw [happly]
        simp only [hfailed]
        exact ⟨hbackup, trivial⟩
      · have hback : (u.forgetful e).backup = .ok := by simp [forgetful, backup_ok_iff, hok]
        have hdone : (u.forgetful e).install = true := Bool.and_eq_true_iff.mpr hinstall
        rw [written_of_ok hok] at hbackup
        rw [happly]
        simp only [hback, hdone, if_true]
        exact ⟨agree_insert_binary hout' hbackup, trivial⟩
      · have hback : (u.forgetful e).backup = .ok := by simp [forgetful, backup_ok_iff, hok]
        have hdone : (u.forgetful e).install = false := by simpa [forgetful] using hinstall
        rw [written_of_ok hok] at hbackup
        have hglob : (u.forgetful e).globbed = (u.backup e).1.globBackups.map (·.getLastD []) := rfl
        obtain ⟨hagree, hrolled⟩ := rollback_agrees hout' hbackup hglob rfl
        rw [happly]
        simp only [hback, hdone, Bool.false_eq_true, if_false]
        exact ⟨hagree, by rw [hrolled]⟩

theorem apply_refines_failed_rename :
    ((onDisk (bytes "10") oldBackup).apply Updater.sampleHash Updater.sampleVerify failedRename
      (Updater.sampleInfo [])).2 =
      ((onDisk (bytes "10") oldBackup).updater.apply Updater.sampleHash Updater.sampleVerify
      ((onDisk (bytes "10") oldBackup).forgetful failedRename) (Updater.sampleInfo [])).2.2 :=
  (apply_refines (by decide) fun _ => by simp [onDisk]).2

end UpdateFiles
end Whispera
