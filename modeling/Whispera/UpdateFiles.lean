import Mathlib.Data.List.Sort
import Whispera.Updater

/-! `Apply` of `common/update/apply.go` on a disk. `Updater` has the contents of the binary and the backups by
name. Paths are absolute; there are no links. -/

namespace Whispera
open Strings Table

structure DiskFile where
  content : Bytes
  mode : Nat
  deriving DecidableEq, Repr

abbrev DiskPath : Type := List Bytes

namespace DiskPath

/-- What `filepath.Clean` makes of one more component. -/
def enter (dir : DiskPath) (component : Bytes) : DiskPath :=
  if component = [] ∨ component = bytes "." then dir
  else if component = bytes ".." then dir.dropLast
  else dir ++ [component]

/-- `filepath.Join` of a directory and a name, which may have slashes in it. -/
def join (dir : DiskPath) (name : Bytes) : DiskPath := (name.splitOn 47).foldl enter dir

end DiskPath

structure UpdateFiles where
  publicKey : Option Bytes
  currentVersion : Bytes
  binaryPath : DiskPath
  backupDir : DiskPath
  files : Map DiskPath DiskFile

/-- What the surroundings choose in one call of `Apply`; `copied` is how much of the backup is copied before
    an error. -/
structure ApplyEnv where
  net : UpdateEnv
  mkdir : Bool := true
  openBinary : Bool := true
  create : Bool := true
  copied : Option Nat := none
  newMode : Nat := 0o644
  chmod : Bool := true
  rename : Bool := true
  restore : Bool := true

namespace UpdateFiles

def binary (u : UpdateFiles) : Option DiskFile := u.files.lookup u.binaryPath

def backupPath (u : UpdateFiles) : DiskPath := DiskPath.join u.backupDir (Updater.backupName u.currentVersion)

def backups (u : UpdateFiles) : Map Bytes Bytes :=
  u.files.entries.foldr
    (fun f m => if f.1 = u.backupDir ++ [f.1.getLastD []] then m.insert (f.1.getLastD []) f.2.content else m) ∅

def updater (u : UpdateFiles) : Updater where
  publicKey := u.publicKey
  currentVersion := u.currentVersion
  binary := u.binary.map (·.content)
  backups := u.backups

/-- `os.Create` empties a file that is there and keeps its mode; if that is the binary itself, nothing is left
    to copy. -/
def backup (u : UpdateFiles) (e : ApplyEnv) : UpdateFiles × Bool :=
  if e.mkdir = false then (u, false)
  else
    match u.binary with
    | none => (u, true)
    | some bin =>
      if e.openBinary = false ∨ e.create = false then (u, false)
      else
        let mode := ((u.files.lookup u.backupPath).map (·.mode)).getD e.newMode
        let source := if u.backupPath = u.binaryPath then [] else bin.content
        let content := (e.copied.map fun n => source.take n).getD source
        ({ u with files := u.files.insert u.backupPath { content, mode } }, e.copied.isNone)

/-- `atomicReplace`, when it can change the mode of the new file and rename it. -/
def atomicReplace (u : UpdateFiles) (data : Bytes) : UpdateFiles :=
  { u with files := u.files.insert u.binaryPath { content := data, mode := (u.binary.map (·.mode)).getD 0o755 } }

/-- Whether a name matches the pattern `whispera-*.bak`. -/
def matchesBackup (name : Bytes) : Bool :=
  (bytes "whispera-").isPrefixOf name && (bytes ".bak").isSuffixOf name && 13 ≤ name.length

/-- `filepath.Glob`: the backups, in the order of their names. -/
def globBackups (u : UpdateFiles) : List DiskPath :=
  ((u.files.entries.map (·.1)).filter fun p =>
    p = u.backupDir ++ [p.getLastD []] && matchesBackup (p.getLastD [])).insertionSort fun p q =>
    p.getLastD [] ≤ q.getLastD []

/-- What `rollback` puts at `BinaryPath`, if it succeeds. -/
def restorable (u : UpdateFiles) (e : ApplyEnv) : Option (DiskPath × DiskFile) :=
  if e.restore then u.globBackups.getLast?.bind fun latest => (u.files.lookup latest).map (latest, ·) else none

def rollback (u : UpdateFiles) (e : ApplyEnv) : UpdateFiles × Bool :=
  match u.restorable e with
  | none => (u, false)
  | some (latest, f) => ({ u with files := (u.files.erase latest).insert u.binaryPath f }, true)

section
variable (sha256 : Bytes → Bytes) (verify : Bytes → Bytes → Bytes → Bool)

def apply (u : UpdateFiles) (e : ApplyEnv) (info : VersionInfo) : UpdateFiles × Option UpdateError :=
  match download e.net info.size with
  | .error err => (u, some err)
  | .ok data =>
    match u.updater.checks sha256 verify e.net info data with
    | .error err => (u, some err)
    | .ok () =>
      match u.backup e with
      | (u, false) => (u, some .backup)
      | (u, true) =>
        if e.chmod && e.rename then ({ u.atomicReplace data with currentVersion := info.version }, none)
        else ((u.rollback e).1, some (.replace (u.rollback e).2))

end
end UpdateFiles
end Whispera
