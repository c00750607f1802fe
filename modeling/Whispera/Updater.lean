import Whispera.Lib.Exec
import Whispera.Lib.Strings
import Whispera.Lib.Table

/-! `common/update`. SHA-256 and Ed25519 are parameters; a manifest stands for what the JSON decoder makes of
it. -/

namespace Whispera
open Strings Table

structure VersionInfo where
  version : Bytes
  checksum : Bytes
  signature : Bytes
  size : Int
  deriving DecidableEq, Repr

structure Updater where
  publicKey : Option Bytes
  currentVersion : Bytes
  /-- the file at `BinaryPath` -/
  binary : Option Bytes
  /-- the files in `BackupDir` -/
  backups : Map Bytes Bytes

inductive UpdateError
  | manifest
  | download
  | tooLarge (limit : Int)
  | readForChecksum
  | checksum (actual expected : Bytes)
  | decodeSignature
  | readForSignature
  | signature
  | backup
  | replace (rolledBack : Bool)
  deriving DecidableEq, Repr

/-- How the copy to the backup ends. One that fails may leave a part of it. -/
inductive BackupResult
  | ok
  | failed (written : Option Bytes)
  deriving DecidableEq, Repr

structure UpdateEnv where
  /-- the latest version of the manifest, if it could be fetched and decoded -/
  manifest : Option VersionInfo
  /-- the body of the download, if it was answered with 200 and could be stored -/
  body : Option Bytes
  readForChecksum : Bool := true
  readForSignature : Bool := true
  backup : BackupResult := .ok
  /-- `Chmod` and `Rename` of the new file -/
  install : Bool := true
  /-- the backups that `Glob` finds, in its order -/
  globbed : List Bytes := []
  restore : Bool := true

/-- What the updater puts at `BinaryPath`. -/
inductive Replacement
  | payload (data : Bytes)
  | backup (name : Bytes)
  deriving DecidableEq, Repr

def defaultMaxBinarySize : Int := 200 * 1024 * 1024

/-- `download`. The size is a 64-bit integer, and one more may be too many. -/
def download (e : UpdateEnv) (size : Int) : Except UpdateError Bytes :=
  match e.body with
  | none => .error .download
  | some body =>
    let maxSize := if size ≤ 0 then defaultMaxBinarySize else size
    -- `LimitReader` reads nothing if the limit is negative
    let data := body.take (Exec.wrap (maxSize + 1)).toNat
    if maxSize < data.length then .error (.tooLarge maxSize) else .ok data

namespace Updater

def backupName (version : Bytes) : Bytes := bytes "whispera-" ++ version ++ bytes ".bak"

section
variable (sha256 : Bytes → Bytes) (verify : Bytes → Bytes → Bytes → Bool)

def verifyChecksum (e : UpdateEnv) (data expectedHex : Bytes) : Except UpdateError Unit :=
  if e.readForChecksum then
    if hexEncode (sha256 data) = expectedHex then .ok () else .error (.checksum (hexEncode (sha256 data)) expectedHex)
  else .error .readForChecksum

def verifySignature (e : UpdateEnv) (publicKey data sigHex : Bytes) : Except UpdateError Unit :=
  match hexDecode sigHex with
  | none => .error .decodeSignature
  | some sig =>
    if e.readForSignature then
      if verify publicKey (sha256 data) sig then .ok () else .error .signature
    else .error .readForSignature

/-- The two checks of `Apply`. Without a key, or without a signature in the manifest, there is only the first.
    -/
def checks (u : Updater) (e : UpdateEnv) (info : VersionInfo) (data : Bytes) : Except UpdateError Unit :=
  match verifyChecksum sha256 e data info.checksum with
  | .error err => .error err
  | .ok () =>
    match u.publicKey with
    | none => .ok ()
    | some key => if info.signature = [] then .ok () else verifySignature sha256 verify e key data info.signature

/-- `backup` after it has written the file, or has found no binary to copy. -/
def backedUp (u : Updater) (written : Option Bytes) : Updater :=
  match written with
  | none => u
  | some data => { u with backups := u.backups.insert (backupName u.currentVersion) data }

def rollback (u : Updater) (e : UpdateEnv) : Updater × Option Replacement :=
  match e.globbed.getLast? with
  | none => (u, none)
  | some name =>
    if e.restore then
      ({ u with binary := u.backups.lookup name, backups := u.backups.erase name }, some (.backup name))
    else (u, none)

def apply (u : Updater) (e : UpdateEnv) (info : VersionInfo) : Updater × Option Replacement × Option UpdateError :=
  match download e info.size with
  | .error err => (u, none, some err)
  | .ok data =>
    match u.checks sha256 verify e info data with
    | .error err => (u, none, some err)
    | .ok () =>
      match e.backup with
      | .failed written => (u.backedUp written, none, some .backup)
      | .ok =>
        let u := u.backedUp u.binary
        if e.install then ({ u with binary := some data, currentVersion := info.version }, some (.payload data), none)
        else
          let (u, r) := u.rollback e
          (u, r, some (.replace r.isSome))

def checkAndApply (u : Updater) (e : UpdateEnv) : Updater × Option Replacement × Option UpdateError :=
  match e.manifest with
  | none => (u, none, some .manifest)
  | some info => if info.version = u.currentVersion then (u, none, none) else u.apply sha256 verify e info

end
end Updater
end Whispera
