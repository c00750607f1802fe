import Whispera.Lib.Net

/-! `core/config/checksum.go`, and `Update` and `watchConfigFile` in `core/config/config.go`. A step is one
operation on a file, and its label says whether that succeeds. -/

namespace Whispera
open Net

structure ConfigFile where
  data : Bytes
  modTime : Nat
  deriving DecidableEq, Repr

inductive IntegrityError
  | readChecksum
  | calculate
  | update
  | mismatch (saved current : List Char)
  deriving DecidableEq, Repr

/-- A call of `Update` is to replace the configuration, to read it back for its checksum, or to replace the
    checksum. -/
inductive UpdatePc
  | save (data : Bytes)
  | readBack
  | store (sum : List Char)
  | returned (ok : Bool)
  deriving DecidableEq, Repr

structure UpdateCall where
  process : Nat
  pc : UpdatePc
  deriving DecidableEq, Repr

def UpdateCall.running (u : UpdateCall) : Bool :=
  match u.pc with
  | .returned _ => false
  | _ => true

/-- Where the watcher is, with the modification time that the tick found. -/
inductive WatchPc
  | waiting
  | verify (modTime : Nat)
  | readSum (modTime : Nat)
  | repairRead (modTime : Nat)
  | repairStore (modTime : Nat) (sum : List Char)
  | compare (modTime : Nat) (saved : List Char)
  | reload (modTime : Nat)
  | setConfig (modTime : Nat)
  | dead (e : IntegrityError)
  deriving DecidableEq, Repr

/-- The two files, the calls of `Update` and the watcher of the server, which is process 0. -/
structure ConfigWatch where
  config : Option ConfigFile
  checksum : Option (List Char)
  updates : List UpdateCall := []
  lastModified : Nat
  watcher : WatchPc := .waiting
  deriving DecidableEq, Repr

namespace ConfigWatch

inductive Act
  | begin (process : Nat) (data : Bytes)
  | update (i : Nat) (now : Nat) (ok : Bool)
  | watch (ok : Bool)
  deriving DecidableEq, Repr

def locked (s : ConfigWatch) (process : Nat) : Bool := s.updates.any fun u => u.process == process && u.running

section
variable (hmac : Bytes → Bytes)

/-- `CalculateChecksum`: the HMAC with the integrity key, in hexadecimal digits. -/
def calculateChecksum (data : Bytes) : List Char := (hmac data).flatMap hexByte

def currentChecksum (s : ConfigWatch) (ok : Bool) : Option (List Char) :=
  if ok then s.config.map fun c => calculateChecksum hmac c.data else none

def setUpdate (s : ConfigWatch) (i : Nat) (u : UpdateCall) (pc : UpdatePc) : ConfigWatch :=
  { s with updates := s.updates.set i { u with pc := pc } }

def stepUpdate (s : ConfigWatch) (i : Nat) (u : UpdateCall) (now : Nat) (ok : Bool) : Option ConfigWatch :=
  match u.pc with
  | .save data =>
    if ok then some { s.setUpdate i u .readBack with config := some { data := data, modTime := now } }
    else some (s.setUpdate i u (.returned false))
  | .readBack =>
    match s.currentChecksum hmac ok with
    | some sum => some (s.setUpdate i u (.store sum))
    | none => some (s.setUpdate i u (.returned false))
  | .store sum =>
    if ok then some { s.setUpdate i u (.returned true) with checksum := some sum }
    else some (s.setUpdate i u (.returned false))
  | .returned _ => none

def setWatcher (s : ConfigWatch) (pc : WatchPc) : ConfigWatch := { s with watcher := pc }

def stepWatch (s : ConfigWatch) (ok : Bool) : Option ConfigWatch :=
  match s.watcher with
  | .waiting =>
    match s.config with
    | none => some s
    | some c => if ok && s.lastModified < c.modTime then some (s.setWatcher (.verify c.modTime)) else some s
  -- `VerifyIntegrity`: a file that is not there needs no checksum, and any other error of `Stat` is ignored
  | .verify m => if ok && s.config.isNone then some (s.setWatcher (.reload m)) else some (s.setWatcher (.readSum m))
  | .readSum m =>
    if ok then
      match s.checksum with
      | none => some (s.setWatcher (.repairRead m))
      | some saved => some (s.setWatcher (.compare m saved))
    else some (s.setWatcher (.dead .readChecksum))
  | .repairRead m =>
    match s.currentChecksum hmac ok with
    | some sum => some (s.setWatcher (.repairStore m sum))
    | none => some (s.setWatcher (.dead .update))
  | .repairStore m sum =>
    if ok then some { s.setWatcher (.reload m) with checksum := some sum }
    else some (s.setWatcher (.dead .update))
  | .compare m saved =>
    match s.currentChecksum hmac ok with
    | none => some (s.setWatcher (.dead .calculate))
    | some current =>
      if current = saved then some (s.setWatcher (.reload m)) else some (s.setWatcher (.dead (.mismatch saved current)))
  -- `Load`: the file is read and parsed, then the configuration is set under the lock
  | .reload m => if ok && s.config.isSome then some (s.setWatcher (.setConfig m)) else some (s.setWatcher .waiting)
  | .setConfig m => if s.locked 0 then none else some { s.setWatcher .waiting with lastModified := m }
  | .dead _ => none

def step (s : ConfigWatch) : Act → Option ConfigWatch
  | .begin process data =>
    if s.locked process then none
    else some { s with updates := s.updates ++ [{ process := process, pc := .save data }] }
  | .update i now ok =>
    match s.updates[i]? with
    | some u => stepUpdate hmac s i u now ok
    | none => none
  | .watch ok => stepWatch hmac s ok

end
end ConfigWatch

/-- What is used of a `Provider`, and its files. -/
structure Provider (α : Type) where
  config : α
  configPath : String
  file : Option Bytes
  checksum : Option (List Char)
  deriving DecidableEq, Repr

/-- Where `saveConfig` fails. -/
inductive SaveFault
  | marshal
  | mkdir
  | write
  | readBack
  | store
  deriving DecidableEq, Repr

/-- The text of an error, up to the error that it wraps. -/
def SaveFault.text : SaveFault → String
  | marshal => "failed to save config: failed to marshal config: "
  | mkdir => "failed to save config: failed to create config directory: "
  | write => "failed to save config: failed to write config file: "
  | readBack | store => "failed to save config: failed to update checksum: "

/-- `Update`. -/
def Provider.update {α : Type} (hmac : Bytes → Bytes) (marshal : α → Bytes) (p : Provider α) (fn : α → α)
    (fault : Option SaveFault) : Provider α × Option String :=
  let p := { p with config := fn p.config }
  if p.configPath = "" then (p, none)
  else
    let data := marshal p.config
    match fault with
    | none => ({ p with file := some data, checksum := some (ConfigWatch.calculateChecksum hmac data) }, none)
    | some .marshal | some .mkdir | some .write => (p, fault.map SaveFault.text)
    | some .readBack | some .store => ({ p with file := some data }, fault.map SaveFault.text)

end Whispera
