import Whispera.Lib.Exec
import Whispera.Lib.Table

/-! `core/apiserver/key_store.go`, the user commands in `core/apiserver/cli.go` and `WriteFile` in
`common/fsown/fsown.go`. Each command is a process of its own. The text of the file stands for what
`json.Unmarshal` makes of it. The order in which a loop visits the map of the users is an argument. The next
id is a 64-bit integer. -/

namespace Whispera
open Table

structure User where
  id : Int
  username : List Char
  privateKey : List Char := []
  publicKey : List Char := []
  connectionURI : List Char := []
  upload : Int := 0
  download : Int := 0
  expiryDate : List Char := []
  status : List Char
  createdAt : Int
  obfsProfile : List Char := []
  marionetteProfile : List Char := []
  russianService : List Char := []
  inboundTags : List (List Char) := []
  deriving DecidableEq, Repr

/-- The content of the file. A next id that is missing is 0. -/
structure UserPersist where
  users : List User
  nextUserID : Int
  deriving DecidableEq, Repr

/-- A file, whose text may be no value of the type. -/
structure UsersFile where
  data : Option UserPersist
  modTime : Nat
  deriving DecidableEq, Repr

/-- The variables of the package. No file has the time of before the first load. -/
structure UserMemory where
  users : Map Int User := ∅
  nextUserID : Int := 1
  usersFileModTime : Option Nat := none
  version : Nat := 0

/-- The map that a load makes of the list, in which the last of several users with one id stays. -/
def UserPersist.fresh (p : UserPersist) : Map Int User := p.users.foldl (fun m u => m.insert u.id u) ∅

namespace UserMemory

def publish (s : UserMemory) (modTime : Option Nat) (p : UserPersist) : UserMemory where
  users := p.fresh
  nextUserID := if s.nextUserID < p.nextUserID then p.nextUserID else s.nextUserID
  usersFileModTime := modTime.or s.usersFileModTime
  version := s.version + 1

def applyUsersFromFile (s : UserMemory) (statOk readOk : Bool) (file : Option UsersFile) : UserMemory :=
  match file with
  | none => s
  | some f =>
    if readOk then
      match f.data with
      | none => s
      | some p => s.publish (if statOk then some f.modTime else none) p
    else s

def find (s : UserMemory) (visit : List Int) (username : List Char) : Option Int :=
  visit.find? fun id => (s.users.lookup id).map (·.username) = some username

def snapshot (s : UserMemory) (visit : List Int) : UserPersist where
  users := visit.filterMap s.users.lookup
  nextUserID := s.nextUserID

end UserMemory

/-- What `WriteFile` gets from the operations on the temporary file. -/
structure WriteOutcome where
  write : Bool := true
  /-- the first write failed for the permissions of a file that could be removed -/
  removed : Bool := false
  rewrite : Bool := true
  matchParent : Bool := true
  rename : Bool := true
  deriving DecidableEq, Repr

def WriteOutcome.replaces (o : WriteOutcome) : Bool :=
  (if o.write then true else o.removed && o.rewrite) && o.matchParent && o.rename

def writeFile (o : WriteOutcome) (file : Option UsersFile) (p : UserPersist) (now : Nat) : Option UsersFile :=
  if o.replaces then some { data := some p, modTime := now } else file

structure UserKeys where
  privateKey : List Char
  publicKey : List Char
  deriving DecidableEq, Repr

/-- The commands, with what `generateX25519Keys` returns, the time, and the connection key that is made for a
    user. -/
inductive UserCommand
  | upsert (username : List Char) (keys : Option UserKeys) (now : Int)
  | delete (username : List Char)
  | buildKey (username : List Char) (uri : User → Option (List Char))

inductive CommandResult
  | keys (k : UserKeys)
  | deleted (found : Bool)
  | uri (u : List Char)
  /-- no key could be generated or encoded -/
  | failed
  | notFound
  deriving DecidableEq, Repr

/-- The part of a command under the lock: the variables after it, what it returns, and whether it calls
    `saveUsers`. -/
def UserCommand.modify (c : UserCommand) (visit : List Int) (s : UserMemory) : UserMemory × CommandResult × Bool :=
  match c with
  | .upsert username keys now =>
    match (s.find visit username).bind s.users.lookup with
    | some u => (s, .keys { privateKey := u.privateKey, publicKey := u.publicKey }, true)
    | none =>
      match keys with
      | none => (s, .failed, false)
      | some k =>
        let user : User :=
          { id := s.nextUserID, username := username, privateKey := k.privateKey, publicKey := k.publicKey,
            status := "active".toList, createdAt := now }
        ({ s with users := s.users.insert s.nextUserID user, nextUserID := Exec.wrap (s.nextUserID + 1) },
         .keys k, true)
  | .delete username =>
    -- `foundID` starts at -1, which also stands for "not found" when it is an id
    match s.find visit username with
    | some id => if id = -1 then (s, .deleted false, false)
      else ({ s with users := s.users.erase id }, .deleted true, true)
    | none => (s, .deleted false, false)
  | .buildKey username uri =>
    match s.find visit username with
    | none => (s, .notFound, false)
    | some id =>
      match s.users.lookup id with
      | none => (s, .notFound, false)
      | some u =>
        match uri u with
        | none => (s, .failed, false)
        | some text => ({ s with users := s.users.insert id { u with connectionURI := text } }, .uri text, true)

/-- What the surroundings choose in one command: the results of the operations on files and the orders of the
    loops. -/
structure CommandEnv where
  stat : Bool := true
  read : Bool := true
  find : List Int
  save : List Int
  write : WriteOutcome := {}
  now : Nat

/-- A command in a process of its own, by itself: the file afterwards and what it returns. -/
def UserCommand.run (c : UserCommand) (e : CommandEnv) (file : Option UsersFile) : Option UsersFile × CommandResult :=
  let s : UserMemory := ({} : UserMemory).applyUsersFromFile e.stat e.read file
  let (s, r, save) := c.modify e.find s
  (if save then writeFile e.write file (s.snapshot e.save) e.now else file, r)

/-- The loops of a command by itself visit the keys that are in the map at the time. -/
def UserCommand.Visits (c : UserCommand) (e : CommandEnv) (file : Option UsersFile) : Prop :=
  let s : UserMemory := ({} : UserMemory).applyUsersFromFile e.stat e.read file
  e.find.Perm s.users.keys ∧ e.save.Perm (c.modify e.find s).1.users.keys

/-- Where a process is: about to load, to change what it has loaded, to write the temporary file, to rename
    it. -/
inductive CommandPc
  | load
  | modify (s : UserMemory)
  | write (p : UserPersist) (r : CommandResult)
  | rename (p : UserPersist) (r : CommandResult)
  | returned (r : CommandResult)

structure UserProcess where
  cmd : UserCommand
  pc : CommandPc := .load

def UserProcess.active (q : UserProcess) : Bool :=
  match q.pc with
  | .load | .returned _ => false
  | .modify _ | .write _ _ | .rename _ _ => true

/-- The two files, the processes, and the commands that have returned, in the order in which they did. -/
structure UserCommands where
  file : Option UsersFile
  tmp : Option UserPersist := none
  processes : List UserProcess := []
  log : List (UserCommand × CommandResult) := []

namespace UserCommands

inductive Act
  | begin (cmd : UserCommand)
  | load (i : Nat) (stat read : Bool)
  | modify (i : Nat) (find save : List Int)
  | write (i : Nat) (ok : Bool)
  | rename (i : Nat) (now : Nat) (ok : Bool)

def move (s : UserCommands) (i : Nat) (q : UserProcess) (pc : CommandPc) : UserCommands :=
  { s with processes := s.processes.set i { q with pc := pc } }

def finish (s : UserCommands) (i : Nat) (q : UserProcess) (r : CommandResult) : UserCommands :=
  { s.move i q (.returned r) with log := s.log ++ [(q.cmd, r)] }

def stepModify (s : UserCommands) (i : Nat) (q : UserProcess) (st : UserMemory) (find save : List Int) :
    Option UserCommands :=
  let (st', r, saves) := q.cmd.modify find st
  if find.Perm st.users.keys ∧ save.Perm st'.users.keys then
    if saves then some (s.move i q (.write (st'.snapshot save) r)) else some (s.finish i q r)
  else none

def step (s : UserCommands) : Act → Option UserCommands
  | .begin cmd => some { s with processes := s.processes ++ [{ cmd := cmd }] }
  | .load i stat read =>
    match s.processes[i]? with
    | some q =>
      match q.pc with
      | .load => some (s.move i q (.modify (({} : UserMemory).applyUsersFromFile stat read s.file)))
      | _ => none
    | none => none
  | .modify i find save =>
    match s.processes[i]? with
    | some q =>
      match q.pc with
      | .modify st => s.stepModify i q st find save
      | _ => none
    | none => none
  | .write i ok =>
    match s.processes[i]? with
    | some q =>
      match q.pc with
      -- all processes use the same name for the temporary file; an error is only logged
      | .write p r => if ok then some { s.move i q (.rename p r) with tmp := some p } else some (s.finish i q r)
      | _ => none
    | none => none
  | .rename i now ok =>
    match s.processes[i]? with
    | some q =>
      match q.pc with
      | .rename _ r =>
        match s.tmp with
        | some p =>
          if ok then some { s.finish i q r with file := some { data := some p, modTime := now }, tmp := none }
          else some { s.finish i q r with tmp := none }
        | none => some (s.finish i q r)
      | _ => none
    | none => none

end UserCommands
end Whispera
