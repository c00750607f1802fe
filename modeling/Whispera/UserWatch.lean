import Whispera.UserStore

/-! `applyUsersFromFile` and a tick of `startUserStoreWatcher` in `core/apiserver/key_store.go`, any number of
them side by side. -/

namespace Whispera

inductive LoadPc
  | tick
  | compare (modTime : Nat)
  | stat
  | read (modTime : Option Nat)
  | publish (modTime : Option Nat) (p : UserPersist)
  | done
  deriving DecidableEq, Repr

/-- The files that there have been, the current one first, and the variables and loads of the server. -/
structure UserServer where
  files : List UsersFile
  store : UserMemory := {}
  loads : List LoadPc := []

namespace UserServer

inductive Act
  | replace (data : Option UserPersist) (now : Nat)
  | apply
  | tick
  | go (i : Nat) (ok : Bool)

def file (s : UserServer) : Option UsersFile := s.files.head?

def setLoad (s : UserServer) (i : Nat) (pc : LoadPc) : UserServer := { s with loads := s.loads.set i pc }

def found (s : UserServer) (ok : Bool) : Option UsersFile := if ok then s.file else none

def stepLoad (s : UserServer) (i : Nat) (ok : Bool) : LoadPc → Option UserServer
  | .tick =>
    match s.found ok with
    | none => some (s.setLoad i .done)
    | some f => some (s.setLoad i (.compare f.modTime))
  | .compare m => if s.store.usersFileModTime = some m then some (s.setLoad i .done) else some (s.setLoad i .stat)
  | .stat => some (s.setLoad i (.read ((s.found ok).map (·.modTime))))
  | .read m =>
    match (s.found ok).bind (·.data) with
    | none => some (s.setLoad i .done)
    | some p => some (s.setLoad i (.publish m p))
  | .publish m p => some { s.setLoad i .done with store := s.store.publish m p }
  | .done => none

def step (s : UserServer) : Act → Option UserServer
  | .replace data now => some { s with files := { data := data, modTime := now } :: s.files }
  | .apply => some { s with loads := s.loads ++ [.stat] }
  | .tick => some { s with loads := s.loads ++ [.tick] }
  | .go i ok =>
    match s.loads[i]? with
    | some pc => s.stepLoad i ok pc
    | none => none

end UserServer
end Whispera
