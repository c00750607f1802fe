import Whispera.SelectorIndex

/-! `selectorIndex.camoKeys` of `core/protocol/selector_index.go` calls `snapshot` and then reads, under the
lock, the index in place. -/

namespace Whispera

def SnapshotPc.isReturned : SnapshotPc → Bool
  | .idle | .begun | .checking _ | .building _ | .storing _ _ => false
  | .returned _ => true

/-- What a call of `camoKeys` returned, with the number of updates that were complete when it began. -/
structure CamoKeys where
  since : Nat
  keys : List Bytes
  deriving DecidableEq, Repr

/-- The store and the index, the calls of `snapshot` for a `camoKeys` that has not returned, and what calls of
    `camoKeys` returned. -/
structure CamoTable where
  table : UserTable
  scanning : List Nat := []
  returned : List CamoKeys := []

namespace CamoTable

def start (users : List UserEntry) : CamoTable where
  table := .start users

/-- A step of the store or of a call of `snapshot`; `camoKeys` calls `snapshot`; it reads the list. -/
inductive Act
  | table (a : UserTable.Act)
  | camoKeys (i : Nat)
  | read (i : Nat)

/-- Whether a step would begin a call of `snapshot` in the place of one whose `camoKeys` has not returned. -/
def reuses (s : CamoTable) : UserTable.Act → Bool
  | .begin i => i ∈ s.scanning
  | _ => false

variable (crypto : Crypto) (cfg : ServerConfig)

def step (s : CamoTable) : Act → Option CamoTable
  | .table a => if s.reuses a then none else (s.table.step crypto cfg a).map fun table => { s with table }
  | .camoKeys i =>
    if i ∈ s.scanning then none
    else (s.table.step crypto cfg (.begin i)).map fun table => { s with table, scanning := i :: s.scanning }
  | .read i =>
    if i ∈ s.scanning ∧ (s.table.calls i).pc.isReturned then
      some { s with
        scanning := s.scanning.filter (· ≠ i)
        returned := s.returned ++ [{ since := (s.table.calls i).since, keys := s.table.index.keys }] }
    else none

end CamoTable

end Whispera
