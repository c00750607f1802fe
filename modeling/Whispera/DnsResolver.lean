import Whispera.Lib.Net
import Whispera.Lib.Table
import Whispera.Lib.Transition

/-! `Resolve`, `ResolveUpstream`, `resolveShared` and `SetUpstream` in `common/dns/resolver.go`, from the
lookup in the cache on. What a call does between two locks, or between two waits, is a step. The calls of
`SetUpstream` are counted, and what comes from an upstream carries the number of those before the upstream was
read. -/

namespace Whispera

/-- An error of the upstream, or that of the context of a call. -/
inductive ResolveError
  | upstream (msg : String)
  | context (call : Nat)
  deriving DecidableEq, Repr

abbrev ResolveResult := Except ResolveError (List Net.IP)

/-- `pending`, with `ips` and `err` in one. -/
structure PendingQuery where
  name : List Char
  result : Option ResolveResult := none
  done : Bool := false
  change : Option Nat := none

inductive ResolvePc
  | look
  | share
  | wait (q : Nat)
  | ask (q : Nat)
  | asked (q : Nat) (upstream : List Char)
  | store (q : Nat)
  | remove (q : Nat)
  | wake (q : Nat)
  | returned (result : ResolveResult) (q : Option Nat) (change : Option Nat)

/-- `since` is the number of calls of `SetUpstream` before this one, if all of them had returned. -/
structure ResolveCall where
  name : List Char
  since : Option Nat := none
  cancelled : Bool := false
  pc : ResolvePc := .look

/-- The resolver, all queries and calls there have been, and how many calls of `SetUpstream` there were and
    have yet to clear the cache. -/
structure DnsResolver where
  cacheEnabled : Bool
  upstream : List Char
  cache : Table.Map (List Char) (List Net.IP × Option Nat) := ∅
  inflight : Table.Map (List Char) Nat := ∅
  queries : List PendingQuery := []
  calls : List ResolveCall := []
  changes : Nat := 0
  clearing : Nat := 0

namespace DnsResolver

/-- What is read of a query: `p.ips` and `p.err`, which are nil before it has ended. -/
def result (s : DnsResolver) (q : Nat) : ResolveResult := ((s.queries[q]?).bind PendingQuery.result).getD (.ok [])

def change (s : DnsResolver) (q : Nat) : Option Nat := (s.queries[q]?).bind PendingQuery.change

def setPc (s : DnsResolver) (i : Nat) (call : ResolveCall) (pc : ResolvePc) : DnsResolver :=
  { s with calls := s.calls.set i { call with pc } }

def look (s : DnsResolver) (name : List Char) : ResolvePc :=
  match if s.cacheEnabled then s.cache.lookup name else none with
  | some (ips, change) => .returned (.ok ips) none change
  | none => .share

def cached (s : DnsResolver) (name : List Char) (q : Nat) : Table.Map (List Char) (List Net.IP × Option Nat) :=
  match s.result q with
  | .ok ips => if s.cacheEnabled = true ∧ ips ≠ [] then s.cache.insert name (ips, s.change q) else s.cache
  | .error _ => s.cache

def go (s : DnsResolver) (i : Nat) (call : ResolveCall) : Option DnsResolver :=
  match call.pc with
  | .look => some (s.setPc i call (s.look call.name))
  | .share =>
    match s.inflight.lookup call.name with
    | some q => some (s.setPc i call (.wait q))
    | none =>
      some { s.setPc i call (.ask s.queries.length) with
        inflight := s.inflight.insert call.name s.queries.length
        queries := s.queries ++ [{ name := call.name }] }
  | .wait q =>
    if (s.queries[q]?).any PendingQuery.done then
      some (s.setPc i call (.returned (s.result q) (some q) (s.change q)))
    else none
  | .ask q =>
    some { s.setPc i call (.asked q s.upstream) with
      queries := s.queries.modify q fun p => { p with change := some s.changes } }
  | .asked _ _ => none
  | .store q => some { s.setPc i call (.remove q) with cache := s.cached call.name q }
  | .remove q => some { s.setPc i call (.wake q) with inflight := s.inflight.erase call.name }
  | .wake q =>
    some { s.setPc i call (.returned (s.result q) (some q) (s.change q)) with
      queries := s.queries.modify q fun p => { p with done := true } }
  | .returned _ _ _ => none

/-- The upstream answers. Only a call whose context is done gets the error of a context, and that of its own.
    -/
def answer (s : DnsResolver) (i : Nat) (call : ResolveCall) (result : ResolveResult) : Option DnsResolver :=
  match call.pc with
  | .asked q _ =>
    match result with
    | .error (.context j) =>
      if j = i ∧ call.cancelled = true then
        some { s.setPc i call (.store q) with queries := s.queries.modify q fun p => { p with result := some result } }
      else none
    | _ => some { s.setPc i call (.store q) with
      queries := s.queries.modify q fun p => { p with result := some result } }
  | _ => none

/-- A call that waits, and whose context is done, may return without an answer. -/
def giveUp (s : DnsResolver) (i : Nat) (call : ResolveCall) : Option DnsResolver :=
  match call.pc with
  | .wait q => if call.cancelled then some (s.setPc i call (.returned (.error (.context i)) (some q) none)) else none
  | _ => none

inductive Act
  | resolve (name : List Char)
  | go (i : Nat)
  | answer (i : Nat) (result : ResolveResult)
  | cancel (i : Nat)
  | giveUp (i : Nat)
  | evict (name : List Char)
  | setUpstream (upstream : List Char)
  | clear

/-- `strings.EqualFold(upstream, "system")`; besides the capital letters only `ſ` folds to a letter of the
    word. -/
def isSystem (upstream : List Char) : Bool :=
  upstream.map (fun c => if c = 'ſ' then 's' else c.toLower) = "system".toList

def step (s : DnsResolver) : Act → Option DnsResolver
  | .resolve name =>
    some { s with calls := s.calls ++ [{ name, since := if s.clearing = 0 then some s.changes else none }] }
  | .go i => (s.calls[i]?).bind (s.go i)
  | .answer i result => (s.calls[i]?).bind fun call => s.answer i call result
  | .cancel i => (s.calls[i]?).map fun call => { s with calls := s.calls.set i { call with cancelled := true } }
  | .giveUp i => (s.calls[i]?).bind (s.giveUp i)
  | .evict name => some { s with cache := s.cache.erase name }
  | .setUpstream upstream =>
    some { s with
      upstream := if isSystem upstream then [] else upstream
      changes := s.changes + 1
      clearing := s.clearing + 1 }
  | .clear => if s.clearing = 0 then none else some { s with cache := ∅, clearing := s.clearing - 1 }

end DnsResolver

end Whispera
