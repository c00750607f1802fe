import Whispera.Lib.Transition

/-! `common/runtime/events/events.go`. A channel goes by its number among those that were made. -/

namespace Whispera

/-- A `subscription` with a channel, or with a handler and an id, which is not 0. -/
inductive EventSub
  | chan (ch : Nat)
  | handler (id : Nat)
  deriving DecidableEq, Repr

def EventSub.ch? : EventSub → Option Nat
  | .chan ch => some ch
  | .handler _ => none

/-- `subscribers` has the subscriptions with their types. Besides, the channels made, those closed, in order,
    and whether one was offered an event when it was closed. -/
structure EventBus where
  subscribers : List (String × EventSub) := []
  allSubs : List EventSub := []
  subIDSeq : Nat := 0
  closed : Bool := false
  made : Nat := 0
  closes : List Nat := []
  sentClosed : Bool := false
  deriving DecidableEq, Repr

namespace EventBus

inductive Call
  | subscribe (eventType : String)
  | subscribeAll
  | subscribeFunc (eventType : String)
  | unsubscribeFunc (eventType : String) (id : Nat)
  | unsubscribe (eventType : String) (ch : Nat)
  | publish (eventType : String)
  | close
  deriving DecidableEq, Repr

def chans (eb : EventBus) : List Nat := (eb.subscribers.map Prod.snd ++ eb.allSubs).filterMap EventSub.ch?

def unsubscribe (eb : EventBus) (eventType : String) (ch : Nat) : EventBus :=
  if (eventType, .chan ch) ∈ eb.subscribers then
    { eb with subscribers := eb.subscribers.erase (eventType, .chan ch), closes := eb.closes ++ [ch] }
  else if .chan ch ∈ eb.allSubs then { eb with allSubs := eb.allSubs.erase (.chan ch), closes := eb.closes ++ [ch] }
  else eb

def publish (eb : EventBus) (eventType : String) : EventBus :=
  if eb.closed then eb
  else
    let subs := (eb.subscribers.filter (·.1 = eventType)).map Prod.snd ++ eb.allSubs
    { eb with sentClosed := eb.sentClosed || (subs.filterMap EventSub.ch?).any (· ∈ eb.closes) }

def step (eb : EventBus) : Call → EventBus
  | .subscribe eventType =>
    { eb with subscribers := eb.subscribers ++ [(eventType, .chan eb.made)], made := eb.made + 1 }
  | .subscribeAll => { eb with allSubs := eb.allSubs ++ [.chan eb.made], made := eb.made + 1 }
  | .subscribeFunc eventType =>
    { eb with subscribers := eb.subscribers ++ [(eventType, .handler (eb.subIDSeq + 1))], subIDSeq := eb.subIDSeq + 1 }
  | .unsubscribeFunc eventType id => { eb with subscribers := eb.subscribers.erase (eventType, .handler id) }
  | .unsubscribe eventType ch => eb.unsubscribe eventType ch
  | .publish eventType => eb.publish eventType
  | .close => if eb.closed then eb else { eb with closed := true, closes := eb.closes ++ eb.chans }

end EventBus

end Whispera
