import Mathlib

/-! `core/protocol/client.go`: the bandit over pairs of a preset and a budget, and `core/protocol/policy.go`:
the choice of the model with its cache. Contexts are texts, and a map is a function with the default of its
type. -/

namespace Whispera

def fragmentBudgets : List Nat := [1, 2, 4, 8]

def jointArmCount (presets : Int) : Nat := (max presets 1).toNat * fragmentBudgets.length

def jointArmParts (arm presets : Int) : Nat × Nat :=
  if arm < 0 ∨ (jointArmCount presets : Int) ≤ arm then (0, fragmentBudgets.getD 0 0)
  else (arm.toNat / fragmentBudgets.length, fragmentBudgets.getD (arm.toNat % fragmentBudgets.length) 0)

/-- Nobody asks for a negative arm, with which the code panics. -/
def jointArmFits (fragmented : Bool) (arm : Int) : Bool :=
  fragmented || fragmentBudgets.getD (arm.toNat % fragmentBudgets.length) 0 == 1

inductive HandshakeResult
  | ok
  | resetFast
  | incomplete
  | rejected
  | error

/-- The entries of `sum` and `cnt` for one context: the rewards and the number of the observations of each
    arm. -/
structure ArmTable (α : Type) where
  sum : List α := []
  cnt : List Nat := []

namespace ArmTable
variable {α : Type} [Field α] [LinearOrder α]

def reward : HandshakeResult → α
  | .ok => 1
  | .resetFast => -1
  | .rejected => -9 / 10
  | .incomplete => -7 / 10
  | .error => -3 / 10

def grown {β : Type} [Zero β] (arms : Nat) (l : List β) : List β := l.take arms ++ List.replicate (arms - l.length) 0

def ensure (t : ArmTable α) (arms : Nat) : ArmTable α :=
  if t.sum.length < arms then { sum := grown arms t.sum, cnt := grown arms t.cnt } else t

def armMean (sum : α) (cnt : Nat) : α := if cnt = 0 then 0 else sum / cnt

/-- The first fitting arm without an observation, or else the number of all observations of fitting arms. -/
def unobserved (fits : Nat → Bool) (cnt : Nat → Nat) : List Nat → Nat → Except Nat Nat
  | [], total => .ok total
  | i :: arms, total =>
    if fits i then
      if cnt i = 0 then .error i else unobserved fits cnt arms (total + cnt i)
    else unobserved fits cnt arms total

/-- The best score so far, at first that of no arm, and its arm. -/
def better (fits : Nat → Bool) (score : Nat → α) (best : Option α × Nat) (i : Nat) : Option α × Nat :=
  if fits i && best.1.all fun b => b < score i then (some (score i), i) else best

/-- The loops of `selectFromRepertoire` on the arms below `n`; `bonus` is the square root in a score, of the
    total and the count. -/
def pick (bonus : Nat → Nat → α) (t : ArmTable α) (n : Nat) (fits : Nat → Bool) : Nat :=
  match unobserved fits (t.cnt.getD · 0) (List.range n) 0 with
  | .error i => i
  | .ok total =>
    let score (i : Nat) := (armMean (t.sum.getD i 0) (t.cnt.getD i 0) + 1) / 2 + bonus total (t.cnt.getD i 0)
    ((List.range n).foldl (better fits score) (none, 0)).2

def observe (t : ArmTable α) (arm : Nat) (r : HandshakeResult) : ArmTable α :=
  { sum := t.sum.modify arm (· + reward r), cnt := t.cnt.modify arm (· + 1) }

end ArmTable

abbrev HandshakeStrategy (α : Type) := String → ArmTable α

namespace HandshakeStrategy
variable {α : Type} [Field α] [LinearOrder α] (bonus : Nat → Nat → α)

def selectJoint (h : HandshakeStrategy α) (ctx : String) (presets : Int) (fragmented : Bool) :
    Nat × HandshakeStrategy α :=
  let t := (h ctx).ensure (jointArmCount presets)
  (t.pick bonus (jointArmCount presets) fun arm => jointArmFits fragmented arm, Function.update h ctx t)

def observe (h : HandshakeStrategy α) (ctx : String) (arm : Int) (r : HandshakeResult) : HandshakeStrategy α :=
  if arm < 0 then h else Function.update h ctx (((h ctx).ensure (arm.toNat + 1)).observe arm.toNat r)

inductive Call
  | observe (ctx : String) (arm : Int) (r : HandshakeResult)
  | selectJoint (ctx : String) (presets : Int) (fragmented : Bool)

def call (h : HandshakeStrategy α) : Call → HandshakeStrategy α
  | .observe ctx arm r => h.observe ctx arm r
  | .selectJoint ctx presets fragmented => (h.selectJoint bonus ctx presets fragmented).2

def after (calls : List Call) : HandshakeStrategy α := calls.foldl (call bonus) fun _ => {}

end HandshakeStrategy

def polBOS : Int := 24

def polBlock : Nat := 16

def polDial (arm : Int) (alive : Bool) : Int := if alive then arm * 2 else arm * 2 + 1

structure ArmGuess where
  rev : UInt64
  arm : Int

/-- `policyHist` and `policyArmCache`. -/
structure Policy where
  hist : String → List Int := fun _ => []
  rev : String → UInt64 := fun _ => 0
  cache : String → Option ArmGuess := fun _ => none

def bestFittingArm {α : Type} [LT α] [DecidableLT α] (scores : List α) (fits : Int → Bool) : Int :=
  scores.zipIdx.foldl (fun best (s, a) =>
    if fits a && (best < 0 || scores[best.toNat]?.any fun b => b < s) then a else best) (-1)

namespace Policy
variable {α : Type} [LT α] [DecidableLT α] (scores : List Int → List α)

def noteDial (p : Policy) (ctx : String) (arm : Int) (alive : Bool) : Policy :=
  let seq := p.hist ctx ++ [polDial arm alive]
  { p with hist := Function.update p.hist ctx (seq.drop
    (seq.length - polBlock)), rev := Function.update p.rev ctx (p.rev ctx + 1) }

/-- What `bestFittingArm` picks for the present history. -/
def best (p : Policy) (ctx : String) (fits : Int → Bool) : Int := bestFittingArm (scores (polBOS :: p.hist ctx)) fits

def policyArm (p : Policy) (ctx : String) (fits : Int → Bool) : Int × Policy :=
  match (p.cache ctx).filter fun g => g.rev == p.rev ctx && fits g.arm with
  | some g => (g.arm, p)
  | none =>
    let best := p.best scores ctx fits
    if (p.cache ctx).all fun g => g.rev ≤ p.rev ctx then
      (best, { p with cache := Function.update p.cache ctx (some { rev := p.rev ctx, arm := best }) })
    else (best, p)

inductive Call
  | noteDial (ctx : String) (arm : Int) (alive : Bool)
  | policyArm (ctx : String) (fits : Int → Bool)

def call (p : Policy) : Call → Policy
  | .noteDial ctx arm alive => p.noteDial ctx arm alive
  | .policyArm ctx fits => (p.policyArm scores ctx fits).2

def after (calls : List Call) : Policy := calls.foldl (call scores) {}

end Policy
end Whispera
