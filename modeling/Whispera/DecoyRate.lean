import Mathlib.Logic.Function.Basic

/-! `decoyIPRateAllow` in `core/protocol/camouflage.go`, with times in nanoseconds. The maps are functions; a
count that is not there is zero. -/

namespace Whispera
open Function

def decoyRateWindow : Int := 10000000000
def decoyRateMax : Nat := 20

structure DecoyIPRate where
  seen : String → Option Int := fun _ => none
  count : String → Nat := fun _ => 0
  lastClean : Int

namespace DecoyIPRate
variable (d : DecoyIPRate) (now : Int)

/-- Once in a minute, addresses whose window is over are forgotten. -/
def clean : DecoyIPRate :=
  if now - d.lastClean > 60000000000 then
    { seen := fun ip => (d.seen ip).filter fun t => ¬now - t > decoyRateWindow
      count := fun ip => if ∃ t ∈ d.seen ip, now - t > decoyRateWindow then 0 else d.count ip
      lastClean := now }
  else d

def allow (ip : String) : DecoyIPRate × Bool :=
  let d := d.clean now
  if ∀ last ∈ d.seen ip, now - last > decoyRateWindow then
    ({ d with seen := update d.seen ip (some now), count := update d.count ip 1 }, true)
  else ({ d with count := update d.count ip (d.count ip + 1) }, d.count ip + 1 ≤ decoyRateMax)

end DecoyIPRate

structure DecoyCall where
  ip : String
  time : Int
  allowed : Bool
  deriving DecidableEq, Repr

structure DecoyHistory where
  rate : DecoyIPRate
  calls : List DecoyCall := []
  now : Int

/-- A call, for the host of the address. Times do not decrease. -/
def DecoyHistory.step (hostOf : String → String) (s : DecoyHistory) (c : String × Int) : Option DecoyHistory :=
  if c.2 < s.now then none
  else
    let (rate, allowed) := s.rate.allow c.2 (hostOf c.1)
    some { rate, calls := s.calls ++ [⟨hostOf c.1, c.2, allowed⟩], now := c.2 }

end Whispera
