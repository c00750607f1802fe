import Whispera.ClientHello

/-! `core/asn_bypass/asn_bypass.go`. The random draws are arguments; drawing below a number that is not
positive panics. -/

namespace Whispera
open Exec BigEndian

def defaultMaxHelloRecords : Int := 8

structure FragmentPlan where
  size : Int
  maxRecords : Int
  delayMin : Int
  delayMax : Int
  fits : ∀ x ∈ [size, maxRecords, delayMin, delayMax], -9223372036854775808 ≤ x ∧ x < 9223372036854775808

def randIntn (n : Int) (draw : Nat) : Exec Int := if n ≤ 0 then panic else ret (draw % n)

def fragmentPause (minMs maxMs : Int) (draw : Nat) : Exec Unit := do
  if maxMs ≤ 0 then ret ()
  else
    let minMs := if minMs < 0 then 0 else minMs
    let minMs := if minMs > maxMs then maxMs else minMs
    if maxMs > minMs then
      let _ ← randIntn (wrap (wrap (maxMs - minMs) + 1)) draw
      ret ()
    else ret ()

def tlsRecord (header body : Bytes) : Bytes :=
  header ++ [UInt8.ofNat (body.length >>> 8), UInt8.ofNat body.length] ++ body

namespace FragmentPlan
variable (plan : FragmentPlan)

def allowed : Int := if plan.maxRecords < 1 then defaultMaxHelloRecords else plan.maxRecords

def base (len : Nat) : Int :=
  let base := if plan.size < 8 then 8 else plan.size
  let least := (wrap (wrap (len + plan.allowed) - 1)).tdiv plan.allowed
  if base < least then least else base

def lo (len : Nat) : Int := if (plan.base len).tdiv 2 < 8 then 8 else (plan.base len).tdiv 2

def hi (len : Nat) : Int := wrap (plan.base len + (plan.base len).tdiv 2)

end FragmentPlan

structure Fragmenter where
  payload : Bytes
  sent : Int := 0
  written : List Bytes := []

/-- The random draws of a call: those of the chunks and those of the pauses, by the number of records written.
    -/
structure FragmentDraws where
  chunk : Nat → Nat
  pause : Nat → Nat

section
variable (plan : FragmentPlan) (draws : FragmentDraws)

def chunkSize (split drawn : Int) (s : Fragmenter) : Int :=
  let chunk : Int := if drawn > s.payload.length then s.payload.length else drawn
  let chunk := if split > s.sent ∧ split - s.sent < chunk ∧
    s.written.length + 1 < plan.allowed then split - s.sent else chunk
  if s.written.length + 1 ≥ plan.allowed then s.payload.length else chunk

def pauseBefore (count : Nat) (rest : Bytes) : Exec Unit :=
  if rest.length > 0 then fragmentPause plan.delayMin plan.delayMax (draws.pause count) else ret ()

/-- A round of the loop of `writeFragmentedTLSRecord`. `conn` is the error of each write. -/
def fragmentRound (conn : Nat → Option String) (header : Bytes) (len : Nat) (split : Int) (s : Fragmenter) :
    Exec (Fragmenter ⊕ List Bytes) := do
  if s.payload.length > 0 then
    let drawn ← randIntn (wrap (wrap (plan.hi len - plan.lo len) + 1)) (draws.chunk s.written.length)
    let chunk := chunkSize plan split (wrap (plan.lo len + drawn)) s
    -- A negative size panics in `make` and in the slice alike.
    let body ← slice s.payload 0 chunk
    let payload ← slice s.payload chunk s.payload.length
    match conn s.written.length with
    | some msg => err msg
    | none =>
      pauseBefore plan draws s.written.length payload
      ret (.inl { payload, sent := s.sent + chunk, written := s.written ++ [tlsRecord header body] })
  else ret (.inr s.written)

def writeFragmentedTLSRecord (conn : Nat → Option String) (data : Bytes) : Exec (List Bytes) := do
  if data.length < 6 ∨ data.headD 0 ≠ 0x16 then
    match conn 0 with
    | some msg => err msg
    | none => ret [data]
  else
    let payload := data.drop 5
    let split ← sniSplitOffset payload
    loop (fragmentRound plan draws conn (data.take 3) payload.length split) (payload.length + 1) { payload }

end

end Whispera
