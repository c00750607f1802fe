import Whispera.Lib.Bytes
import Whispera.Lib.Exec
import Whispera.Lib.Net

/-! The model of `parseDNSResponse` in `common/dns/dns_wire.go`, which takes the addresses out of the answer
of an upstream. -/

namespace Whispera
open Exec Net

def wordAt (b : Bytes) (p : Nat) : Exec Nat := do
  let hi ← index b p
  let lo ← index b (p + 1 : Nat)
  ret (hi.toNat * 256 + lo.toNat)

def questionRound (response : Bytes) (offset : Nat) : Exec (Nat ⊕ Nat) := do
  if offset < response.length then
    let b ← index response offset
    if b = 0 then ret (.inr (offset + 1))
    else if b &&& 0xC0 = 0xC0 then ret (.inr (offset + 2))
    else ret (.inl (offset + (b.toNat + 1)))
  else ret (.inr offset)

def labelRound (response : Bytes) (offset : Nat) : Exec (Nat ⊕ Nat) := do
  if offset < response.length then
    let b ← index response offset
    if b = 0 then ret (.inr offset) else ret (.inl (offset + (b.toNat + 1)))
  else ret (.inr offset)

def skipOwner (response : Bytes) (offset : Nat) : Exec Nat := do
  let b ← index response offset
  if b &&& 0xC0 = 0xC0 then ret (offset + 2)
  else
    let offset ← loop (labelRound response) (response.length + 1) offset
    ret (offset + 1)

structure RecordWalk where
  i : Nat := 0
  offset : Nat
  ips : List IP := []

def recordRound (response : Bytes) (ancount : Nat) (w : RecordWalk) : Exec (RecordWalk ⊕ List IP) := do
  if w.i < ancount ∧ w.offset < response.length then
    let offset ← skipOwner response w.offset
    if offset + 10 > response.length then ret (.inr w.ips)
    else
      let rtype ← wordAt response offset
      let rdlen ← wordAt response (offset + 8)
      let offset := offset + 10
      if offset + rdlen > response.length then ret (.inr w.ips)
      else if rtype = 1 ∧ rdlen = 4 then
        let ip ← slice response offset (offset + 4 : Nat)
        ret (.inl ⟨w.i + 1, offset + rdlen, w.ips ++ [ip]⟩)
      else if rtype = 28 ∧ rdlen = 16 then
        let ip ← slice response offset (offset + 16 : Nat)
        ret (.inl ⟨w.i + 1, offset + rdlen, w.ips ++ [ip]⟩)
      else ret (.inl ⟨w.i + 1, offset + rdlen, w.ips⟩)
  else ret (.inr w.ips)

def parseDNSResponse (response : Bytes) (wantID : UInt8 × UInt8) : Exec (List IP) := do
  failIf (response.length < 12) s!"dns response too short ({response.length} bytes)"
  let id0 ← index response (0 : Nat)
  let id1 ← index response (1 : Nat)
  failIf (id0 ≠ wantID.1 ∨ id1 ≠ wantID.2) "dns: transaction id mismatch"
  let flags ← index response (3 : Nat)
  let rcode := flags &&& 0x0F
  failIf (rcode ≠ 0) s!"dns error rcode={rcode.toNat}"
  let ancount ← wordAt response 6
  failIf (ancount = 0) "dns: no answers"
  let offset ← loop (questionRound response) (response.length + 1) 12
  let ips ← loop (recordRound response ancount) (ancount + 1) { offset := offset + 4 }
  failIf (ips = []) "dns: no A/AAAA records in response"
  ret ips

end Whispera
