import Whispera.Lib.Bytes
import Whispera.Lib.Exec

/-! The TLS library unmarshals the message; its result is a parameter. -/

namespace Whispera
open Exec BigEndian

/-- What is used of `utls.PubClientHelloMsg`. A key share is its group with its data. -/
structure ClientHelloMsg where
  serverName : String
  random : Bytes
  keyShares : List (UInt16 × Bytes)
  deriving DecidableEq, Repr

def x25519 : UInt16 := 0x001d

def extractX25519KeyShare (shares : List (UInt16 × Bytes)) : Bytes :=
  match shares.find? fun sh => sh.1 = x25519 with
  | some sh => sh.2
  | none => []

/-- `binary.BigEndian.Uint16(b[p:])`. -/
def uint16At (b : Bytes) (p : Nat) : Exec Nat := do
  let bytes ← slice b p (p + 2 : Nat)
  ret (get bytes)

/-- A round of the loop over the extensions, which end at `last`: where the server name starts, and its
    length. -/
def extensionRound (payload : Bytes) (last p : Nat) : Exec (Nat ⊕ Option (Nat × Nat)) := do
  if p + 4 ≤ last then
    let typ ← uint16At payload p
    let size ← uint16At payload (p + 2)
    let body := p + 4
    if body + size > last then ret (.inr none)
    else if typ = 0 then
      if size < 5 then ret (.inr none)
      else
        let nameLen ← uint16At payload (body + 3)
        let name := body + 5
        if nameLen < 2 ∨ name + nameLen > payload.length then ret (.inr none)
        else ret (.inr (some (name, nameLen)))
    else ret (.inl (body + size))
  else ret (.inr none)

def findServerName (payload : Bytes) : Exec (Option (Nat × Nat)) := do
  if payload.length < 39 then ret none
  else
    let typ ← index payload 0
    if typ ≠ 0x01 then ret none
    else
      let sessionLen ← index payload (38 : Nat)
      let p := 38 + 1 + sessionLen.toNat
      if p + 2 > payload.length then ret none
      else
        let ciphersLen ← uint16At payload p
        let p := p + 2 + ciphersLen
        if p + 1 > payload.length then ret none
        else
          let compressionLen ← index payload p
          let p := p + 1 + compressionLen.toNat
          if p + 2 > payload.length then ret none
          else
            let extensionsLen ← uint16At payload p
            let last := min (p + 2 + extensionsLen) payload.length
            loop (extensionRound payload last) (payload.length + 1) (p + 2)

def sniSplitOffset (payload : Bytes) : Exec Int := do
  match ← findServerName payload with
  | none => ret (-1)
  | some (name, nameLen) => ret (name + nameLen / 2 : Nat)

end Whispera
