import Whispera.Lib.Bytes
import Mathlib.Data.List.Basic

/-! `core/protocol/camo`. The random of a ClientHello is a selector, the tag of the user under a mask from the
key exchange, and a marker, an HMAC over the time window. -/

namespace Whispera
open BigEndian

def ascii (s : String) : Bytes := s.toList.map fun c => UInt8.ofNat c.toNat

/-- Go's `crypto` packages and `x/crypto/hkdf`. The exchange of an X25519 key with a public one fails if the
    result is zero. -/
structure Crypto where
  hmac : Bytes → Bytes → Bytes
  sha256 : Bytes → Bytes
  hkdf : Bytes → Bytes → Bytes
  publicKey : Bytes → Bytes
  ecdh : Bytes → Bytes → Option Bytes
  length_hmac : ∀ key msg, (hmac key msg).length = 32
  length_hkdf : ∀ secret info, (hkdf secret info).length = 32
  length_publicKey : ∀ priv, (publicKey priv).length = 32

/-- The conversion of an `int64` window to `uint64`, in big-endian order. -/
def windowBytes (window : Int) : Bytes := putUint64 (window % 2 ^ 64).toNat

/-- The windows of a loop from `w - tol` to `w + tol`, where `w` is the one of `now`. Go's division truncates.
    -/
def windows (seconds : Int) (tol : Nat) (now : Int) : List Int :=
  (List.range (2 * tol + 1)).map fun (i : Nat) => now.tdiv seconds - tol + i

def windowSeconds : Int := 30
def windowTol : Nat := 1

def windowsAround (now : Int) : List Int := windows windowSeconds windowTol now

section
variable (crypto : Crypto)

def serverKeyFromSeed (seed : Bytes) : Option Bytes :=
  let raw := crypto.hkdf seed (ascii "whispera-selector-x25519-v1")
  if raw.length = 32 then some raw else none

def deriveKey (psk : Bytes) : Bytes :=
  if psk.length ≠ 32 then [] else crypto.hmac psk (ascii "whispera-camo-v1")

def markerForWindow (key : Bytes) (window : Int) (keyShare : Bytes) : Block 32 :=
  .copy 32 (crypto.hmac key (windowBytes window ++ keyShare))

/-- `MarkerMatches`, the check of a client without a selector. -/
def markerMatches (keys : List Bytes) (random keyShare : Bytes) (now : Int) : Bool :=
  if random.length ≠ 32 ∨ keys = [] ∨ keyShare = [] then false
  else keys.any fun key =>
    key ≠ [] ∧ (windowsAround now).any fun cand => (markerForWindow crypto key cand keyShare).val = random

def userTag (psk : Bytes) : Block 8 := .copy 8 (crypto.hmac psk (ascii "whispera-uid-v1"))

def selectorMask (shared : Bytes) : Block 8 := .copy 8 (crypto.sha256 (ascii "whispera-sel-v1" ++ shared))

def xorTag (a b : Block 8) : Block 8 := a.xor b

def buildSelector (psk ephPriv serverPub : Bytes) : Option (Block 8) :=
  (crypto.ecdh ephPriv serverPub).map fun shared => xorTag (userTag crypto psk) (selectorMask crypto shared)

/-- A key share of another length is no public key. -/
def openSelector (selector : Block 8) (serverPriv keyShare : Bytes) : Option (Block 8) :=
  if keyShare.length ≠ 32 then none
  else (crypto.ecdh serverPriv keyShare).map fun shared => xorTag selector (selectorMask crypto shared)

def markerFor (key : Bytes) (window : Int) (keyShare : Bytes) : Block 24 :=
  .copy 24 (crypto.hmac key (windowBytes window ++ keyShare))

def splitRandom (random : Bytes) : Option (Block 8 × Bytes) :=
  if random.length ≠ 32 then none else some (.copy 8 (random.take 8), random.drop 8)

def writeRandom (random : Bytes) (sel : Block 8) (key : Bytes) (window : Int) (keyShare : Bytes) :
    Bool × Bytes :=
  if random.length ≠ 32 then (false, random) else (true, sel.val ++ (markerFor crypto key window keyShare).val)

def markerMatchesKey (key marker keyShare : Bytes) (now : Int) : Bool :=
  if marker.length ≠ 24 ∨ key = [] ∨ keyShare = [] then false
  else (windowsAround now).any fun cand => (markerFor crypto key cand keyShare).val = marker

/-- What `tlsHandshake` makes of the random, when the selector key of the server is known. -/
def helloRandom (psk ephPriv serverPub random : Bytes) (now : Int) : Option Bytes :=
  let keyShare := crypto.publicKey ephPriv
  (buildSelector crypto psk ephPriv serverPub).map fun sel =>
    (writeRandom crypto random sel (deriveKey crypto psk) (now.tdiv windowSeconds) keyShare).2

end

end Whispera
