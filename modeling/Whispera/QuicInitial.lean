import Whispera.ClientHello
import Whispera.Selector

/-! `core/protocol/quic/initial.go`. Positions are integers of 64 bits, and reading out of range panics. -/

namespace Whispera
open Exec BigEndian

/-- What the cryptographic libraries compute: `hkdf.Extract`, `hkdf.Expand`, AES on one block, and AES-GCM. -/
structure QuicCrypto where
  extract : (secret salt : Bytes) → Bytes
  expand : (secret info : Bytes) → (n : Nat) → Block n
  encrypt : Block 16 → Bytes → Block 16
  gcmSeal : (key : Block 16) → (nonce : Block 12) → (plaintext ad : Bytes) → Bytes
  gcmOpen : (key : Block 16) → (nonce : Block 12) → (ciphertext ad : Bytes) → Option Bytes

def quicV1InitialSalt : Bytes :=
  [0x38, 0x76, 0x2c, 0xf7, 0xf5, 0x59, 0x34, 0xb3, 0x4d, 0x17, 0x9a, 0xe6, 0xa4, 0xc8, 0x0c, 0xad, 0xcc, 0xbb,
   0x7f, 0x0a]

def quicFrameTypePadding : UInt8 := 0x00
def quicFrameTypeCrypto : UInt8 := 0x06
def quicMinInitialPacket : Nat := 1200

def quicVarintAppend (b : Bytes) (v : Nat) : Bytes :=
  if v ≤ 63 then b ++ [UInt8.ofNat v]
  else if v ≤ 16383 then b ++ [UInt8.ofNat (v >>> 8) ||| 0x40, UInt8.ofNat v]
  else if v ≤ 1073741823 then
    b ++ [UInt8.ofNat (v >>> 24) ||| 0x80, UInt8.ofNat (v >>> 16), UInt8.ofNat (v >>> 8), UInt8.ofNat v]
  else
    b ++ [UInt8.ofNat (v >>> 56) ||| 0xc0, UInt8.ofNat (v >>> 48), UInt8.ofNat (v >>> 40), UInt8.ofNat (v >>> 32),
      UInt8.ofNat (v >>> 24), UInt8.ofNat (v >>> 16), UInt8.ofNat (v >>> 8), UInt8.ofNat v]

def quicVarintLen (v : Nat) : Nat := if v ≤ 63 then 1 else if v ≤ 16383 then 2 else if v ≤ 1073741823 then 4 else 8

/-- The value, which is below `2 ^ 62`, and the number of bytes that it takes. -/
def quicVarintParse (b : Bytes) : Exec (Nat × Nat) := do
  failIf (b.length = 0) "whispera: empty varint"
  let first ← index b 0
  let l := 1 <<< (first >>> 6).toNat
  failIf (b.length < l) "whispera: truncated varint"
  -- The loop over `b[1]`, …, `b[l-1]`.
  let rest ← slice b 1 l
  ret (get ((first &&& 0x3f) :: rest), l)

structure QuicKeys where
  key : Block 16
  iv : Block 12
  hp : Block 16

namespace QuicCrypto
variable (crypto : QuicCrypto)

def hkdfExpandLabelQUIC (secret context : Bytes) (label : String) (length : Nat) : Block length :=
  let info := putUint16 length ++ [UInt8.ofNat (6 + label.length)] ++ ascii "tls13 " ++ ascii label ++
    [UInt8.ofNat context.length] ++ context
  crypto.expand secret info length

def quicInitialSecrets (dcid : Bytes) : Block 32 :=
  crypto.hkdfExpandLabelQUIC (crypto.extract dcid quicV1InitialSalt) [] "client in" 32

def quicKeyIVHP (secret : Bytes) : QuicKeys where
  key := crypto.hkdfExpandLabelQUIC secret [] "quic key" 16
  iv := crypto.hkdfExpandLabelQUIC secret [] "quic iv" 12
  hp := crypto.hkdfExpandLabelQUIC secret [] "quic hp" 16

def clientKeys (dcid : Bytes) : QuicKeys := crypto.quicKeyIVHP (crypto.quicInitialSecrets dcid).val

/-- The packet number goes over the last eight bytes. -/
def quicAEADNonce (iv : Block 12) (pn : Nat) : Block 12 := iv.xor (.copy 12 ([0, 0, 0, 0] ++ putUint64 pn))

def quicSeal (keys : QuicKeys) (pn : Nat) (plaintext ad : Bytes) : Bytes :=
  crypto.gcmSeal keys.key (quicAEADNonce keys.iv pn) plaintext ad

def quicOpen (keys : QuicKeys) (pn : Nat) (ciphertext ad : Bytes) : Exec Bytes :=
  match crypto.gcmOpen keys.key (quicAEADNonce keys.iv pn) ciphertext ad with
  | some plaintext => ret plaintext
  | none => err "cipher: message authentication failed"

def quicHeaderProtectionMask (hpKey : Block 16) (sample : Bytes) : Exec Bytes := do
  failIf (sample.length ≠ 16) "whispera: invalid quic hp sample size"
  ret (crypto.encrypt hpKey sample).val

end QuicCrypto

def quicCryptoFrame (data : Bytes) : Bytes :=
  quicVarintAppend (quicVarintAppend [quicFrameTypeCrypto] 0) data.length ++ data

def probeHeader (dcid scid : Block 8) : Bytes :=
  [0xc0, 0x00, 0x00, 0x00, 0x01] ++ [UInt8.ofNat dcid.val.length] ++ dcid.val ++
    [UInt8.ofNat scid.val.length] ++ scid.val ++ [0x00]

/-- The payload of a probe: the hello in one frame, and padding up to the smallest packet that is allowed. -/
def probePayload (header hello : Bytes) : Bytes :=
  let payload := quicCryptoFrame hello
  let unpaddedTotal := header.length + quicVarintLen (1 + payload.length + 16) + 1 + payload.length + 16
  payload ++ List.replicate (max quicMinInitialPacket unpaddedTotal - unpaddedTotal) 0

/-- `BuildCamoProbe`, with what `randomBytes` and `buildMarkedClientHello` return. -/
def buildCamoProbe (crypto : QuicCrypto) (dcid scid : Option (Block 8)) (hello : Exec Bytes) : Exec Bytes :=
  do
  match dcid, scid with
  | some dcid, some scid =>
    let chBytes ← hello
    let keys := crypto.clientKeys dcid.val
    let payload := probePayload (probeHeader dcid scid) chBytes
    let header := quicVarintAppend (probeHeader dcid scid) (1 + payload.length + 16)
    let pnOffset := header.length
    let header := header ++ [0x00]
    let packet := header ++ crypto.quicSeal keys 0 payload header
    let sampleOffset := pnOffset + 4
    failIf (sampleOffset + 16 > packet.length) "whispera: quic probe: packet too short to sample"
    let sample ← slice packet sampleOffset (sampleOffset + 16)
    let mask ← crypto.quicHeaderProtectionMask keys.hp sample
    let mask0 ← index mask 0
    let packet ← modify packet 0 (· ^^^ (mask0 &&& 0x0f))
    let mask1 ← index mask 1
    modify packet pnOffset (· ^^^ mask1)
  | _, _ => err "whispera: quic probe: rand failure"

structure QuicInitialHeader where
  dcid : Bytes
  pnOffset : Int
  length : Int
  deriving DecidableEq, Repr

def parseQUICInitialHeader (packet : Bytes) : Exec QuicInitialHeader := do
  failIf (packet.length < 7) "whispera: not a quic long header packet"
  let first ← index packet 0
  failIf (first &&& 0x80 = 0 ∨ first &&& 0x40 = 0) "whispera: not a quic long header packet"
  let version ← slice packet 1 5
  failIf (get version ≠ 1) "whispera: unsupported quic version"
  failIf (first >>> 4 &&& 0x3 ≠ 0) "whispera: not a quic initial packet"
  let pos : Int := 5
  failIf (pos ≥ packet.length) "whispera: truncated quic header"
  let dcidLen ← index packet pos
  let pos := wrap (pos + 1)
  failIf (wrap (wrap (pos + dcidLen.toNat) + 1) > packet.length) "whispera: truncated quic dcid"
  let dcid ← slice packet pos (wrap (pos + dcidLen.toNat))
  let pos := wrap (pos + dcidLen.toNat)
  let scidLen ← index packet pos
  let pos := wrap (pos + 1)
  failIf (wrap (pos + scidLen.toNat) > packet.length) "whispera: truncated quic scid"
  let pos := wrap (pos + scidLen.toNat)
  let token ← slice packet pos packet.length
  let (tokenLen, n) ← quicVarintParse token
  let pos := wrap (pos + n)
  failIf (wrap (pos + tokenLen) > packet.length) "whispera: truncated quic token"
  let pos := wrap (pos + tokenLen)
  let rest ← slice packet pos packet.length
  let (lenField, n) ← quicVarintParse rest
  let pos := wrap (pos + n)
  failIf (wrap (pos + lenField) > packet.length) "whispera: truncated quic packet"
  ret { dcid, pnOffset := pos, length := lenField }

def pnByte (packet mask : Bytes) (pnOffset : Int) (i : Nat) : Exec UInt8 := do
  let b ← index packet (wrap (pnOffset + i))
  let m ← index mask (1 + i)
  ret (b ^^^ m)

def decryptQUICInitial (crypto : QuicCrypto) (packet : Bytes) (h : QuicInitialHeader) : Exec Bytes := do
  let keys := crypto.clientKeys h.dcid
  let sampleOffset := wrap (h.pnOffset + 4)
  failIf (wrap (sampleOffset + 16) > packet.length) "whispera: quic initial too short to sample"
  let sample ← slice packet sampleOffset (wrap (sampleOffset + 16))
  let mask ← crypto.quicHeaderProtectionMask keys.hp sample
  let first ← index packet 0
  let mask0 ← index mask 0
  let firstByte := first ^^^ (mask0 &&& 0x0f)
  let pnLen := (firstByte &&& 0x03).toNat + 1
  failIf (h.length < pnLen) "whispera: quic initial length field too small"
  let pnBytes ← (List.range pnLen).mapM (pnByte packet mask h.pnOffset)
  let pn := get pnBytes
  let adEnd := wrap (h.pnOffset + pnLen)
  let ad ← slice packet 0 adEnd
  let ad ← modify ad 0 fun _ => firstByte
  let ad ← copyInto ad h.pnOffset adEnd pnBytes
  let ciphertext ← slice packet adEnd (wrap (h.pnOffset + h.length))
  crypto.quicOpen keys pn ciphertext ad

/-- A round of the loop of `extractCryptoFrameData`: what is left of the payload, and the data of the frames
    so far. -/
def cryptoFrameRound (s : Bytes × Bytes) : Exec (Bytes × Bytes ⊕ Option Bytes) := do
  let (payload, crypto) := s
  if payload.length > 0 then
    let typ ← index payload 0
    let payload ← slice payload 1 payload.length
    if typ = quicFrameTypePadding then ret (.inl (payload, crypto))
    else if typ = quicFrameTypeCrypto then
      match ← attempt (quicVarintParse payload) with
      | none => ret (.inr none)
      | some (_, n) =>
        let payload ← slice payload n payload.length
        match ← attempt (quicVarintParse payload) with
        | none => ret (.inr none)
        | some (dataLen, n) =>
          let payload ← slice payload n payload.length
          if payload.length < dataLen then ret (.inr none)
          else
            let data ← slice payload 0 dataLen
            let payload ← slice payload dataLen payload.length
            ret (.inl (payload, crypto ++ data))
    else ret (.inr none)
  else ret (.inr (if crypto.length < 4 then none else some crypto))

/-- `extractCryptoFrameData`. The second result of the source is `false` where this is `none`. -/
def extractCryptoFrameData (payload : Bytes) : Exec (Option Bytes) :=
  loop cryptoFrameRound (payload.length + 1) (payload, [])

structure ParsedQUICInitial where
  dcid : Bytes
  sni : String
  random : Bytes
  keyShare : Bytes
  deriving DecidableEq, Repr

def parseQUICInitialClientHello (crypto : QuicCrypto) (unmarshal : Bytes → Option ClientHelloMsg)
    (packet : Bytes) : Exec ParsedQUICInitial := do
  let h ← parseQUICInitialHeader packet
  let plaintext ← decryptQUICInitial crypto packet h
  match ← extractCryptoFrameData plaintext with
  | none => err "whispera: no crypto frame in quic initial"
  | some chBytes =>
    match unmarshal chBytes with
    | none => err "whispera: failed to parse client hello from quic initial"
    | some msg =>
      ret { dcid := h.dcid, sni := msg.serverName, random := msg.random, keyShare := extractX25519KeyShare msg.keyShares }

end Whispera
