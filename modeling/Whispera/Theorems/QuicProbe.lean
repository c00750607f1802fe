import Whispera.Theorems.CryptoFrames

/-! The mask is taken of bytes that it does not change, and the server authenticates the header as it was
before the mask. -/

namespace Whispera
open List hiding modify
open Exec BigEndian

theorem or_eq_add {q : Nat} (h : q < 64) :
    UInt8.ofNat q ||| 0x40 = UInt8.ofNat (64 + q) ∧ UInt8.ofNat q ||| 0x80 = UInt8.ofNat (128 + q) ∧
      UInt8.ofNat q ||| 0xc0 = UInt8.ofNat (192 + q) := by
  have : ∀ q < 64, UInt8.ofNat q ||| 0x40 = UInt8.ofNat (64 + q) ∧ UInt8.ofNat q ||| 0x80 = UInt8.ofNat (128 + q) ∧
      UInt8.ofNat q ||| 0xc0 = UInt8.ofNat (192 + q) := by decide +kernel
  exact this q h

def quicVarintLog (v : Nat) : Nat := if v ≤ 63 then 0 else if v ≤ 16383 then 1 else if v ≤ 1073741823 then 2 else 3

theorem quicVarintLog_lt (v : Nat) : quicVarintLog v < 4 := by
  unfold quicVarintLog
  split
  · decide
  · split
    · decide
    · split <;> decide

theorem quicVarintLen_eq (v : Nat) : quicVarintLen v = 1 <<< quicVarintLog v := by
  unfold quicVarintLen quicVarintLog
  split
  · rfl
  · split
    · rfl
    · split <;> rfl

theorem quicVarintLen_mono {v w : Nat} (h : v ≤ w) : quicVarintLen v ≤ quicVarintLen w := by
  unfold quicVarintLen
  grind

theorem lt_limit_quicVarintLog {v : Nat} (h : v < 4611686018427387904) : v < Varint.limit (quicVarintLog v) := by
  have h0 : Varint.limit 0 = 64 := rfl
  have h1 : Varint.limit 1 = 16384 := rfl
  have h2 : Varint.limit 2 = 1073741824 := rfl
  have h3 : Varint.limit 3 = 4611686018427387904 := rfl
  unfold quicVarintLog
  grind

theorem quicVarintAppend_eq (b : Bytes) {v : Nat} (h : v < 4611686018427387904) :
    quicVarintAppend b v = b ++ Varint.encode (quicVarintLog v) v := by
  unfold quicVarintAppend quicVarintLog
  split
  · simp [Varint.encode, Varint.tail, put]
  · split
    · rw [(or_eq_add (q := v >>> 8) (by rw [Nat.shiftRight_eq_div_pow]; omega)).1]
      simp [Varint.encode, Varint.tail, put, Nat.shiftRight_eq_div_pow]
    · split
      · rw [(or_eq_add (q := v >>> 24) (by rw [Nat.shiftRight_eq_div_pow]; omega)).2.1]
        simp [Varint.encode, Varint.tail, put, Nat.shiftRight_eq_div_pow]
      · rw [(or_eq_add (q := v >>> 56) (by rw [Nat.shiftRight_eq_div_pow]; omega)).2.2]
        simp [Varint.encode, Varint.tail, put, Nat.shiftRight_eq_div_pow]

theorem quicVarint_round_trip (b rest : Bytes) {v : Nat} (h : v < 4611686018427387904) :
    ∃ enc, quicVarintAppend b v = b ++ enc ∧ quicVarintParse (enc ++ rest) = ret (v, enc.length) ∧
      quicVarintLen v = enc.length := by
  refine ⟨Varint.encode (quicVarintLog v) v, quicVarintAppend_eq b h, ?_, ?_⟩
  · rw [quicVarintParse_encode (quicVarintLog_lt v) (lt_limit_quicVarintLog h), Varint.length_encode]
  · rw [quicVarintLen_eq, Varint.length_encode]

theorem quicVarint_round_trip_four_bytes :
    ∃ enc, quicVarintAppend [7] 16384 = [7] ++ enc ∧ quicVarintParse (enc ++ [9]) = ret (16384, enc.length) ∧
      quicVarintLen 16384 = enc.length :=
  quicVarint_round_trip [7] [9] (by decide)

def initialPrefix (first : UInt8) (dcid scid : Bytes) (tokenLog : Nat) (token : Bytes) : Bytes :=
  [first, 0, 0, 0, 1, UInt8.ofNat dcid.length] ++ (dcid ++ (UInt8.ofNat scid.length :: (scid ++
    (Varint.encode tokenLog token.length ++ token))))

theorem length_initialPrefix (first : UInt8) (dcid scid token : Bytes) (tokenLog : Nat) :
    (initialPrefix first dcid scid tokenLog token).length =
      7 + dcid.length + scid.length + 1 <<< tokenLog + token.length := by
  simp only [initialPrefix, length_append, length_cons, length_nil, Varint.length_encode]
  omega

theorem toNat_ofNat_length {l : Bytes} (h : l.length < 256) : (UInt8.ofNat l.length).toNat = l.length := by
  rw [UInt8.toNat_ofNat', Nat.mod_eq_of_lt h]

theorem parseQUICInitialHeader_eq {first : UInt8} {dcid scid token rest : Bytes} {kt kl len : Nat}
    (hlong : ¬(first &&& 0x80 = 0 ∨ first &&& 0x40 = 0)) (hinitial : first >>> 4 &&& 0x3 = 0)
    (hdcid : dcid.length < 256) (hscid : scid.length < 256) (hkt : kt < 4) (htoken : token.length < Varint.limit kt)
    (hkl : kl < 4) (hlen : len < Varint.limit kl) (hrest : len ≤ rest.length)
    (hsize : (initialPrefix first dcid scid kt token ++ (Varint.encode kl len ++ rest)).length < 4611686018427387904) :
    parseQUICInitialHeader (initialPrefix first dcid scid kt token ++ (Varint.encode kl len ++ rest)) =
      ret {
        dcid
        pnOffset := ((initialPrefix first dcid scid kt token).length + 1 <<< kl : Nat)
        length := len } := by
  have hlens : (initialPrefix first dcid scid kt token ++ (Varint.encode kl len ++ rest)).length =
      7 + dcid.length + scid.length + 1 <<< kt + token.length + (1 <<< kl + rest.length) := by
    rw [length_append, length_initialPrefix, length_append, Varint.length_encode]
  have hprefix := length_initialPrefix first dcid scid token kt
  generalize hp : initialPrefix first dcid scid kt token ++ (Varint.encode kl len ++ rest) = packet at hsize hlens ⊢
  have hshape : packet = [first, 0, 0, 0, 1, UInt8.ofNat dcid.length] ++ (dcid ++ (UInt8.ofNat scid.length :: (scid ++
      (Varint.encode kt token.length ++ (token ++ (Varint.encode kl len ++ rest)))))) := by
    simp [← hp, initialPrefix]
  have hd := toNat_ofNat_length hdcid
  have hs := toNat_ofNat_length hscid
  have htokenLen := quicVarintParse_encode hkt htoken (token ++ (Varint.encode kl len ++ rest))
  have hlenField := quicVarintParse_encode hkl hlen rest
  generalize 1 <<< kt = wt at *
  generalize 1 <<< kl = wl at *
  -- What stands where the parser looks.
  have hfirst : index packet 0 = ret first := index_at (a := []) hshape rfl
  have hversion : slice packet 1 5 = ret [0, 0, 0, 1] := slice_at (a := [first]) (b := [0, 0, 0, 1]) hshape rfl rfl
  have hdcidLen : index packet 5 = ret (UInt8.ofNat dcid.length) := index_at (a := [first, 0, 0, 0, 1]) hshape rfl
  have hdcidAt : slice packet (5 + 1) (5 + 1 + dcid.length) = ret dcid := slice_at hshape rfl rfl
  have hscidLen : index packet (5 + 1 + dcid.length) = ret (UInt8.ofNat scid.length) :=
    index_at (a := [first, 0, 0, 0, 1, UInt8.ofNat dcid.length] ++ dcid) (by rw [hshape, append_assoc])
      (by simp; omega)
  have htokenAt : slice packet (5 + 1 + dcid.length + 1 + scid.length) packet.length =
      ret (Varint.encode kt token.length ++ (token ++ (Varint.encode kl len ++ rest))) :=
    slice_from (a := [first, 0, 0, 0, 1, UInt8.ofNat dcid.length] ++ dcid ++ (UInt8.ofNat scid.length :: scid))
      (by simp [hshape]) (by simp; omega)
  have hlengthAt : slice packet (5 + 1 + dcid.length + 1 + scid.length + wt + token.length) packet.length =
      ret (Varint.encode kl len ++ rest) := slice_from hp.symm (by omega)
  unfold parseQUICInitialHeader
  rw [failIf_of_not _ (by omega), ret_bind, hfirst, ret_bind, failIf_of_not _ hlong, ret_bind, hversion, ret_bind,
    failIf_of_not _ (by decide), ret_bind, failIf_of_not _ (by simp [hinitial]), ret_bind]
  dsimp only
  rw [failIf_of_not _ (by omega), ret_bind, hdcidLen, ret_bind, hd, wrap_of_lt (x := 5 + 1) (by omega) (by omega),
    wrap_of_lt (x := 5 + 1 + (dcid.length : Int)) (by omega) (by omega),
    wrap_of_lt (x := 5 + 1 + (dcid.length : Int) + 1) (by omega) (by omega), failIf_of_not _ (by omega), ret_bind,
    hdcidAt, ret_bind, hscidLen, ret_bind, hs,
    wrap_of_lt (x := 5 + 1 + (dcid.length : Int) + 1 + scid.length) (by omega) (by omega), failIf_of_not _ (by omega),
    ret_bind, htokenAt, ret_bind, htokenLen, ret_bind]
  rw [wrap_of_lt (x := 5 + 1 + (dcid.length : Int) + 1 + scid.length + wt) (by omega) (by omega),
    wrap_of_lt (x := 5 + 1 + (dcid.length : Int) + 1 + scid.length + wt + token.length) (by omega) (by omega),
    failIf_of_not _ (by omega), ret_bind, hlengthAt, ret_bind, hlenField, ret_bind]
  rw [wrap_of_lt (x := 5 + 1 + (dcid.length : Int) + 1 + scid.length + wt + token.length + wl) (by omega) (by omega),
    wrap_of_lt (x := 5 + 1 + (dcid.length : Int) + 1 + scid.length + wt + token.length + wl + len) (by omega)
      (by omega),
    failIf_of_not _ (by omega), ret_bind]
  congr 2
  omega

theorem slice_sample {packet header sealed : Bytes} {pn : UInt8} (hp : packet = header ++ pn :: sealed)
    (hsealed : 19 ≤ sealed.length) :
    slice packet (header.length + 4) (header.length + 4 + 16) = ret ((sealed.drop 3).take 16) := by
  have hsplit : sealed = sealed.take 3 ++ ((sealed.drop 3).take 16 ++ sealed.drop 19) := by
    rw [← drop_drop (i := 16) (j := 3), take_append_drop, take_append_drop]
  have hpre : (header ++ pn :: sealed.take 3).length = header.length + 4 := by
    simp only [length_append, length_cons, length_take]
    omega
  have hsample : ((sealed.drop 3).take 16).length = 16 := by
    rw [length_take, length_drop]
    omega
  refine slice_at (a := header ++ pn :: sealed.take 3) (c := sealed.drop 19) ?_ (by omega) (by omega)
  rw [hp, append_assoc, cons_append, ← hsplit]

theorem quicHeaderProtectionMask_eq (crypto : QuicCrypto) (hp : Block 16) {sealed : Bytes}
    (hsealed : 19 ≤ sealed.length) :
    crypto.quicHeaderProtectionMask hp ((sealed.drop 3).take 16) =
    ret (crypto.encrypt hp ((sealed.drop 3).take 16)).val := by
  have hsample : ((sealed.drop 3).take 16).length = 16 := by
    rw [length_take, length_drop]
    omega
  rw [QuicCrypto.quicHeaderProtectionMask, failIf_of_not _ (not_not.mpr hsample), ret_bind]

theorem decryptQUICInitial_eq (crypto : QuicCrypto) {first masked m0 m1 : UInt8} {off : Nat}
    {dcid header sealed mask plaintext : Bytes} (hoff : off = header.length + 1)
    (hmasked : masked ^^^ (m0 &&& 0x0f) = first) (hfirst : first &&& 0x03 = 0) (hsealed : 19 ≤ sealed.length)
    (hsize : off + (1 + sealed.length) < 4611686018427387904)
    (hmask : (crypto.encrypt (crypto.clientKeys dcid).hp ((sealed.drop 3).take 16)).val = m0 :: m1 :: mask)
    (hopen : crypto.quicOpen (crypto.clientKeys dcid) 0 sealed (first :: header ++ [0]) = ret plaintext) :
    decryptQUICInitial crypto (masked :: header ++ m1 :: sealed)
      { dcid, pnOffset := off, length := (1 + sealed.length : Nat) } = ret plaintext := by
  generalize hp : masked :: header ++ m1 :: sealed = packet
  have hlen : packet.length = off + (1 + sealed.length) := by
    simp only [← hp, length_append, length_cons]
    omega
  -- What stands where the server looks.
  have hsample : slice packet (off + 4) (off + 4 + 16) = ret ((sealed.drop 3).take 16) := by
    rw [hoff, ← length_cons (a := masked)]
    exact slice_sample hp.symm hsealed
  have hindex : index packet 0 = ret masked := index_at (a := []) hp.symm rfl
  have hpn : pnByte packet (m0 :: m1 :: mask) off 0 = ret 0 := by
    have hb : index packet off = ret m1 := index_at hp.symm (by rw [length_cons]; omega)
    rw [pnByte, wrap_of_lt (by omega) (by omega), Int.natCast_zero, Int.add_zero, hb, ret_bind]
    exact congrArg ret (UInt8.xor_self (a := m1))
  have had : slice packet 0 (off + 1) = ret (masked :: header ++ [m1]) := by
    refine slice_at (a := []) (c := sealed) ?_ rfl ?_
    · rw [← hp, nil_append, append_assoc, singleton_append]
    · simp only [length_append, length_cons, length_nil]
      omega
  have hmodify : modify (masked :: header ++ [m1]) 0 (fun _ => first) = ret (first :: header ++ [m1]) :=
    modify_at (a := []) _ rfl rfl
  have hcopy : copyInto (first :: header ++ [m1]) off (off + 1) [0] = ret (first :: header ++ [0]) := by
    refine copyInto_at (a := first :: header) (b := [m1]) (c := []) rfl ?_ ?_ rfl
    · rw [hoff, length_cons]
    · rw [hoff, length_cons, length_singleton, Int.natCast_one]
  have hciphertext : slice packet (off + 1) (off + (1 + sealed.length : Nat)) = ret sealed := by
    have hpre : (masked :: header ++ [m1]).length = off + 1 := by simp [hoff]
    refine slice_at (a := masked :: header ++ [m1]) (c := []) ?_ (by omega) (by omega)
    rw [← hp, append_nil, append_assoc, singleton_append]
  unfold decryptQUICInitial
  dsimp only
  rw [wrap_of_lt (x := (off : Int) + 4) (by omega) (by omega),
    wrap_of_lt (x := (off : Int) + 4 + 16) (by omega) (by omega),
    wrap_of_lt (x := (off : Int) + (1 + sealed.length : Nat)) (by omega) (by omega),
    failIf_of_not _ (by omega), ret_bind, hsample, ret_bind, quicHeaderProtectionMask_eq crypto _ hsealed,
    hmask, ret_bind, hindex, ret_bind,
    show index (m0 :: m1 :: mask) 0 = ret m0 from rfl, ret_bind, hmasked, hfirst, UInt8.toNat_zero, zero_add,
    failIf_of_not _ (by omega), ret_bind, range_one, mapM_cons, hpn, ret_bind, mapM_nil, pure_eq, ret_bind,
    pure_eq, ret_bind, Int.natCast_one, wrap_of_lt (x := (off : Int) + 1) (by omega) (by omega), had, ret_bind, hmodify,
    ret_bind, hcopy, ret_bind, hciphertext, ret_bind]
  exact hopen

theorem probeHeader_eq (dcid scid : Block 8) : probeHeader dcid scid = initialPrefix 0xc0 dcid.val scid.val 0 [] := by
  simp [probeHeader, initialPrefix, Varint.encode, Varint.tail, put]

theorem length_probeHeader (dcid scid : Block 8) : (probeHeader dcid scid).length = 24 := by
  rw [probeHeader_eq, length_initialPrefix, dcid.length_val, scid.length_val]
  rfl

section
variable {hello : Bytes}

theorem quicCryptoFrame_eq (h : hello.length ≤ 65535) :
    quicCryptoFrame hello = cryptoFrameAt 0 0 (quicVarintLog hello.length) hello := by
  rw [quicCryptoFrame, quicVarintAppend_eq _ (by omega), quicVarintAppend_eq _ (by omega)]
  simp [cryptoFrameAt, quicVarintLog]

theorem length_quicCryptoFrame (h : hello.length ≤ 65535) :
    (quicCryptoFrame hello).length = 2 + quicVarintLen hello.length + hello.length := by
  rw [quicCryptoFrame_eq h, cryptoFrameAt, quicVarintLen_eq]
  simp only [length_cons, length_append, Varint.length_encode]
  omega

theorem quicVarintLen_le (v : Nat) : 1 ≤ quicVarintLen v ∧ quicVarintLen v ≤ 8 := by
  rw [quicVarintLen_eq]
  exact Varint.one_shiftLeft_le (quicVarintLog_lt v)

theorem length_probePayload {header : Bytes} (hheader : header.length = 24) (h4 : 4 ≤ hello.length)
    (hmax : hello.length ≤ 65535) :
    7 ≤ (probePayload header hello).length ∧ (probePayload header hello).length ≤ 66745 ∧
      quicMinInitialPacket ≤ 24 + quicVarintLen (1 + (probePayload header hello).length + 16) + 1 +
        (probePayload header hello).length + 16 := by
  have hframe := length_quicCryptoFrame hmax
  obtain ⟨h1, h8⟩ := quicVarintLen_le hello.length
  have hlen : (probePayload header hello).length = (quicCryptoFrame hello).length +
      (max quicMinInitialPacket (24 + quicVarintLen (1 + (quicCryptoFrame hello).length + 16) + 1 +
        (quicCryptoFrame hello).length + 16) - (24 + quicVarintLen (1 + (quicCryptoFrame hello).length + 16) + 1 +
        (quicCryptoFrame hello).length + 16)) := by
    rw [probePayload, length_append, length_replicate, hheader]
  have hmono : quicVarintLen (1 + (quicCryptoFrame hello).length + 16) ≤
      quicVarintLen (1 + (probePayload header hello).length + 16) := quicVarintLen_mono (by omega)
  simp only [quicMinInitialPacket] at hlen ⊢
  omega

theorem zero_lt_logs : 0 < 4 := by decide

theorem zero_lt_limit_zero : 0 < Varint.limit 0 := by decide

def probeLayout (hmax : hello.length ≤ 65535) (tail : Nat) : CryptoLayout where
  pieces := [(0, {
    offset := 0
    length := hello.length
    offsetLog := 0
    lengthLog := quicVarintLog hello.length
    offsetLog_lt := zero_lt_logs
    lengthLog_lt := quicVarintLog_lt _
    offset_lt := zero_lt_limit_zero
    length_lt := lt_limit_quicVarintLog (by omega) })]
  tail

theorem extract_probePayload (header : Bytes) (h4 : 4 ≤ hello.length) (hmax : hello.length ≤ 65535) :
    extractCryptoFrameData (probePayload header hello) = ret (some hello) := by
  obtain ⟨tail, hpayload⟩ : ∃ tail, probePayload header hello = quicCryptoFrame hello ++ replicate tail 0 := ⟨_, rfl⟩
  have hlayout : probePayload header hello = (probeLayout hmax tail).plaintext hello := by
    rw [hpayload, quicCryptoFrame_eq hmax]
    simp [CryptoLayout.plaintext, probeLayout, CryptoPiece.frame, CryptoPiece.data, quicFrameTypePadding]
  have hfits : CryptoLayout.Fits (probeLayout hmax tail).pieces hello.length := by
    intro e he
    rw [mem_singleton.mp he]
    exact .inl (zero_add _).le
  have hpositions : (probeLayout hmax tail).positions = range hello.length := by
    rw [range_eq_range']
    exact append_nil _
  rw [hlayout, CryptoLayout.extract_plaintext _ hfits, hpositions, CryptoLayout.map_getD_range]
  rw [if_neg (by omega)]

end

theorem masked_first (m : UInt8) : ¬((0xc0 ^^^ (m &&& 0x0f)) &&& 0x80 = 0 ∨ (0xc0 ^^^ (m &&& 0x0f)) &&& 0x40 = 0) ∧
      (0xc0 ^^^ (m &&& 0x0f)) >>> 4 &&& 0x3 = 0 := by
  have : ∀ n < 256, ¬((0xc0 ^^^ (UInt8.ofNat n &&& 0x0f)) &&& 0x80 = 0 ∨
    (0xc0 ^^^ (UInt8.ofNat n &&& 0x0f)) &&& 0x40 = 0) ∧
      (0xc0 ^^^ (UInt8.ofNat n &&& 0x0f)) >>> 4 &&& 0x3 = 0 := by decide +kernel
  rw [← UInt8.ofNat_toNat (x := m)]
  exact this m.toNat m.toNat_lt

/-- Sealed texts open again under the same key, nonce and associated data, and are longer by the tag. -/
structure QuicCrypto.Sound (crypto : QuicCrypto) : Prop where
  gcmOpen_gcmSeal : ∀ key nonce plaintext ad,
    crypto.gcmOpen key nonce (crypto.gcmSeal key nonce plaintext ad) ad = some plaintext
  length_gcmSeal : ∀ key nonce plaintext ad, (crypto.gcmSeal key nonce plaintext ad).length = plaintext.length + 16

theorem exists_mask (b : Block 16) : ∃ m0 m1 mask, b.val = m0 :: m1 :: mask := by
  obtain ⟨val, hval⟩ := b
  match val, hval with
  | m0 :: m1 :: mask, _ => exact ⟨m0, m1, mask, rfl⟩

section
variable {crypto : QuicCrypto} {dcid scid : Block 8} {hello sealed mask : Bytes} {m0 m1 : UInt8}

def probeHeaderRest (dcid scid : Block 8) (len : Nat) : Bytes :=
  (initialPrefix 0xc0 dcid.val scid.val 0 []).tail ++ Varint.encode (quicVarintLog len) len

theorem buildCamoProbe_eq {len : Nat} (hlen : len = 1 + (probePayload (probeHeader dcid scid) hello).length + 16)
    (hlt : len < 4611686018427387904) (hsealed : sealed = crypto.quicSeal (crypto.clientKeys dcid.val) 0
      (probePayload (probeHeader dcid scid) hello) (0xc0 :: probeHeaderRest dcid scid len ++ [0]))
    (hlong : 19 ≤ sealed.length)
    (hmask : (crypto.encrypt (crypto.clientKeys dcid.val).hp ((sealed.drop 3).take 16)).val = m0 :: m1 :: mask) :
    buildCamoProbe crypto (some dcid) (some scid) (ret hello) =
      ret ((0xc0 ^^^ (m0 &&& 0x0f)) :: probeHeaderRest dcid scid len ++ m1 :: sealed) := by
  have hheader : quicVarintAppend (probeHeader dcid scid) len = 0xc0 :: probeHeaderRest dcid scid len := by
    rw [quicVarintAppend_eq _ hlt, probeHeader_eq]
    rfl
  generalize probeHeaderRest dcid scid len = header at *
  have hpacket : 0xc0 :: header ++ [0] ++ sealed = 0xc0 :: header ++ 0 :: sealed := by
    rw [append_assoc, singleton_append]
  rw [buildCamoProbe, ret_bind]
  dsimp only
  rw [← hlen, hheader, ← hsealed, hpacket]
  have hfits : ¬(0xc0 :: header).length + 4 + 16 > (0xc0 :: header ++ 0 :: sealed).length := by
    simp only [length_append, length_cons]
    omega
  have hfirst : modify (0xc0 :: header ++ 0 :: sealed) 0 (· ^^^ (m0 &&& 0x0f)) =
      ret ((0xc0 ^^^ (m0 &&& 0x0f)) :: header ++ 0 :: sealed) := modify_at (a := []) _ rfl rfl
  have hsample : slice (0xc0 :: header ++ 0 :: sealed) ((0xc0 :: header).length + 4 : Nat)
      (((0xc0 :: header).length + 4 : Nat) + 16) = ret ((sealed.drop 3).take 16) := slice_sample rfl hlong
  rw [failIf_of_not _ hfits, ret_bind, hsample, ret_bind,
    quicHeaderProtectionMask_eq crypto _ hlong, hmask, ret_bind,
    show index (m0 :: m1 :: mask) 0 = ret m0 from rfl, ret_bind,
    hfirst, ret_bind, show index (m0 :: m1 :: mask) 1 = ret m1 from rfl, ret_bind]
  exact (modify_at _ rfl rfl).trans (by rw [UInt8.zero_xor])

theorem quicOpen_quicSeal (hsound : crypto.Sound) (keys : QuicKeys) (pn : Nat) (plaintext ad : Bytes) :
    crypto.quicOpen keys pn (crypto.quicSeal keys pn plaintext ad) ad = ret plaintext := by
  rw [QuicCrypto.quicOpen, QuicCrypto.quicSeal, hsound.gcmOpen_gcmSeal]

end

/-- The packet has at least 1200 bytes, and the server reads the destination id and the hello back. -/
theorem parse_buildCamoProbe {crypto : QuicCrypto} (hsound : crypto.Sound) (unmarshal : Bytes → Option ClientHelloMsg)
    (dcid scid : Block 8) {hello : Bytes} (h4 : 4 ≤ hello.length) (hmax : hello.length ≤ 65535) :
    ∃ packet h plaintext,
      buildCamoProbe crypto (some dcid) (some scid) (ret hello) = ret packet ∧ quicMinInitialPacket ≤ packet.length ∧
      parseQUICInitialHeader packet = ret h ∧ h.dcid = dcid.val ∧ decryptQUICInitial crypto packet h = ret plaintext ∧
      extractCryptoFrameData plaintext = ret (some hello) ∧
      ∀ msg, unmarshal hello = some msg → parseQUICInitialClientHello crypto unmarshal packet =
        ret {
          dcid := dcid.val
          sni := msg.serverName
          random := msg.random
          keyShare := extractX25519KeyShare msg.keyShares } := by
  obtain ⟨h7, hbound, hmin⟩ := length_probePayload (length_probeHeader dcid scid) h4 hmax
  generalize hpay : probePayload (probeHeader dcid scid) hello = payload at h7 hbound hmin
  obtain ⟨len, hlen⟩ : ∃ len, len = 1 + payload.length + 16 := ⟨_, rfl⟩
  obtain ⟨sealed, hsealed⟩ : ∃ sealed, sealed = crypto.quicSeal (crypto.clientKeys dcid.val) 0 payload
      (0xc0 :: probeHeaderRest dcid scid len ++ [0]) := ⟨_, rfl⟩
  have hsealedLen : sealed.length = payload.length + 16 := by
    rw [hsealed]
    exact hsound.length_gcmSeal _ _ _ _
  obtain ⟨m0, m1, mask, hmask⟩ := exists_mask (crypto.encrypt (crypto.clientKeys dcid.val).hp ((sealed.drop 3).take 16))
  have hbuild := buildCamoProbe_eq (hpay ▸ hlen) (by omega) (hpay ▸ hsealed) (by omega) hmask
  -- The packet as the parser of the header sees it, and as the decryption does.
  have hshape : (0xc0 ^^^ (m0 &&& 0x0f)) :: probeHeaderRest dcid scid len ++ m1 :: sealed =
      initialPrefix (0xc0 ^^^ (m0 &&& 0x0f)) dcid.val scid.val 0 [] ++
        (Varint.encode (quicVarintLog len) len ++ m1 :: sealed) := by
    rw [← append_assoc]
    rfl
  have hprefix : (initialPrefix (0xc0 ^^^ (m0 &&& 0x0f)) dcid.val scid.val 0 []).length = 24 := by
    rw [length_initialPrefix, dcid.length_val, scid.length_val]
    rfl
  have hvar := quicVarintLen_eq len
  obtain ⟨hone, height⟩ := quicVarintLen_le len
  have hlength : ((0xc0 ^^^ (m0 &&& 0x0f)) :: probeHeaderRest dcid scid len ++ m1 :: sealed).length =
      24 + quicVarintLen len + 1 + (payload.length + 16) := by
    rw [hshape, length_append, hprefix, length_append, Varint.length_encode, length_cons]
    omega
  have hrest : (probeHeaderRest dcid scid len).length + 1 = 24 + quicVarintLen len := by
    simp only [length_append, length_cons] at hlength
    omega
  have hparse := parseQUICInitialHeader_eq (masked_first m0).1 (masked_first m0).2
    (by rw [dcid.length_val]; decide) (by rw [scid.length_val]; decide) (by decide)
    (show ([] : Bytes).length < Varint.limit 0 by decide) (quicVarintLog_lt len)
    (lt_limit_quicVarintLog (by omega)) (show len ≤ (m1 :: sealed).length by rw [length_cons]; omega)
    (by rw [← hshape]; omega)
  have hfield : (len : Int) = (1 + sealed.length : Nat) := by omega
  rw [← hshape, hprefix, ← hvar, hfield] at hparse
  have hunmask : (0xc0 ^^^ (m0 &&& 0x0f)) ^^^ (m0 &&& 0x0f) = (0xc0 : UInt8) := by
    rw [UInt8.xor_assoc, UInt8.xor_self, UInt8.xor_zero]
  have hdecrypt := decryptQUICInitial_eq crypto hrest.symm hunmask (by decide) (by omega) (by omega) hmask
    (hsealed ▸ quicOpen_quicSeal hsound _ 0 payload _)
  have hextract : extractCryptoFrameData payload = ret (some hello) := hpay ▸ extract_probePayload _ h4 hmax
  refine ⟨_, _, payload, hbuild, ?_, hparse, rfl, hdecrypt, hextract, fun msg hmsg => ?_⟩
  · rw [hlength, hlen]
    omega
  · rw [parseQUICInitialClientHello, hparse, ret_bind, hdecrypt, ret_bind, hextract, ret_bind]
    dsimp only
    rw [hmsg]

theorem clearCrypto_sound : clearCrypto.Sound where
  gcmOpen_gcmSeal key nonce plaintext ad := by simp [clearCrypto]
  length_gcmSeal key nonce plaintext ad := by simp [clearCrypto]

/-- A hello of four bytes comes through. -/
theorem parse_buildCamoProbe_short : ∃ packet h plaintext,
      buildCamoProbe clearCrypto (some (.copy 8 [7])) (some (.copy 8 [9])) (ret [1, 0, 0, 0]) = ret packet ∧
      quicMinInitialPacket ≤ packet.length ∧ parseQUICInitialHeader packet = ret h ∧
      h.dcid = [7, 0, 0, 0, 0, 0, 0, 0] ∧ decryptQUICInitial clearCrypto packet h = ret plaintext ∧
      extractCryptoFrameData plaintext = ret (some [1, 0, 0, 0]) := by
  obtain ⟨packet, h, plaintext, hbuild, hlen, hparse, hdcid, hdecrypt, hextract, -⟩ :=
    parse_buildCamoProbe clearCrypto_sound (fun _ => none) (.copy 8 [7]) (.copy 8 [9])
      (show 4 ≤ [1, 0, 0, 0].length by decide)
      (by decide)
  exact ⟨packet, h, plaintext, hbuild, hlen, hparse, hdcid, hdecrypt, hextract⟩

end Whispera
