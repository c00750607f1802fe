import Whispera.Lib.Varint
import Whispera.QuicInitial

/-! The positions are sums of lengths that the packet names, so it has to be shorter than `2 ^ 62` bytes, as
every byte slice is. -/

namespace Whispera
open Exec BigEndian

theorem shift_le_eight (first : UInt8) : 1 ≤ 1 <<< (first >>> 6).toNat ∧ 1 <<< (first >>> 6).toNat ≤ 8 := by
  have hlog : (first >>> 6).toNat < 4 := by
    rw [UInt8.toNat_shiftRight, show (6 : UInt8).toNat % 8 = 6 by decide, Nat.shiftRight_eq_div_pow]
    have := first.toNat_lt
    omega
  exact Varint.one_shiftLeft_le hlog

theorem safe_quicVarintParse (b : Bytes) :
    Safe (quicVarintParse b) fun r => r.1 < 4611686018427387904 ∧ 1 ≤ r.2 ∧ r.2 ≤ b.length := by
  refine (safe_failIf _ _).bind fun _ hne => ?_
  refine safe_index_bind fun first _ => ?_
  obtain ⟨hone, height⟩ := shift_le_eight first
  refine (safe_failIf _ _).bind fun _ hle => ?_
  refine safe_slice_bind fun rest hrest => ?_
  have htail : rest.length = Varint.tail (first >>> 6).toNat := by
    rw [Varint.tail]
    omega
  refine ⟨?_, hone, by omega⟩
  calc get ((first &&& 0x3f) :: rest)
      < Varint.limit (first >>> 6).toNat := Varint.get_lt_limit htail
    _ ≤ 64 * 256 ^ 7 := Nat.mul_le_mul_left _ (Nat.pow_le_pow_right (by omega) (by rw [Varint.tail]; omega))

/-- What the header announces is inside the packet. -/
structure QuicInitialHeader.Within (h : QuicInitialHeader) (packet : Bytes) : Prop where
  pnOffset_nonneg : 0 ≤ h.pnOffset
  length_nonneg : 0 ≤ h.length
  ends : h.pnOffset + h.length ≤ packet.length

variable {packet : Bytes} (crypto : QuicCrypto)

theorem safe_parseQUICInitialHeader (hlen : packet.length < 4611686018427387904) :
    Safe (parseQUICInitialHeader packet) (·.Within packet) := by
  unfold parseQUICInitialHeader
  dsimp only
  refine (safe_failIf _ _).bind fun _ hseven => ?_
  refine safe_index_bind fun first _ => ?_
  refine (safe_failIf _ _).bind fun _ _ => ?_
  refine safe_slice_bind fun version _ => ?_
  refine (safe_failIf _ _).bind fun _ _ => ?_
  refine (safe_failIf _ _).bind fun _ _ => ?_
  refine (safe_failIf _ _).bind fun _ _ => ?_
  refine safe_index_bind fun dcidLen _ => ?_
  have hdcid := dcidLen.toNat_lt
  rw [wrap_of_lt (x := 5 + 1) (by omega) (by omega),
    wrap_of_lt (x := 5 + 1 + (dcidLen.toNat : Int)) (by omega) (by omega)]
  generalize hp : 5 + 1 + (dcidLen.toNat : Int) = p
  rw [wrap_of_lt (x := p + 1) (by omega) (by omega)]
  refine (safe_failIf _ _).bind fun _ hd => ?_
  refine safe_slice_bind fun dcid _ => ?_
  refine safe_index_bind fun scidLen _ => ?_
  have hscid := scidLen.toNat_lt
  rw [wrap_of_lt (x := p + 1 + (scidLen.toNat : Int)) (by omega) (by omega)]
  generalize hq : p + 1 + (scidLen.toNat : Int) = q
  refine (safe_failIf _ _).bind fun _ hs => ?_
  refine safe_slice_bind fun token htoken => ?_
  refine (safe_quicVarintParse token).bind fun (tokenLen, n) ⟨hmax, hn, hle⟩ => ?_
  rw [wrap_of_lt (x := q + (n : Int)) (by omega) (by omega),
    wrap_of_lt (x := q + (n : Int) + tokenLen) (by omega) (by omega)]
  generalize hr : q + (n : Int) + tokenLen = r
  refine (safe_failIf _ _).bind fun _ ht => ?_
  refine safe_slice_bind fun rest hrest => ?_
  refine (safe_quicVarintParse rest).bind fun (lenField, n) ⟨hmax, hn, hle⟩ => ?_
  rw [wrap_of_lt (x := r + (n : Int)) (by omega) (by omega),
    wrap_of_lt (x := r + (n : Int) + lenField) (by omega) (by omega)]
  refine (safe_failIf _ _).bind fun _ hl => ?_
  exact { pnOffset_nonneg := by dsimp only; omega, length_nonneg := by dsimp only; omega, ends := by dsimp only; omega }

theorem safe_pnByte {packet mask : Bytes} {pnOffset : Int} {i : Nat} (hlen : packet.length < 4611686018427387904)
    (hoff : 0 ≤ pnOffset) (hi : pnOffset + i < packet.length) (hmask : 1 + i < mask.length) :
    Safe (pnByte packet mask pnOffset i) fun _ => True := by
  unfold pnByte
  rw [wrap_of_lt (by omega) (by omega)]
  refine (safe_index (by omega) hi).bind fun b _ => ?_
  refine safe_index_bind fun m _ => ?_
  trivial

theorem safe_quicHeaderProtectionMask (hp : Block 16) (sample : Bytes) :
    Safe (crypto.quicHeaderProtectionMask hp sample) fun mask => mask.length = 16 := by
  refine (safe_failIf _ _).bind fun _ _ => ?_
  exact (crypto.encrypt hp sample).length_val

theorem safe_quicOpen (keys : QuicKeys) (pn : Nat) (ciphertext ad : Bytes) :
    Safe (crypto.quicOpen keys pn ciphertext ad) fun _ => True := by
  unfold QuicCrypto.quicOpen
  split <;> trivial

theorem safe_decryptQUICInitial {h : QuicInitialHeader}
    (hlen : packet.length < 4611686018427387904) (hwithin : h.Within packet) :
    Safe (decryptQUICInitial crypto packet h) fun _ => True := by
  obtain ⟨hoff, hnonneg, hends⟩ := hwithin
  unfold decryptQUICInitial
  dsimp only
  rw [wrap_of_lt (x := h.pnOffset + 4) (by omega) (by omega),
    wrap_of_lt (x := h.pnOffset + 4 + 16) (by omega) (by omega),
    wrap_of_lt (x := h.pnOffset + h.length) (by omega) (by omega)]
  refine (safe_failIf _ _).bind fun _ hsample => ?_
  refine safe_slice_bind fun sample _ => ?_
  refine (safe_quicHeaderProtectionMask crypto _ sample).bind fun mask hmask => ?_
  refine safe_index_bind fun first _ => ?_
  refine safe_index_bind fun mask0 _ => ?_
  generalize hfirst : first ^^^ mask0 &&& 0x0f = firstByte
  have hpn : (firstByte &&& 0x03).toNat ≤ 3 := by
    exact Nat.and_le_right
  refine (safe_failIf _ _).bind fun _ hmin => ?_
  have hbytes : ∀ i ∈ List.range ((firstByte &&& 0x03).toNat + 1),
      Safe (pnByte packet mask h.pnOffset i) fun _ => True := by
    intro i hi
    have hi := List.mem_range.mp hi
    exact safe_pnByte hlen hoff (by omega) (by omega)
  refine (safe_mapM hbytes).bind fun pnBytes _ => ?_
  rw [wrap_of_lt (x := h.pnOffset + (((firstByte &&& 0x03).toNat + 1 : Nat) : Int)) (by omega) (by omega)]
  refine safe_slice_bind fun ad had => ?_
  refine (safe_modify _ (by omega) (by omega)).bind fun ad1 had1 => ?_
  refine (safe_copyInto (by omega) (by omega) (by omega)).bind fun ad2 _ => ?_
  refine safe_slice_bind fun ciphertext _ => ?_
  exact safe_quicOpen crypto _ _ _ _

theorem safe_cryptoFrameRound (payload data : Bytes) :
    Safe (cryptoFrameRound (payload, data)) fun r => ∀ t, r = .inl t → t.1.length < payload.length := by
  unfold cryptoFrameRound
  dsimp only
  by_cases hpos : payload.length > 0
  · rw [if_pos hpos]
    refine safe_index_bind fun typ _ => ?_
    refine safe_slice_bind fun rest hrest => ?_
    by_cases hpad : typ = quicFrameTypePadding
    · rw [if_pos hpad]
      rintro t ⟨⟩
      show rest.length < _
      omega
    · rw [if_neg hpad]
      by_cases hcrypto : typ = quicFrameTypeCrypto
      · rw [if_pos hcrypto]
        refine (safe_attempt (safe_quicVarintParse rest)).bind fun offset hoffset => ?_
        cases offset with
        | none => nofun
        | some offset =>
          obtain ⟨-, -, hn⟩ := hoffset _ rfl
          refine safe_slice_bind fun rest1 hrest1 => ?_
          refine (safe_attempt (safe_quicVarintParse rest1)).bind fun dataLen hdataLen => ?_
          cases dataLen with
          | none => nofun
          | some dataLen =>
            obtain ⟨-, -, hn⟩ := hdataLen _ rfl
            refine safe_slice_bind fun rest2 hrest2 => ?_
            split
            · nofun
            · refine safe_slice_bind fun frame _ => ?_
              refine safe_slice_bind fun rest3 hrest3 => ?_
              rintro t ⟨⟩
              show rest3.length < _
              omega
      · rw [if_neg hcrypto]
        nofun
  · rw [if_neg hpos]
    nofun

theorem safe_extractCryptoFrameData (payload : Bytes) : Safe (extractCryptoFrameData payload) fun _ => True := by
  refine safe_loop (I := fun _ => True) (m := fun s => s.1.length) (fun s _ => ?_) _ (payload, []) trivial
    (Nat.lt_succ_self _)
  refine (safe_cryptoFrameRound s.1 s.2).mono fun r hr => ?_
  exact ⟨fun t ht => ⟨trivial, hr t ht⟩, fun _ _ => trivial⟩

theorem safe_parseQUICInitialClientHello (unmarshal : Bytes → Option ClientHelloMsg)
    (hlen : packet.length < 4611686018427387904) :
    Safe (parseQUICInitialClientHello crypto unmarshal packet) fun _ => True := by
  refine (safe_parseQUICInitialHeader hlen).bind fun h hwithin => ?_
  refine (safe_decryptQUICInitial crypto hlen hwithin).bind fun plaintext _ => ?_
  refine (safe_extractCryptoFrameData plaintext).bind fun r _ => ?_
  cases r with
  | none => trivial
  | some chBytes =>
    dsimp only
    split <;> trivial

/-- Neither the header nor the decryption nor the frames of any packet make the server panic, and it reads
    them all. -/
theorem parseInitial_safe (crypto : QuicCrypto) (unmarshal : Bytes → Option ClientHelloMsg) (packet plaintext : Bytes)
    (hlen : packet.length < 4611686018427387904) :
    Safe (parseQUICInitialHeader packet) (fun h => Safe (decryptQUICInitial crypto packet h) fun _ => True) ∧
      Safe (extractCryptoFrameData plaintext) (fun _ => True) ∧
      Safe (parseQUICInitialClientHello crypto unmarshal packet) fun _ => True := by
  refine ⟨(safe_parseQUICInitialHeader hlen).mono fun _ => safe_decryptQUICInitial crypto hlen, ?_, ?_⟩
  · exact safe_extractCryptoFrameData plaintext
  · exact safe_parseQUICInitialClientHello crypto unmarshal hlen

def clearCrypto : QuicCrypto where
  extract secret _ := secret
  expand secret _ n := .copy n secret
  encrypt key _ := key
  gcmSeal _ _ plaintext _ := plaintext ++ List.replicate 16 0
  gcmOpen _ _ ciphertext _ := some (ciphertext.take (ciphertext.length - 16))

def longTokenPacket : Bytes := [0xc0, 0, 0, 0, 1, 0, 0, 0xff, 0xff, 0xff, 0xff, 0xff, 0xff, 0xff, 0xff, 0]

theorem longTokenPacket_safe : parseQUICInitialHeader longTokenPacket = err "whispera: truncated quic token" ∧
      Safe (parseQUICInitialClientHello clearCrypto (fun _ => none) longTokenPacket) (fun _ => True) ∧
      Safe (extractCryptoFrameData [0x06, 0x00, 0xff, 0xff, 0xff, 0xff, 0xff, 0xff, 0xff, 0xff]) fun _ => True :=
  have h := parseInitial_safe clearCrypto (fun _ => none) longTokenPacket
    [0x06, 0x00, 0xff, 0xff, 0xff, 0xff, 0xff, 0xff, 0xff, 0xff] (by decide)
  ⟨by decide +kernel, h.2.2, h.2.1⟩

end Whispera
