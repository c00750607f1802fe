import Whispera.Lib.Bytes

/-! The two highest bits of the first byte are the logarithm of the number of bytes, which may be more than
needed. -/

namespace Varint
open BigEndian

def tail (k : Nat) : Nat := (1 <<< k) - 1

def limit (k : Nat) : Nat := 64 * 256 ^ tail k

def encode (k v : Nat) : Bytes := UInt8.ofNat (64 * k + v / 256 ^ tail k) :: put (tail k) v

theorem one_shiftLeft_le {k : Nat} (h : k < 4) : 1 ≤ 1 <<< k ∧ 1 <<< k ≤ 8 := by
  have : ∀ k < 4, 1 ≤ 1 <<< k ∧ 1 <<< k ≤ 8 := by decide
  exact this k h

theorem length_encode (k v : Nat) : (encode k v).length = 1 <<< k := by
  have hpos : 1 ≤ 1 <<< k := by
    rw [Nat.one_shiftLeft]
    exact Nat.one_le_two_pow
  simp only [encode, tail, List.length_cons, length_put]
  omega

theorem div_lt_of_lt_limit {k v : Nat} (h : v < limit k) : v / 256 ^ tail k < 64 :=
  Nat.div_lt_of_lt_mul (by rwa [mul_comm])

theorem log_encode {k q : Nat} (hk : k < 4) (hq : q < 64) : (UInt8.ofNat (64 * k + q) >>> 6).toNat = k := by
  have : ∀ k < 4, ∀ q < 64, (UInt8.ofNat (64 * k + q) >>> 6).toNat = k := by decide +kernel
  exact this k hk q hq

theorem mask_encode {k q : Nat} (hk : k < 4) (hq : q < 64) : UInt8.ofNat (64 * k + q) &&& 0x3f = UInt8.ofNat q := by
  have : ∀ k < 4, ∀ q < 64, UInt8.ofNat (64 * k + q) &&& 0x3f = UInt8.ofNat q := by decide +kernel
  exact this k hk q hq

theorem get_value {k v : Nat} (h : v < limit k) : get (UInt8.ofNat (v / 256 ^ tail k) :: put (tail k) v) = v := by
  have hlt : v / 256 ^ tail k < 256 := lt_of_lt_of_le (div_lt_of_lt_limit h) (by decide)
  rw [get_cons, get_put, length_put, UInt8.toNat_ofNat', Nat.mod_eq_of_lt hlt, Nat.div_add_mod']

theorem get_lt_limit {k : Nat} {first : UInt8} {rest : Bytes} (hlen : rest.length = tail k) :
    get ((first &&& 0x3f) :: rest) < limit k := by
  have hfirst : (first &&& 0x3f).toNat ≤ 63 := by
    rw [UInt8.toNat_and]
    exact Nat.and_le_right
  have hrest : get rest < 256 ^ tail k := hlen ▸ get_lt rest
  rw [get_cons, hlen]
  calc (first &&& 0x3f).toNat * 256 ^ tail k + get rest
      < (first &&& 0x3f).toNat * 256 ^ tail k + 256 ^ tail k := Nat.add_lt_add_left hrest _
    _ = ((first &&& 0x3f).toNat + 1) * 256 ^ tail k := (Nat.succ_mul _ _).symm
    _ ≤ 64 * 256 ^ tail k := Nat.mul_le_mul_right _ (by omega)

end Varint
