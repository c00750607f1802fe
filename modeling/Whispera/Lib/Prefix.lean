import Whispera.Lib.BlockOrder
import Whispera.Lib.ParseIP

/-! An address has a prefix of so many bits iff, as a number, it is in the range of the numbers that begin
with them. -/

namespace Net
open List hiding get
open BigEndian

def IP.to16 (ip : IP) : Option IP :=
  if ip.length = 4 then some (v4InV6Prefix ++ ip) else if ip.length = 16 then some ip else none

/-- The ones at the start of a byte, and the byte without them. -/
def leadingOnes : Nat → UInt8 → Nat × UInt8
  | 0, v => (0, v)
  | k + 1, v =>
    if v &&& 0x80 ≠ 0 then
      let (n, w) := leadingOnes k (v <<< 1)
      (n + 1, w)
    else (0, v)

/-- `simpleMaskLength`: nothing, if a zero stands before a one. -/
def simpleMaskLength : Bytes → Option Nat
  | [] => some 0
  | v :: mask =>
    if v = 0xff then (simpleMaskLength mask).map (· + 8)
    else
      let (n, w) := leadingOnes 8 v
      if w ≠ 0 then none else if mask.all (· = 0) then some n else none

/-- `IPMask.Size`. -/
def maskSize (mask : Bytes) : Nat × Nat :=
  match simpleMaskLength mask with
  | none => (0, 0)
  | some ones => (ones, mask.length * 8)

theorem length_cidrMask : ∀ l n, (cidrMask l n).length = l
  | 0, _ => rfl
  | l + 1, n => congrArg (· + 1) (length_cidrMask l (n - 8))

theorem cidrMask_zero : ∀ l, (cidrMask l 0).all (· = 0) = true
  | 0 => rfl
  | l + 1 => by
    rw [cidrMask, all_cons, cidrMask_zero l]
    rfl

theorem simpleMaskLength_cidrMask : ∀ {l n}, n ≤ 8 * l → simpleMaskLength (cidrMask l n) = some n
  | 0, n, h => by
    rw [Nat.le_zero.mp h]
    rfl
  | l + 1, n, h => by
    rw [cidrMask]
    by_cases h8 : 8 ≤ n
    · rw [if_pos h8, simpleMaskLength, if_pos rfl, simpleMaskLength_cidrMask (by omega), Option.map_some,
        Nat.sub_add_cancel h8]
    · have hbyte : ∀ n < 8, ~~~((255 : UInt8) >>> UInt8.ofNat n) ≠ 0xff ∧
          leadingOnes 8 (~~~((255 : UInt8) >>> UInt8.ofNat n)) = (n, 0) := by decide
      obtain ⟨hne, hones⟩ := hbyte n (not_le.mp h8)
      rw [if_neg h8, simpleMaskLength, if_neg hne, hones]
      dsimp only
      rw [if_neg (not_not.mpr rfl), Nat.sub_eq_zero_of_le (not_le.mp h8).le, cidrMask_zero, if_pos rfl]

theorem maskSize_cidrMask {l n : Nat} (h : n ≤ 8 * l) : maskSize (cidrMask l n) = (n, l * 8) := by
  rw [maskSize, simpleMaskLength_cidrMask h, length_cidrMask]

theorem drop_cidrMask (l : Nat) : ∀ k n, (cidrMask (k + l) n).drop k = cidrMask l (n - 8 * k)
  | 0, n => by rw [zero_add, drop_zero, mul_zero, Nat.sub_zero]
  | k + 1, n => by
    rw [Nat.succ_add, cidrMask, drop_succ_cons, drop_cidrMask l k, Nat.sub_sub]
    congr 1
    omega

theorem testBit_get_cons (b : UInt8) (bs : Bytes) (k : Nat) :
    (get (b :: bs)).testBit k = if k < 8 * bs.length then (get bs).testBit k
    else b.toNat.testBit (k - 8 * bs.length) := by
  have hpow : 256 ^ bs.length = 2 ^ (8 * bs.length) := (Nat.pow_mul 2 8 bs.length).symm
  have hlt := get_lt bs
  rw [hpow] at hlt
  rw [get_cons, hpow, mul_comm, Nat.testBit_two_pow_mul_add _ hlt]

theorem testBit_get_mask : ∀ {xs : Bytes} {l : Nat} (n k : Nat), xs.length = l →
    (get (zipWith (· &&& ·) xs (cidrMask l n))).testBit k = ((get xs).testBit k && decide (8 * l ≤ k + n))
  | [], l, n, k, h => by
    subst h
    simp [BigEndian.get]
  | x :: xs, l + 1, n, k, h => by
    have hlen : xs.length = l := Nat.succ.inj h
    have hzip : (zipWith (· &&& ·) xs (cidrMask l (n - 8))).length = l := by
      rw [length_zipWith, hlen, length_cidrMask, Nat.min_self]
    rw [cidrMask, zipWith_cons_cons, testBit_get_cons, testBit_get_cons, hzip, hlen]
    split
    · rename_i hk
      rw [testBit_get_mask (n - 8) k hlen]
      congr 1
      rw [decide_eq_decide]
      omega
    · rename_i hk
      obtain ⟨j, rfl⟩ := Nat.exists_eq_add_of_le (not_lt.mp hk)
      have hbyte : ∀ n < 8, ∀ j < 8, (~~~((255 : UInt8) >>> UInt8.ofNat n)).toNat.testBit j =
          decide (8 ≤ j + n) := by decide
      have hfull : ∀ j < 8, (255 : UInt8).toNat.testBit j = true := by decide
      rw [Nat.add_sub_cancel_left, UInt8.toNat_and, Nat.testBit_and]
      by_cases hj : j < 8
      · congr 1
        by_cases h8 : 8 ≤ n
        · rw [if_pos h8, hfull j hj]
          exact (decide_eq_true (by omega)).symm
        · rw [if_neg h8, hbyte n (not_le.mp h8) j hj, decide_eq_decide]
          omega
      · have hzero : x.toNat.testBit j = false :=
          Nat.testBit_lt_two_pow (x.toNat_lt.trans_le (Nat.pow_le_pow_right (by decide) (not_lt.mp hj)))
        rw [hzero, Bool.false_and, Bool.false_and]

theorem get_mask {xs : Bytes} {l n : Nat} (hlen : xs.length = l) (hn : n ≤ 8 * l) :
    get (zipWith (· &&& ·) xs (cidrMask l n)) = 2 ^ (8 * l - n) * (get xs / 2 ^ (8 * l - n)) := by
  refine Nat.eq_of_testBit_eq fun k => ?_
  rw [testBit_get_mask n k hlen, mul_comm (2 ^ _), Nat.testBit_mul_two_pow, Nat.testBit_div_two_pow, Bool.and_comm]
  by_cases hk : 8 * l ≤ k + n
  · have hk' : 8 * l - n ≤ k := by omega
    rw [decide_eq_true hk, decide_eq_true hk', Nat.sub_add_cancel hk']
  · have hk' : ¬8 * l - n ≤ k := by omega
    rw [decide_eq_false hk, decide_eq_false hk', Bool.false_and, Bool.false_and]

theorem mask_eq_iff {xs ys : Bytes} {l n : Nat} (hx : xs.length = l) (hy : ys.length = l) (hn : n ≤ 8 * l) :
    zipWith (· &&& ·) xs (cidrMask l n) = zipWith (· &&& ·) ys (cidrMask l n) ↔
      get xs / 2 ^ (8 * l - n) = get ys / 2 ^ (8 * l - n) := by
  have hpos : 0 < 2 ^ (8 * l - n) := Nat.two_pow_pos _
  have hlen : (zipWith (· &&& ·) xs (cidrMask l n)).length = (zipWith (· &&& ·) ys (cidrMask l n)).length := by
    rw [length_zipWith, length_zipWith, hx, hy]
  constructor
  · intro h
    have hget := congrArg get h
    rw [get_mask hx hn, get_mask hy hn] at hget
    exact Nat.eq_of_mul_eq_mul_left hpos hget
  · intro h
    refine Block.get_inj hlen ?_
    rw [get_mask hx hn, get_mask hy hn, h]

end Net
