import Mathlib.Tactic.Ring

/-! Byte strings: unsigned integers in big-endian order, and blocks of a fixed size. -/

abbrev Bytes : Type := List UInt8

namespace BigEndian
open List

/-- The last `k` base-256 digits of `n`, most significant first. -/
def put : Nat → Nat → Bytes
  | 0, _ => []
  | k + 1, n => UInt8.ofNat (n / 256 ^ k) :: put k n

/-- The number that a byte string denotes. -/
def get (bs : Bytes) : Nat := bs.foldl (fun a b => a * 256 + b.toNat) 0

def putUint16 (n : Nat) : Bytes := put 2 n

def putUint64 (n : Nat) : Bytes := put 8 n

@[simp] theorem length_put (k n : Nat) : (put k n).length = k := by
  induction k with
  | zero => rfl
  | succ k ih => simp [put, ih]

@[simp] theorem length_putUint16 (n : Nat) : (putUint16 n).length = 2 := length_put 2 n

@[simp] theorem length_putUint64 (n : Nat) : (putUint64 n).length = 8 := length_put 8 n

theorem foldl_get (bs : Bytes) (a : Nat) :
    bs.foldl (fun a b => a * 256 + b.toNat) a = a * 256 ^ bs.length + get bs := by
  induction bs generalizing a with
  | nil => simp [get]
  | cons b bs ih =>
    have h0 := ih b.toNat
    have ha := ih (a * 256 + b.toNat)
    simp only [get, foldl_cons, length_cons, zero_mul, zero_add] at h0 ha ⊢
    rw [ha, h0]
    ring

theorem get_cons (b : UInt8) (bs : Bytes) : get (b :: bs) = b.toNat * 256 ^ bs.length + get bs := by
  show foldl _ _ bs = _
  rw [foldl_get]
  simp

theorem get_put (k n : Nat) : get (put k n) = n % 256 ^ k := by
  induction k with
  | zero => simp [put, get, Nat.mod_one]
  | succ k ih =>
    have hb : (UInt8.ofNat (n / 256 ^ k)).toNat = n / 256 ^ k % 256 := by simp
    rw [put, get_cons, ih, length_put, hb, pow_succ, Nat.mod_mul]
    ring

theorem get_lt (bs : Bytes) : get bs < 256 ^ bs.length := by
  induction bs with
  | nil => simp [get]
  | cons b bs ih =>
    rw [get_cons, length_cons]
    calc b.toNat * 256 ^ bs.length + get bs
        < b.toNat * 256 ^ bs.length + 256 ^ bs.length := Nat.add_lt_add_left ih _
      _ = (b.toNat + 1) * 256 ^ bs.length := (Nat.succ_mul _ _).symm
      _ ≤ 256 * 256 ^ bs.length := Nat.mul_le_mul_right _ b.toNat_lt
      _ = 256 ^ (bs.length + 1) := (Nat.pow_succ').symm

theorem put_inj {k m n : Nat} (hm : m < 256 ^ k) (hn : n < 256 ^ k) (h : put k m = put k n) : m = n := by
  have := congrArg get h
  rwa [get_put, get_put, Nat.mod_eq_of_lt hm, Nat.mod_eq_of_lt hn] at this

theorem get_putUint16 {n : Nat} (h : n < 65536) : get (putUint16 n) = n := by
  rw [putUint16, get_put]
  exact Nat.mod_eq_of_lt h

end BigEndian

/-- A byte array of a fixed size. -/
@[ext]
structure Block (n : Nat) where
  val : Bytes
  length_val : val.length = n

namespace Block
open List
variable {n : Nat}

instance : DecidableEq (Block n) := fun _ _ => decidable_of_iff _ Block.ext_iff.symm

/-- A zeroed array into which a byte string was copied, as far as it goes. -/
def copy (n : Nat) (bs : Bytes) : Block n := ⟨(bs ++ replicate n 0).take n, by simp⟩

theorem copy_val {bs : Bytes} (h : n ≤ bs.length) : (copy n bs).val = bs.take n :=
  take_append_of_le_length h

theorem copy_self (b : Block n) : copy n b.val = b := by
  have hlen : n ≤ b.val.length := le_of_eq b.length_val.symm
  refine Block.ext ?_
  rw [copy_val hlen, take_of_length_le (le_of_eq b.length_val)]

def xor (a b : Block n) : Block n :=
  ⟨zipWith (· ^^^ ·) a.val b.val, by rw [length_zipWith, a.length_val, b.length_val, Nat.min_self]⟩

theorem xor_xor (a b : Block n) : (a.xor b).xor b = a := by
  have hzip : ∀ xs ys : Bytes, xs.length ≤ ys.length →
      zipWith (· ^^^ ·) (zipWith (· ^^^ ·) xs ys) ys = xs := by
    intro xs
    induction xs with
    | nil => simp
    | cons x xs ih =>
      intro ys hlen
      cases ys with
      | nil => simp at hlen
      | cons y ys =>
        rw [zipWith_cons_cons, zipWith_cons_cons, ih ys (by simpa using hlen), UInt8.xor_assoc, UInt8.xor_self,
          UInt8.xor_zero]
  exact Block.ext (hzip a.val b.val (by rw [a.length_val, b.length_val]))

end Block
