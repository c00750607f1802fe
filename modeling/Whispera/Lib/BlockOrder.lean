import Mathlib.Data.Nat.Bitwise
import Whispera.Lib.Bytes

/-! Blocks of bytes in the order of the numbers that they stand for. -/

namespace Block
open BigEndian

/-- `bytes.Compare(a, b) < 0`. -/
def bytesLess : Bytes → Bytes → Bool
  | _, [] => false
  | [], _ :: _ => true
  | a :: as, b :: bs => a < b || (a == b && bytesLess as bs)

variable {n : Nat}

def less (a b : Block n) : Bool := bytesLess a.val b.val

def num (a : Block n) : Nat := get a.val

def ofNum (n x : Nat) : Block n := ⟨put n x, length_put n x⟩

theorem num_lt (a : Block n) : a.num < 256 ^ n := by
  have hlt := get_lt a.val
  rwa [a.length_val] at hlt

theorem num_ofNum {x : Nat} (h : x < 256 ^ n) : (ofNum n x).num = x := (get_put n x).trans (Nat.mod_eq_of_lt h)

theorem get_inj : ∀ {as bs : Bytes}, as.length = bs.length → get as = get bs → as = bs
  | [], [], _, _ => rfl
  | a :: as, b :: bs, hlen, h => by
    have hlen : as.length = bs.length := Nat.succ.inj hlen
    have ha := get_lt as
    have hb := get_lt bs
    rw [get_cons, get_cons, hlen] at h
    rw [hlen] at ha
    have hpos : 0 < 256 ^ bs.length := Nat.pow_pos (by decide)
    have hhead : a.toNat = b.toNat := by
      have hdiv := congrArg (· / 256 ^ bs.length) h
      rwa [mul_comm, Nat.mul_add_div hpos, Nat.div_eq_of_lt ha, mul_comm b.toNat, Nat.mul_add_div hpos,
        Nat.div_eq_of_lt hb] at hdiv
    rw [hhead] at h
    rw [UInt8.toNat_inj.mp hhead, get_inj hlen (add_left_cancel h)]

theorem num_inj {a b : Block n} (h : a.num = b.num) : a = b :=
  Block.ext (get_inj (a.length_val.trans b.length_val.symm) h)

theorem bytesLess_iff : ∀ {as bs : Bytes}, as.length = bs.length → (bytesLess as bs = true ↔ get as < get bs)
  | [], [], _ => by decide
  | a :: as, b :: bs, hlen => by
    have hlen : as.length = bs.length := Nat.succ.inj hlen
    have ha := get_lt as
    have hb := get_lt bs
    rw [hlen] at ha
    rw [bytesLess, get_cons, get_cons, hlen, Bool.or_eq_true, Bool.and_eq_true, beq_iff_eq, decide_eq_true_eq,
      bytesLess_iff hlen, UInt8.lt_iff_toNat_lt, ← UInt8.toNat_inj]
    generalize 256 ^ bs.length = p at ha hb
    rcases Nat.lt_trichotomy a.toNat b.toNat with hab | hab | hab
    · have hstep : a.toNat * p + p ≤ b.toNat * p := by
        rw [← Nat.succ_mul]
        exact Nat.mul_le_mul_right p hab
      constructor
      · omega
      · exact fun _ => Or.inl hab
    · rw [hab]
      omega
    · have hstep : b.toNat * p + p ≤ a.toNat * p := by
        rw [← Nat.succ_mul]
        exact Nat.mul_le_mul_right p hab
      omega

theorem less_iff {a b : Block n} :
    a.less b = true ↔ a.num < b.num := bytesLess_iff (a.length_val.trans b.length_val.symm)

theorem not_less_iff {a b : Block n} : a.less b = false ↔ b.num ≤ a.num := by
  rw [← Bool.not_eq_true, less_iff, not_lt]

end Block
