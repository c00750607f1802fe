import Mathlib.Data.List.Basic
import Whispera.Lib.Bytes

/-! Base 64 with the URL alphabet and without padding, decoded as by Go's `base64.RawURLEncoding`: line breaks
are skipped, and the spare bits of the last digit ignored. At the end, `base64.StdEncoding` and
`base64.URLEncoding`. -/

namespace Base64
open List Option

def digit (n : Nat) : UInt8 :=
  if n < 26 then UInt8.ofNat (65 + n)
  else if n < 52 then UInt8.ofNat (97 + (n - 26))
  else if n < 62 then UInt8.ofNat (48 + (n - 52))
  else if n = 62 then 45
  else 95

def value (c : UInt8) : Option Nat :=
  if 65 ≤ c ∧ c ≤ 90 then some (c.toNat - 65)
  else if 97 ≤ c ∧ c ≤ 122 then some (c.toNat - 97 + 26)
  else if 48 ≤ c ∧ c ≤ 57 then some (c.toNat - 48 + 52)
  else if c = 45 then some 62
  else if c = 95 then some 63
  else none

/-- Bytes in groups of six bits; the last group is filled up with zeros. -/
def group : Bytes → List Nat
  | a :: b :: c :: rest =>
    let n := a.toNat * 65536 + b.toNat * 256 + c.toNat
    n / 262144 :: n / 4096 % 64 :: n / 64 % 64 :: n % 64 :: group rest
  | [a, b] =>
    let n := a.toNat * 1024 + b.toNat * 4
    [n / 4096, n / 64 % 64, n % 64]
  | [a] =>
    let n := a.toNat * 16
    [n / 64, n % 64]
  | [] => []

/-- Groups of six bits as bytes; a group of its own is an error, and what is over of the last one is ignored.
    -/
def ungroup : List Nat → Option Bytes
  | a :: b :: c :: d :: rest =>
    let n := a * 262144 + b * 4096 + c * 64 + d
    (ungroup rest).map fun bs => UInt8.ofNat (n / 65536) :: UInt8.ofNat (n / 256) :: UInt8.ofNat n :: bs
  | [a, b, c] =>
    let n := a * 262144 + b * 4096 + c * 64
    some [UInt8.ofNat (n / 65536), UInt8.ofNat (n / 256)]
  | [a, b] => some [UInt8.ofNat ((a * 262144 + b * 4096) / 65536)]
  | [_] => none
  | [] => some []

def encode (bs : Bytes) : Bytes := (group bs).map digit

def decode (text : Bytes) : Option Bytes :=
  ((text.filter fun c => c ≠ 10 ∧ c ≠ 13).mapM value).bind ungroup

theorem length_group : ∀ bs : Bytes, (group bs).length = (4 * bs.length + 2) / 3
  | _ :: _ :: _ :: rest => by
    simp only [group, length_cons, length_group rest]
    omega
  | [_, _] | [_] | [] => by simp [group]

variable (bs : Bytes) {c : UInt8}

theorem length_encode : (encode bs).length = (4 * bs.length + 2) / 3 := by
  rw [encode, length_map, length_group]

theorem value_digit : ∀ {n : Nat}, n < 64 → value (digit n) = some n ∧ digit n ≠ 10 ∧ digit n ≠ 13 := by
  have hall : ∀ n : Fin 64, value (digit n) = some n.val ∧ digit n ≠ 10 ∧ digit n ≠ 13 := by decide
  exact fun {n} hn => hall ⟨n, hn⟩

theorem group_lt : ∀ {bs : Bytes}, ∀ n ∈ group bs, n < 64
  | a :: b :: c :: rest => by
    have ha := a.toNat_lt
    have hb := b.toNat_lt
    have hc := c.toNat_lt
    have ih := @group_lt rest
    simp only [group, mem_cons, forall_eq_or_imp]
    exact ⟨by omega, by omega, by omega, by omega, ih⟩
  | [a, b] => by
    have ha := a.toNat_lt
    have hb := b.toNat_lt
    simp only [group, mem_cons, forall_eq_or_imp, not_mem_nil, false_implies, implies_true, and_true]
    omega
  | [a] => by
    have ha := a.toNat_lt
    simp only [group, mem_cons, forall_eq_or_imp, not_mem_nil, false_implies, implies_true, and_true]
    omega
  | [] => by simp [group]

theorem ofNat_eq {a : UInt8} {n : Nat} (h : n % 256 = a.toNat) : UInt8.ofNat n = a := by
  refine UInt8.toNat_inj.mp ?_
  rw [UInt8.toNat_ofNat']
  exact h

theorem ungroup_group : ∀ bs : Bytes, ungroup (group bs) = some bs
  | a :: b :: c :: rest => by
    have ha := a.toNat_lt
    have hb := b.toNat_lt
    have hc := c.toNat_lt
    simp only [group, ungroup, ungroup_group rest, map_some, some.injEq, cons.injEq, and_true]
    exact ⟨ofNat_eq (by omega), ofNat_eq (by omega), ofNat_eq (by omega)⟩
  | [a, b] => by
    have ha := a.toNat_lt
    have hb := b.toNat_lt
    simp only [group, ungroup, some.injEq, cons.injEq, and_true]
    exact ⟨ofNat_eq (by omega), ofNat_eq (by omega)⟩
  | [a] => by
    have ha := a.toNat_lt
    simp only [group, ungroup, some.injEq, cons.injEq, and_true]
    exact ofNat_eq (by omega)
  | [] => rfl

theorem mapM_digits {digit : Nat → UInt8} {value : UInt8 → Option Nat}
    (hdigit : ∀ {n}, n < 64 → value (digit n) = some n) :
    ∀ {ns : List Nat}, (∀ n ∈ ns, n < 64) → (ns.map digit).mapM value = some ns
  | [], _ => rfl
  | n :: ns, h => by
    have hn := hdigit (h n mem_cons_self)
    have ih := mapM_digits hdigit fun m hm => h m (mem_cons_of_mem n hm)
    simp [mapM_cons, hn, ih]

theorem decode_encode : decode (encode bs) = some bs := by
  have hfilter : (encode bs).filter (fun c => c ≠ 10 ∧ c ≠ 13) = encode bs := by
    refine filter_eq_self.mpr fun c hc => ?_
    obtain ⟨n, hn, rfl⟩ := List.mem_map.mp hc
    exact decide_eq_true (value_digit (group_lt n hn)).2
  rw [decode, hfilter, encode, mapM_digits (fun hn => (value_digit hn).1) group_lt, bind_some, ungroup_group]

/-- The digits of `base64.StdEncoding`. -/
def stdDigit (n : Nat) : UInt8 :=
  if n = 62 then 43
  else if n = 63 then 47
  else digit n

def stdValue (c : UInt8) : Option Nat :=
  if c = 43 then some 62
  else if c = 47 then some 63
  else if c = 45 ∨ c = 95 then none
  else value c

/-- What fills up `n` digits to a multiple of four. -/
def padding (n : Nat) : Bytes := replicate ((4 - n % 4) % 4) 61

def encodeStd (bs : Bytes) : Bytes :=
  let digits := (group bs).map stdDigit
  digits ++ padding digits.length

/-- Digits, and the padding that they need. -/
def decodePadded (value : UInt8 → Option Nat) (text : Bytes) : Option Bytes :=
  let text := text.filter fun c => c ≠ 10 ∧ c ≠ 13
  let digits := text.takeWhile (· ≠ 61)
  if text.dropWhile (· ≠ 61) = padding digits.length then (digits.mapM value).bind ungroup else none

def decodeStd (text : Bytes) : Option Bytes := decodePadded stdValue text
def decodeURL (text : Bytes) : Option Bytes := decodePadded value text

theorem stdValue_stdDigit : ∀ {n : Nat}, n < 64 → stdValue (stdDigit n) = some n ∧ stdDigit n ≠ 10 ∧ stdDigit n ≠ 13 ∧
    stdDigit n ≠ 61 := by
  have hall : ∀ n : Fin 64, stdValue (stdDigit n) = some n.val ∧ stdDigit n ≠ 10 ∧ stdDigit n ≠ 13 ∧
      stdDigit n ≠ 61 := by
    decide
  exact fun {n} hn => hall ⟨n, hn⟩

theorem mem_encodeStd {bs : Bytes} (h : c ∈ encodeStd bs) : (∃ n < 64, c = stdDigit n) ∨ c = 61 := by
  rcases mem_append.mp h with h | h
  · obtain ⟨n, hn, rfl⟩ := List.mem_map.mp h
    exact Or.inl ⟨n, group_lt n hn, rfl⟩
  · exact Or.inr (eq_of_mem_replicate h)

theorem decodeStd_encodeStd : decodeStd (encodeStd bs) = some bs := by
  have hfilter : (encodeStd bs).filter (fun c => c ≠ 10 ∧ c ≠ 13) = encodeStd bs := by
    refine filter_eq_self.mpr fun c hc => ?_
    rcases mem_encodeStd hc with ⟨n, hn, rfl⟩ | rfl
    · obtain ⟨-, h10, h13, -⟩ := stdValue_stdDigit hn
      exact decide_eq_true ⟨h10, h13⟩
    · rfl
  have hdigit : ∀ c ∈ (group bs).map stdDigit, decide (c ≠ 61) = true := by
    intro c hc
    obtain ⟨n, hn, rfl⟩ := List.mem_map.mp hc
    exact decide_eq_true (stdValue_stdDigit (group_lt n hn)).2.2.2
  have hpad : ∀ n, (padding n).takeWhile (· ≠ 61) = [] ∧ (padding n).dropWhile (· ≠ 61) = padding n := by
    intro n
    unfold padding
    cases (4 - n % 4) % 4 with
    | zero | succ k => exact ⟨rfl, rfl⟩
  rw [decodeStd, decodePadded, hfilter, encodeStd, takeWhile_append_of_pos hdigit, dropWhile_append_of_pos hdigit,
    (hpad _).1, (hpad _).2, append_nil, if_pos rfl,
    mapM_digits (fun hn => (stdValue_stdDigit hn).1) group_lt, bind_some, ungroup_group]

theorem encodeStd_head (a : UInt8) (bs : Bytes) : ∃ t, encodeStd (a :: bs) = stdDigit (a.toNat / 4) :: t := by
  have hgroup : ∃ ns, group (a :: bs) = a.toNat / 4 :: ns := by
    rcases bs with - | ⟨b, - | ⟨c, rest⟩⟩
    · refine ⟨_, cons_eq_cons.mpr ⟨?_, rfl⟩⟩
      omega
    · have hb := b.toNat_lt
      refine ⟨_, cons_eq_cons.mpr ⟨?_, rfl⟩⟩
      omega
    · have hb := b.toNat_lt
      have hc := c.toNat_lt
      refine ⟨_, cons_eq_cons.mpr ⟨?_, rfl⟩⟩
      omega
  obtain ⟨ns, hns⟩ := hgroup
  exact ⟨_, by rw [encodeStd, hns, map_cons, cons_append]⟩

theorem filter_lineBreaks_cons (hc : c ≠ 10 ∧ c ≠ 13) (text : Bytes) :
    ((c :: text).filter fun c => c ≠ 10 ∧ c ≠ 13) = c :: text.filter fun c => c ≠ 10 ∧ c ≠ 13 := by
  rw [filter_cons, if_pos (decide_eq_true hc)]

theorem decodePadded_cons {value : UInt8 → Option Nat} (hc : c ≠ 10 ∧ c ≠ 13) (hpad : c ≠ 61) (hvalue : value c = none)
    (text : Bytes) : decodePadded value (c :: text) = none := by
  rw [decodePadded, filter_lineBreaks_cons hc, takeWhile_cons, if_pos (decide_eq_true hpad), mapM_cons, hvalue]
  exact ite_self none

theorem decode_cons (hc : c ≠ 10 ∧ c ≠ 13) (hvalue : value c = none) (text : Bytes) : decode (c :: text) = none := by
  rw [decode, filter_lineBreaks_cons hc, mapM_cons, hvalue]
  rfl

theorem encodeStd_cons (a b c : UInt8) (rest : Bytes) :
    encodeStd (a :: b :: c :: rest) = encodeStd [a, b, c] ++ encodeStd rest := by
  have hpad : ∀ n, padding (n + 4) = padding n := fun n => by rw [padding, Nat.add_mod_right, padding]
  simp only [encodeStd, group, map_cons, length_cons, map_nil, length_nil, hpad]
  rfl

theorem length_encodeStd_triple (a b c : UInt8) : (encodeStd [a, b, c]).length = 4 := by
  simp [encodeStd, group, padding]

theorem take_encodeStd (k : Nat) (bs : Bytes) : (encodeStd bs).take (4 * k) = encodeStd (bs.take (3 * k)) := by
  induction k generalizing bs with
  | zero =>
    rw [Nat.mul_zero, take_zero, take_zero]
    rfl
  | succ k ih =>
    rw [Nat.mul_succ, Nat.mul_succ]
    rcases bs with - | ⟨a, - | ⟨b, - | ⟨c, rest⟩⟩⟩
    · rw [take_nil]
      exact take_of_length_le (Nat.zero_le _)
    · rw [take_of_length_le (l := [a]) (Nat.le_add_left_of_le (Nat.le_add_left 1 2))]
      exact take_of_length_le (Nat.le_add_left 4 (4 * k))
    · rw [take_of_length_le (l := [a, b]) (Nat.le_add_left_of_le (Nat.le_add_left 2 1))]
      exact take_of_length_le (Nat.le_add_left 4 (4 * k))
    · have htake : (a :: b :: c :: rest).take (3 * k + 3) = a :: b :: c :: rest.take (3 * k) := rfl
      rw [htake, encodeStd_cons a b c rest, encodeStd_cons a b c (rest.take _), ← ih, Nat.add_comm (4 * k),
        ← length_encodeStd_triple a b c, take_length_add_append]

end Base64
