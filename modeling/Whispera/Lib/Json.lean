import Whispera.Lib.Strings

/-! JSON texts as Go's `json.Marshal` writes them, in bytes. -/

namespace Json
open List Strings

def isNumeric (c : UInt8) : Bool := (48 ≤ c ∧ c ≤ 57) ∨ c = 43 ∨ c = 45 ∨ c = 46 ∨ c = 69 ∨ c = 101

def Numeral : Type := { text : Bytes // text.all isNumeric }

/-- What can be marshalled; the fields of a map are in the order of their keys. -/
inductive Value
  | null
  | bool (b : Bool)
  | number (n : Numeral)
  | string (s : Bytes)
  | array (xs : List Value)
  | object (fields : List (Bytes × Value))

/-- By the first byte of a longer character: the least and the greatest second byte, and how many bytes come
    after it. -/
def leading (a : UInt8) : Option (UInt8 × UInt8 × Nat) :=
  if 0xc2 ≤ a ∧ a ≤ 0xdf then some (0x80, 0xbf, 0)
  else if a = 0xe0 then some (0xa0, 0xbf, 1)
  else if a = 0xed then some (0x80, 0x9f, 1)
  else if 0xe1 ≤ a ∧ a ≤ 0xef then some (0x80, 0xbf, 1)
  else if a = 0xf0 then some (0x90, 0xbf, 2)
  else if 0xf1 ≤ a ∧ a ≤ 0xf3 then some (0x80, 0xbf, 2)
  else if a = 0xf4 then some (0x80, 0x8f, 2)
  else none

/-- How many bytes of the rest belong to the character that begins with `a`, if it is well formed. -/
def tailLength (a : UInt8) : Bytes → Option Nat
  | [] => none
  | b :: rest =>
    (leading a).bind fun (lo, hi, n) =>
      if lo ≤ b ∧ b ≤ hi ∧ n ≤ rest.length ∧ (rest.take n).all fun c => 0x80 ≤ c ∧ c ≤ 0xbf then some (n + 1) else none

def hexDigit (n : Nat) : UInt8 := UInt8.ofNat (if n < 10 then 48 + n else 87 + n)

/-- An ASCII character, with those escaped that matter in JSON or in HTML. -/
def escapeAscii (c : UInt8) : Bytes :=
  if c = 34 ∨ c = 92 then [92, c]
  else if c = 8 then [92, 98]
  else if c = 12 then [92, 102]
  else if c = 10 then [92, 110]
  else if c = 13 then [92, 114]
  else if c = 9 then [92, 116]
  else if c < 32 ∨ c = 60 ∨ c = 62 ∨ c = 38 then bytes "\\u00" ++ [hexDigit (c.toNat / 16), hexDigit (c.toNat % 16)]
  else [c]

/-- What is written for the character that begins with `a`, and how many more bytes it has. -/
def escapeOne (a : UInt8) (rest : Bytes) : Bytes × Nat :=
  if a < 0x80 then (escapeAscii a, 0)
  else
    match tailLength a rest with
    | none => (bytes "\\ufffd", 0)
    | some n =>
      if a :: rest.take n = [0xe2, 0x80, 0xa8] then (bytes "\\u2028", n)
      else if a :: rest.take n = [0xe2, 0x80, 0xa9] then (bytes "\\u2029", n)
      else (a :: rest.take n, n)

/-- Write a text, of which the first bytes have been seen to. -/
def escape : Nat → Bytes → Bytes
  | _, [] => []
  | n + 1, _ :: rest => escape n rest
  | 0, a :: rest => (escapeOne a rest).1 ++ escape (escapeOne a rest).2 rest

def quote (s : Bytes) : Bytes := 34 :: escape 0 s ++ [34]

mutual

def marshal : Value → Bytes
  | .null => bytes "null"
  | .bool b => if b then bytes "true" else bytes "false"
  | .number n => n.val
  | .string s => quote s
  | .array xs => 91 :: elements xs ++ [93]
  | .object fields => 123 :: members fields ++ [125]

def elements : List Value → Bytes
  | [] => []
  | x :: xs => marshal x ++ (if xs.isEmpty then [] else [44]) ++ elements xs

def members : List (Bytes × Value) → Bytes
  | [] => []
  | field :: fields => member field ++ (if fields.isEmpty then [] else [44]) ++ members fields

def member : Bytes × Value → Bytes
  | (key, v) => quote key ++ 58 :: marshal v

end

theorem notMem_escapeAscii (c : UInt8) : 10 ∉ escapeAscii c := by
  have hall : ∀ n : Fin 256, 10 ∉ escapeAscii (UInt8.ofNat n) := by decide +kernel
  have hc := hall ⟨c.toNat, c.toNat_lt⟩
  rwa [UInt8.ofNat_toNat] at hc

theorem leading_le {a lo hi : UInt8} {n : Nat} (h : leading a = some (lo, hi, n)) : 0x80 ≤ lo := by
  unfold leading at h
  repeat' split at h
  all_goals cases h
  all_goals decide

theorem le_of_tailLength {a : UInt8} {rest : Bytes} {n : Nat} (h : tailLength a rest = some n) :
    ∀ c ∈ rest.take n, 0x80 ≤ c := by
  cases rest with
  | nil => cases h
  | cons b rest =>
    obtain ⟨⟨lo, hi, m⟩, hlead, h⟩ := Option.bind_eq_some_iff.mp h
    obtain ⟨⟨hlo, -, -, htail⟩, hn⟩ := Option.ite_none_right_eq_some.mp h
    cases hn
    intro c hc
    rcases mem_cons.mp hc with rfl | hc
    · exact UInt8.le_trans (leading_le hlead) hlo
    · exact (of_decide_eq_true (all_eq_true.mp htail c hc)).1

theorem notMem_escapeOne (a : UInt8) (rest : Bytes) : 10 ∉ (escapeOne a rest).1 := by
  unfold escapeOne
  split
  · exact notMem_escapeAscii a
  · rename_i ha
    split
    · decide
    · rename_i n hn
      split
      · exact (by decide : 10 ∉ bytes "\\u2028")
      · split
        · exact (by decide : 10 ∉ bytes "\\u2029")
        · intro hmem
          rcases mem_cons.mp hmem with rfl | hmem
          · exact ha (by decide)
          · exact absurd (le_of_tailLength hn 10 hmem) (by decide)

theorem notMem_escape (s : Bytes) : ∀ n, 10 ∉ escape n s := by
  induction s with
  | nil =>
    intro n
    cases n <;> exact not_mem_nil
  | cons a rest ih =>
    intro n
    cases n with
    | zero =>
      intro h
      rcases mem_append.mp h with h | h
      · exact notMem_escapeOne a rest h
      · exact ih _ h
    | succ n => exact ih n

theorem notMem_quote (s : Bytes) : 10 ∉ quote s := by
  simp [quote, notMem_escape s 0]

theorem notMem_numeral (n : Numeral) : 10 ∉ n.val := fun h => absurd (all_eq_true.mp n.property 10 h) (by decide)

mutual

theorem notMem_marshal : ∀ v, 10 ∉ marshal v
  | .null => by simp only [marshal]; decide
  | .bool b => by cases b <;> simp only [marshal] <;> decide
  | .number n => by simpa only [marshal] using notMem_numeral n
  | .string s => by simpa only [marshal] using notMem_quote s
  | .array xs => by simp [marshal, notMem_elements xs]
  | .object fields => by simp [marshal, notMem_members fields]

theorem notMem_elements : ∀ xs, 10 ∉ elements xs
  | [] => by simp [elements]
  | x :: xs => by
    rw [elements]
    have hx := notMem_marshal x
    have hxs := notMem_elements xs
    split <;> simp [hx, hxs]

theorem notMem_members : ∀ fields, 10 ∉ members fields
  | [] => by simp [members]
  | field :: fields => by
    rw [members]
    have hx := notMem_member field
    have hxs := notMem_members fields
    split <;> simp [hx, hxs]

theorem notMem_member : ∀ field, 10 ∉ member field
  | (key, v) => by simp [member, notMem_quote key, notMem_marshal v]

end

theorem take_object (fields : List (Bytes × Value)) {n : Nat} (hn : 0 < n) :
    ∃ rest, (marshal (.object fields)).take n = 123 :: rest ∧ 10 ∉ rest := by
  refine ⟨(members fields ++ [125]).take (n - 1), ?_, fun h => ?_⟩
  · rw [marshal, cons_append, take_cons hn]
  · refine notMem_marshal (.object fields) ?_
    rw [marshal, cons_append]
    exact mem_cons_of_mem _ (mem_of_mem_take h)

end Json
