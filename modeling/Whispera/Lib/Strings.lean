import Mathlib.Data.List.Infix
import Whispera.Lib.Bytes

/-! Go strings, which are lists of bytes, and what is used of the package `strings`. -/

namespace Strings
open List

/-- The bytes of an ASCII text. -/
def bytes (s : String) : Bytes := s.toList.map fun c => UInt8.ofNat c.toNat

def ofBytes (bs : Bytes) : String := String.ofList (bs.map fun b => Char.ofNat b.toNat)

theorem bytes_ofBytes (bs : Bytes) : bytes (ofBytes bs) = bs := by
  have hchar : ∀ b : UInt8, UInt8.ofNat (Char.ofNat b.toNat).toNat = b := by
    intro b
    have hvalid : b.toNat.isValidChar := Or.inl (Nat.lt_of_lt_of_le b.toNat_lt (by decide))
    rw [Char.ofNat, dif_pos hvalid]
    exact UInt8.ofNat_toNat
  rw [bytes, ofBytes, String.toList_ofList, map_map]
  exact (map_congr_left fun b _ => hchar b).trans (map_id bs)

def utf8 (s : String) : Bytes := s.toList.flatMap String.utf8EncodeChar

/-- `strings.TrimPrefix`. -/
def dropStart (s start : Bytes) : Bytes := if start.isPrefixOf s then s.drop start.length else s

def index (sub : Bytes) : Bytes → Option Nat
  | [] => if sub = [] then some 0 else none
  | c :: s => if sub.isPrefixOf (c :: s) then some 0 else (index sub s).map (· + 1)

def contains (s sub : Bytes) : Bool := (index sub s).isSome

/-- `strings.ToLower`, on the letters of ASCII. -/
def lowerASCII (s : Bytes) : Bytes := s.map fun c => if 65 ≤ c ∧ c ≤ 90 then c + 32 else c

def hexValue (c : UInt8) : Option Nat :=
  if 48 ≤ c ∧ c ≤ 57 then some (c.toNat - 48)
  else if 97 ≤ c ∧ c ≤ 102 then some (c.toNat - 87)
  else if 65 ≤ c ∧ c ≤ 70 then some (c.toNat - 55)
  else none

def hexDecode : Bytes → Option Bytes
  | [] => some []
  | [_] => none
  | a :: b :: rest =>
    match hexValue a, hexValue b with
    | some m, some n => (hexDecode rest).map fun bs => UInt8.ofNat (16 * m + n) :: bs
    | _, _ => none

def hexDigit (n : Nat) : UInt8 := if n < 10 then UInt8.ofNat (48 + n) else UInt8.ofNat (87 + n)

def hexEncode (bs : Bytes) : Bytes := bs.flatMap fun b => [hexDigit (b.toNat / 16), hexDigit (b.toNat % 16)]

/-- White space, as `unicode.IsSpace` has it. -/
def spaces : List Bytes :=
  [[9], [10], [11], [12], [13], [32], [0xc2, 0x85], [0xc2, 0xa0], [0xe1, 0x9a, 0x80], [0xe2, 0x80, 0x80],
    [0xe2, 0x80, 0x81], [0xe2, 0x80, 0x82], [0xe2, 0x80, 0x83], [0xe2, 0x80, 0x84], [0xe2, 0x80, 0x85],
    [0xe2, 0x80, 0x86], [0xe2, 0x80, 0x87], [0xe2, 0x80, 0x88], [0xe2, 0x80, 0x89], [0xe2, 0x80, 0x8a],
    [0xe2, 0x80, 0xa8], [0xe2, 0x80, 0xa9], [0xe2, 0x80, 0xaf], [0xe2, 0x81, 0x9f], [0xe3, 0x80, 0x80]]

/-- Drop words of a table from the start, at most as many as the number says. -/
def trim (table : List Bytes) : Nat → Bytes → Bytes
  | 0, s => s
  | n + 1, s =>
    match table.find? fun w => w.isPrefixOf s with
    | some w => trim table n (s.drop w.length)
    | none => s

def trimSpace (s : Bytes) : Bytes :=
  let s := trim spaces s.length s
  (trim (spaces.map reverse) s.length s.reverse).reverse

variable {table : List Bytes} {c : UInt8}

theorem trim_append_cons (hc : c ∉ table.flatten) (n : Nat) (a b : Bytes) :
    ∃ a', trim table n (a ++ c :: b) = a' ++ c :: b ∧ a' <:+ a := by
  induction n generalizing a with
  | zero => exact ⟨a, rfl, suffix_refl a⟩
  | succ n ih =>
    rw [trim]
    split
    · rename_i w hw
      have hfound := find?_some hw
      have hstart : w <+: a ++ c :: b := isPrefixOf_iff_prefix.mp hfound
      have hnot : c ∉ w := fun h => hc (mem_flatten.mpr ⟨w, mem_of_find?_eq_some hw, h⟩)
      have hle : w.length ≤ a.length := by
        by_contra hlt
        refine hnot (mem_of_mem_take (i := a.length + 1) ?_)
        have htake := prefix_iff_eq_take.mp hstart
        rw [htake, take_take, Nat.min_eq_left (by omega), take_length_add_append]
        simp
      obtain ⟨a', ha', hsuffix⟩ := ih (a.drop w.length)
      rw [drop_append_of_le_length hle]
      exact ⟨a', ha', hsuffix.trans (drop_suffix _ a)⟩
    · exact ⟨a, rfl, suffix_refl a⟩

theorem trim_cons (hc : c ∉ table.flatten) (n : Nat) (s : Bytes) : trim table n (c :: s) = c :: s := by
  obtain ⟨a, ha, hsuffix⟩ := trim_append_cons hc n [] s
  rw [suffix_nil.mp hsuffix] at ha
  exact ha

theorem notMem_flatten_reverse (hc : c ∉ table.flatten) : c ∉ (table.map reverse).flatten := by
  intro h
  obtain ⟨w, hw, hcw⟩ := mem_flatten.mp h
  obtain ⟨v, hv, rfl⟩ := mem_map.mp hw
  exact hc (mem_flatten.mpr ⟨v, hv, mem_reverse.mp hcw⟩)

theorem trimSpace_cons (hc : c ∉ spaces.flatten) (s : Bytes) : ∃ s', trimSpace (c :: s) = c :: s' ∧ s' <+: s := by
  obtain ⟨a, ha, hsuffix⟩ := trim_append_cons (notMem_flatten_reverse hc) (c :: s).length s.reverse []
  refine ⟨a.reverse, ?_, ?_⟩
  · rw [trimSpace, trim_cons hc, reverse_cons, ha, reverse_append]
    rfl
  · rw [← reverse_suffix, reverse_reverse]
    exact hsuffix

theorem trim_eq_self {s : Bytes} (n : Nat) (h : ∀ w ∈ table, ¬w <+: s) : trim table n s = s := by
  cases n with
  | zero => rfl
  | succ n =>
    have hnone : table.find? (fun w => w.isPrefixOf s) = none :=
      find?_eq_none.mpr fun w hw hstart => h w hw ( isPrefixOf_iff_prefix.mp hstart)
    rw [trim, hnone]

/-- A text with no white space at its ends is kept. -/
theorem trimSpace_of_ends {s : Bytes} (hstart : ∀ w ∈ spaces, ¬w <+: s) (hend : ∀ w ∈ spaces, ¬w <:+ s) :
    trimSpace s = s := by
  have hreverse : ∀ w ∈ spaces.map reverse, ¬w <+: s.reverse := by
    intro w hw h
    obtain ⟨v, hv, rfl⟩ := mem_map.mp hw
    exact hend v hv ( reverse_prefix.mp h)
  rw [trimSpace, trim_eq_self _ hstart, trim_eq_self _ hreverse, reverse_reverse]

/-- No character of the text is white space. -/
def SpaceFree (s : Bytes) : Prop := ∀ w ∈ spaces, ¬w <:+: s

instance (s : Bytes) : Decidable (SpaceFree s) := List.decidableBAll _ _

theorem spaceFree_of_bytes {s : Bytes} (h : ∀ c ∈ s, c ∉ spaces.flatten) : SpaceFree s := by
  intro w hw hpart
  have hne : ∀ w ∈ spaces, w ≠ [] := by decide
  obtain ⟨c, v, rfl⟩ := exists_cons_of_ne_nil (hne w hw)
  exact h c (hpart.mem mem_cons_self) (mem_flatten.mpr ⟨_, hw, mem_cons_self⟩)

theorem SpaceFree.trimSpace {s : Bytes} (h : SpaceFree s) : trimSpace s = s :=
  trimSpace_of_ends (fun w hw hstart => h w hw hstart.isInfix) fun w hw hend => h w hw hend.isInfix

end Strings
