import Whispera.Lib.Net

/-! `net.ParseIP` and `net.ParseCIDR`, which read an address with `netip.ParseAddr`. -/

namespace Net
open List Option Text

def isDecimal (c : Char) : Bool := '0' ≤ c ∧ c ≤ '9'

def isHex (c : Char) : Bool := isDecimal c || ('a' ≤ c ∧ c ≤ 'f') || ('A' ≤ c ∧ c ≤ 'F')

def hexDigit (c : Char) : Nat :=
  if isDecimal c then c.toNat - 48 else if 'a' ≤ c then c.toNat - 87 else c.toNat - 55

def hexNumber (digits : List Char) : Nat := digits.foldl (fun acc c => acc * 16 + hexDigit c) 0

/-- The loop of `parseIPv4Fields`, with the number that it is reading, its digits so far, and the numbers
    before. -/
def parseIPv4Fields (val digLen : Nat) (fields : Bytes) : List Char → Option Bytes
  | [] => if fields.length < 3 then none else some (fields ++ [UInt8.ofNat val])
  | c :: s =>
    if isDecimal c then
      if digLen = 1 ∧ val = 0 then none
      else if 255 < val * 10 + (c.toNat - 48) then none
      else parseIPv4Fields (val * 10 + (c.toNat - 48)) (digLen + 1) fields s
    else if c = '.' then
      -- A dot follows a digit and is not the last character.
      if digLen = 0 ∨ s = [] then none
      else if fields.length = 3 then none
      else parseIPv4Fields 0 0 (fields ++ [UInt8.ofNat val]) s
    else none

def parseIPv4 (s : List Char) : Option Bytes := parseIPv4Fields 0 0 [] s

/-- The loop of `parseIPv6`, with the rounds left, the bytes so far and where `::` stood among them. -/
def parseIPv6Groups : Nat → Bytes → Option Nat → List Char → Option (Bytes × Option Nat)
  | 0, ip, ellipsis, s => if s = [] then some (ip, ellipsis) else none
  | n + 1, ip, ellipsis, s =>
    let digits := s.takeWhile isHex
    if digits = [] ∨ 4 < digits.length then none
    else
      match s.dropWhile isHex with
      | [] => some (ip ++ [UInt8.ofNat (hexNumber digits / 256), UInt8.ofNat (hexNumber digits)], ellipsis)
      | '.' :: _ =>
        -- An IPv4 address in the place of the last two groups.
        if (ellipsis = none ∧ ip.length ≠ 12) ∨ 16 < ip.length + 4 then none
        else (parseIPv4 s).map fun v4 => (ip ++ v4, ellipsis)
      | ':' :: ':' :: s =>
        let ip := ip ++ [UInt8.ofNat (hexNumber digits / 256), UInt8.ofNat (hexNumber digits)]
        if ellipsis ≠ none then none
        else if s = [] then some (ip, some ip.length)
        else parseIPv6Groups n ip (some ip.length) s
      | ':' :: c :: s =>
        let ip := ip ++ [UInt8.ofNat (hexNumber digits / 256), UInt8.ofNat (hexNumber digits)]
        parseIPv6Groups n ip ellipsis (c :: s)
      | _ :: _ => none

/-- Zeros where `::` stood. -/
def expandEllipsis (ip : Bytes) : Option Nat → Option Bytes
  | none => if ip.length < 16 then none else some ip
  | some k => if ip.length < 16 then some (ip.take k ++ replicate (16 - ip.length) 0 ++ ip.drop k) else none

/-- The sixteen bytes of an IPv6 address. A zone is not taken by `ParseIP` nor by `ParseCIDR`. -/
def parseIPv6 (s : List Char) : Option Bytes :=
  if '%' ∈ s then none
  else
    match s with
    | [':', ':'] => some (replicate 16 0)
    | ':' :: ':' :: s => (parseIPv6Groups 8 [] (some 0) s).bind fun r => expandEllipsis r.1 r.2
    | s => (parseIPv6Groups 8 [] none s).bind fun r => expandEllipsis r.1 r.2

/-- What is used of a `netip.Addr`: its sixteen bytes, and whether it was written as an IPv4 address. -/
structure ParsedAddr where
  as16 : IP
  is4 : Bool
  deriving DecidableEq, Repr

/-- `netip.ParseAddr`: the first of the three characters tells how the text is to be read. -/
def parseAddr (s : List Char) : Option ParsedAddr :=
  match s.find? fun c => c = '.' ∨ c = ':' ∨ c = '%' with
  | some c =>
    if c = '.' then (parseIPv4 s).map fun v4 => ⟨v4InV6Prefix ++ v4, true⟩
    else if c = ':' then (parseIPv6 s).map fun v6 => ⟨v6, false⟩
    else none
  | none => none

def parseIP (s : List Char) : Option IP := (parseAddr s).map ParsedAddr.as16

/-- `net.CIDRMask`, for `l` bytes. -/
def cidrMask : Nat → Nat → Bytes
  | 0, _ => []
  | l + 1, n => (if 8 ≤ n then 255 else ~~~((255 : UInt8) >>> UInt8.ofNat n)) :: cidrMask l (n - 8)

/-- `IP.Mask`. -/
def IP.mask (ip : IP) (mask : Bytes) : IP :=
  let mask := if mask.length = 16 ∧ ip.length = 4 ∧ mask.take 12 = replicate 12 255 then mask.drop 12 else mask
  let ip := if mask.length = 4 ∧ ip.length = 16 ∧ ip.take 12 = v4InV6Prefix then ip.drop 12 else ip
  if ip.length ≠ mask.length then [] else zipWith (· &&& ·) ip mask

def dtoi (s : List Char) : Option Nat := if s ≠ [] ∧ s.all isDecimal then some (number s) else none

/-- The network of `net.ParseCIDR`. -/
def parseCIDR (s : List Char) : Option IPNet :=
  if '/' ∉ s then none
  else
    match parseAddr (s.takeWhile (· ≠ '/')), dtoi ((s.dropWhile (· ≠ '/')).drop 1) with
    | some addr, some n =>
      let bytes := if addr.is4 then 4 else 16
      if 8 * bytes < n then none
      else some { ip := addr.as16.mask (cidrMask bytes n), mask := cidrMask bytes n }
    | some _, none => none
    | none, some _ => none
    | none, none => none

variable {fields v4 v6 : Bytes} {s : List Char} {ellipsis : Option Nat} {r : Bytes × Option Nat} {addr : ParsedAddr}
variable {val digLen : Nat} {n : Nat} {ip : Bytes}

theorem parseIPv4Fields_cons {c : Char} (h : parseIPv4Fields val digLen fields (c :: s) = some v4) :
    (isDecimal c = true ∧ parseIPv4Fields (val * 10 + (c.toNat - 48)) (digLen + 1) fields s = some v4) ∨
      (c = '.' ∧ fields.length ≠ 3 ∧ parseIPv4Fields 0 0 (fields ++ [UInt8.ofNat val]) s = some v4) := by
  rw [parseIPv4Fields] at h
  split at h
  · split at h
    · cases h
    · split at h
      · cases h
      · exact .inl ⟨‹_›, h⟩
  · split at h
    · split at h
      · cases h
      · split at h
        · cases h
        · exact .inr ⟨‹_›, ‹_›, h⟩
    · cases h

theorem mem_parseIPv4Fields (h : parseIPv4Fields val digLen fields s = some v4) :
    ∀ c ∈ s, isDecimal c = true ∨ c = '.' := by
  induction s generalizing val digLen fields with
  | nil => nofun
  | cons c s ih =>
    rcases parseIPv4Fields_cons h with ⟨hc, h⟩ | ⟨hc, -, h⟩
    · exact forall_mem_cons.mpr ⟨.inl hc, ih h⟩
    · exact forall_mem_cons.mpr ⟨.inr hc, ih h⟩

theorem length_parseIPv4Fields
    (h : parseIPv4Fields val digLen fields s = some v4) (hlen : fields.length ≤ 3) : v4.length = 4 := by
  induction s generalizing val digLen fields with
  | nil =>
    rw [parseIPv4Fields] at h
    split at h <;> cases h
    rw [length_append, length_singleton]
    omega
  | cons c s ih =>
    rcases parseIPv4Fields_cons h with ⟨-, h⟩ | ⟨-, hne, h⟩
    · exact ih h hlen
    · refine ih h ?_
      rw [length_append, length_singleton]
      omega

theorem length_parseIPv4 (h : parseIPv4 s = some v4) : v4.length = 4 :=
  length_parseIPv4Fields h (Nat.zero_le 3)

def IsAddrChar (c : Char) : Prop := isHex c = true ∨ c = '.' ∨ c = ':'

theorem isHex_of_isDecimal {c : Char} (h : isDecimal c = true) : isHex c = true := by
  rw [isHex, h, Bool.true_or, Bool.true_or]

theorem isAddrChar_of_parseIPv4 (h : parseIPv4 s = some v4) : ∀ c ∈ s, IsAddrChar c :=
  fun c hc => (mem_parseIPv4Fields h c hc).elim (fun hd => .inl (isHex_of_isDecimal hd)) fun hd => .inr (.inl hd)

/-- What one round of `parseIPv6Groups` can do: stop after a group, with an IPv4 address or with `::`, or go
    on. -/
inductive GroupStep (n : Nat) (ip : Bytes) (ellipsis : Option Nat) (s : List Char) : Bytes × Option Nat → Prop
  | last : s.dropWhile isHex = [] → GroupStep n ip ellipsis s
      (ip ++ [UInt8.ofNat (hexNumber (s.takeWhile isHex) / 256), UInt8.ofNat (hexNumber (s.takeWhile isHex))], ellipsis)
  | v4 (v4 : Bytes) : parseIPv4 s = some v4 → ip.length + 4 ≤ 16 → GroupStep n ip ellipsis s (ip ++ v4, ellipsis)
  | ellipsisLast (k : Nat) : s.dropWhile isHex = [':', ':'] → ellipsis = none → k = ip.length + 2 →
      GroupStep n ip ellipsis s
      (ip ++ [UInt8.ofNat (hexNumber (s.takeWhile isHex) / 256), UInt8.ofNat (hexNumber (s.takeWhile isHex))], some k)
  | ellipsis (k : Nat) (rest : List Char) (r : Bytes × Option Nat) : s.dropWhile isHex = ':' :: ':' :: rest →
      ellipsis = none →
      k = ip.length + 2 →
      parseIPv6Groups n (ip ++
        [UInt8.ofNat (hexNumber (s.takeWhile isHex) / 256), UInt8.ofNat (hexNumber (s.takeWhile isHex))])
        (some k) rest = some r → GroupStep n ip ellipsis s r
  | next (rest : List Char) (r : Bytes × Option Nat) : s.dropWhile isHex = ':' :: rest →
      parseIPv6Groups n (ip ++
        [UInt8.ofNat (hexNumber (s.takeWhile isHex) / 256), UInt8.ofNat (hexNumber (s.takeWhile isHex))])
        ellipsis rest = some r → GroupStep n ip ellipsis s r

theorem groupStep (h : parseIPv6Groups (n + 1) ip ellipsis s = some r) : GroupStep n ip ellipsis s r := by
  rw [parseIPv6Groups] at h
  dsimp only at h
  split at h
  · cases h
  · split at h
    · rename_i hrest
      cases h
      exact .last hrest
    · split at h
      · cases h
      · rename_i hroom
        obtain ⟨v4, hv4, rfl⟩ := map_eq_some_iff.mp h
        exact .v4 v4 hv4 (by omega)
    · rename_i rest hrest
      split at h
      · cases h
      · rename_i hnone
        split at h
        · rename_i hnil
          subst hnil
          cases h
          exact .ellipsisLast _ hrest (not_not.mp hnone) (by simp)
        · exact .ellipsis _ rest r hrest (not_not.mp hnone) (by simp) h
    · exact .next _ r ‹_› h
    · cases h

theorem mem_of_dropWhile {t : List Char} (h : s.dropWhile isHex = t) (ht : ∀ c ∈ t, IsAddrChar c) :
    ∀ c ∈ s, IsAddrChar c := by
  intro c hc
  rw [← takeWhile_append_dropWhile (p := isHex) (l := s), h] at hc
  rcases mem_append.mp hc with hc | hc
  · exact .inl (List.all_eq_true.mp all_takeWhile c hc)
  · exact ht c hc

theorem mem_parseIPv6Groups (h : parseIPv6Groups n ip ellipsis s = some r) : ∀ c ∈ s, IsAddrChar c := by
  have hcolon : IsAddrChar ':' := .inr (.inr rfl)
  induction n generalizing ip ellipsis s with
  | zero =>
    rw [parseIPv6Groups] at h
    split at h
    · rename_i hnil
      rw [hnil]
      nofun
    · cases h
  | succ n ih =>
    cases groupStep h with
    | last hrest => exact mem_of_dropWhile hrest nofun
    | v4 v4 hv4 => exact isAddrChar_of_parseIPv4 hv4
    | ellipsisLast k hrest =>
      exact mem_of_dropWhile hrest (forall_mem_cons.mpr ⟨hcolon, forall_mem_singleton.mpr hcolon⟩)
    | ellipsis k rest _ hrest _ _ h =>
      exact mem_of_dropWhile hrest (forall_mem_cons.mpr ⟨hcolon, forall_mem_cons.mpr ⟨hcolon, ih h⟩⟩)
    | next rest _ hrest h => exact mem_of_dropWhile hrest (forall_mem_cons.mpr ⟨hcolon, ih h⟩)

theorem length_parseIPv6Groups
    (h : parseIPv6Groups n ip ellipsis s = some r) (hlen : ip.length + 2 * n = 16)
    (hell : ∀ k ∈ ellipsis, k ≤ ip.length) :
    r.1.length ≤ 16 ∧ ∀ k ∈ r.2, k ≤ r.1.length := by
  induction n generalizing ip ellipsis s with
  | zero =>
    rw [parseIPv6Groups] at h
    split at h <;> cases h
    exact ⟨le_of_eq hlen, hell⟩
  | succ n ih =>
    have hgrow : ∀ a b : UInt8, (ip ++ [a, b]).length = ip.length + 2 := fun a b => length_append
    have hell' : ∀ a b : UInt8, ∀ k ∈ ellipsis, k ≤ (ip ++ [a, b]).length := by
      intro a b k hk
      rw [hgrow]
      exact le_trans (hell k hk) (Nat.le_add_right _ 2)
    have hsome : ∀ a b : UInt8, ∀ j ∈ some (ip.length + 2), j ≤ (ip ++ [a, b]).length := by
      rintro a b _ ⟨⟩
      exact le_of_eq (hgrow a b).symm
    cases groupStep h with
    | last => exact ⟨by rw [hgrow]; omega, hell' _ _⟩
    | v4 v4 hv4 hroom =>
      have hv4len := length_parseIPv4 hv4
      refine ⟨by rw [length_append, hv4len]; exact hroom, fun k hk => ?_⟩
      rw [length_append]
      exact le_trans (hell k hk) (Nat.le_add_right _ _)
    | ellipsisLast k _ _ hk =>
      subst hk
      exact ⟨by rw [hgrow]; omega, hsome _ _⟩
    | ellipsis k rest _ _ _ hk h =>
      subst hk
      exact ih h (by rw [hgrow]; omega) (hsome _ _)
    | next rest _ _ h => exact ih h (by rw [hgrow]; omega) (hell' _ _)

theorem length_expandEllipsis (h : expandEllipsis ip ellipsis = some v6)
    (hlen : ip.length ≤ 16) (hell : ∀ k ∈ ellipsis, k ≤ ip.length) : v6.length = 16 := by
  cases ellipsis with
  | none =>
    rw [expandEllipsis] at h
    split at h <;> cases h
    omega
  | some k =>
    have hk := hell k rfl
    rw [expandEllipsis] at h
    split at h <;> cases h
    simp only [length_append, length_take, length_replicate, length_drop]
    omega

theorem parseIPv6_cases (h : parseIPv6 s = some v6) : (s = [':', ':'] ∧ v6 = replicate 16 0) ∨
      ∃ ellipsis t r, (ellipsis = some 0 ∧ s = ':' :: ':' :: t ∨ ellipsis = none ∧ s = t) ∧
        parseIPv6Groups 8 [] ellipsis t = some r ∧ expandEllipsis r.1 r.2 = some v6 := by
  unfold parseIPv6 at h
  split at h
  · cases h
  · split at h
    · cases h
      exact .inl ⟨rfl, rfl⟩
    · obtain ⟨r, hr, hv6⟩ := bind_eq_some_iff.mp h
      exact .inr ⟨some 0, _, r, .inl ⟨rfl, rfl⟩, hr, hv6⟩
    · obtain ⟨r, hr, hv6⟩ := bind_eq_some_iff.mp h
      exact .inr ⟨none, _, r, .inr ⟨rfl, rfl⟩, hr, hv6⟩

theorem length_parseIPv6 (h : parseIPv6 s = some v6) : v6.length = 16 := by
  rcases parseIPv6_cases h with ⟨-, rfl⟩ | ⟨ellipsis, t, r, hs, hr, hv6⟩
  · exact length_replicate
  · have hell : ∀ k ∈ ellipsis, k ≤ ([] : Bytes).length := by
      rcases hs with ⟨rfl, -⟩ | ⟨rfl, -⟩
      · rintro _ ⟨⟩
        exact le_refl 0
      · nofun
    obtain ⟨hlen, hell⟩ := length_parseIPv6Groups hr rfl hell
    exact length_expandEllipsis hv6 hlen hell

theorem isAddrChar_of_parseIPv6 (h : parseIPv6 s = some v6) : ∀ c ∈ s, IsAddrChar c := by
  have hcolon : IsAddrChar ':' := .inr (.inr rfl)
  rcases parseIPv6_cases h with ⟨rfl, -⟩ | ⟨ellipsis, t, r, ⟨-, rfl⟩ | ⟨-, rfl⟩, hr, -⟩
  · exact forall_mem_cons.mpr ⟨hcolon, forall_mem_singleton.mpr hcolon⟩
  · exact forall_mem_cons.mpr ⟨hcolon, forall_mem_cons.mpr ⟨hcolon, mem_parseIPv6Groups hr⟩⟩
  · exact mem_parseIPv6Groups hr

section
variable (h : parseAddr s = some addr)
include h

theorem parseAddr_cases :
    (∃ v4, parseIPv4 s = some v4 ∧ addr = ⟨v4InV6Prefix ++ v4, true⟩) ∨ ∃ v6, parseIPv6 s = some v6 ∧
    addr = ⟨v6, false⟩ := by
  unfold parseAddr at h
  split at h
  · split at h
    · obtain ⟨v4, hv4, rfl⟩ := map_eq_some_iff.mp h
      exact .inl ⟨v4, hv4, rfl⟩
    · split at h
      · obtain ⟨v6, hv6, rfl⟩ := map_eq_some_iff.mp h
        exact .inr ⟨v6, hv6, rfl⟩
      · cases h
  · cases h

theorem length_as16 : addr.as16.length = 16 := by
  rcases parseAddr_cases h with ⟨v4, hv4, rfl⟩ | ⟨v6, hv6, rfl⟩
  · rw [length_append, length_parseIPv4 hv4]
    rfl
  · exact length_parseIPv6 hv6

theorem isAddrChar_of_parseAddr : ∀ c ∈ s, IsAddrChar c := by
  rcases parseAddr_cases h with ⟨v4, hv4, -⟩ | ⟨v6, hv6, -⟩
  · exact isAddrChar_of_parseIPv4 hv4
  · exact isAddrChar_of_parseIPv6 hv6

end

theorem length_parseIP {ip : IP} (h : parseIP s = some ip) : ip.length = 16 := by
  obtain ⟨addr, haddr, rfl⟩ := map_eq_some_iff.mp h
  exact length_as16 haddr

theorem isAddrChar_of_parseIP {ip : IP} (h : parseIP s = some ip) : ∀ c ∈ s, IsAddrChar c := by
  obtain ⟨addr, haddr, -⟩ := map_eq_some_iff.mp h
  exact isAddrChar_of_parseAddr haddr

example : parseIP "10.1.0.255".toList = some (v4InV6Prefix ++ [10, 1, 0, 255]) := by decide
example : parseIP "fe80::1".toList = some [254, 128, 0, 0, 0, 0, 0, 0, 0, 0, 0, 0, 0, 0, 0, 1] := by decide
example : parseIP "::ffff:1.2.3.4".toList = some (v4InV6Prefix ++ [1, 2, 3, 4]) := by decide

end Net
