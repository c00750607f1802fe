import Whispera.Lib.Bytes
import Whispera.Lib.Text

/-! The addresses of Go's `net` package and their texts. -/

namespace Net
open List Text

/-- `net.IP`: four bytes, or sixteen, or whatever else a byte slice holds. -/
abbrev IP : Type := Bytes

def v4InV6Prefix : Bytes := [0, 0, 0, 0, 0, 0, 0, 0, 0, 0, 255, 255]

namespace IP

def to4 (ip : IP) : Option IP :=
  if ip.length = 4 then some ip
  else if ip.length = 16 ∧ ip.take 12 = v4InV6Prefix then some (ip.drop 12)
  else none

def equal (ip x : IP) : Bool :=
  if ip.length = x.length then ip = x
  else if ip.length = 4 ∧ x.length = 16 then x.take 12 = v4InV6Prefix ∧ ip = x.drop 12
  else if ip.length = 16 ∧ x.length = 4 then ip.take 12 = v4InV6Prefix ∧ ip.drop 12 = x
  else false

/-- An IPv4 address with four bytes, any other as it is. -/
def canon (ip : IP) : IP := (to4 ip).getD ip

end IP

/-- `net.IPNet`. -/
structure IPNet where
  ip : IP
  mask : Bytes
  deriving DecidableEq, Repr

namespace IPNet

def networkNumberAndMask (n : IPNet) : IP × Bytes :=
  let ip := n.ip.canon
  if ip.length ≠ 4 ∧ ip.length ≠ 16 then ([], [])
  else if n.mask.length = 4 then if ip.length ≠ 4 then ([], []) else (ip, n.mask)
  else if n.mask.length = 16 then if ip.length = 4 then (ip, n.mask.drop 12) else (ip, n.mask)
  else ([], [])

def contains (n : IPNet) (ip : IP) : Bool :=
  let (nn, m) := n.networkNumberAndMask
  let ip := ip.canon
  ip.length = nn.length ∧ zipWith (· &&& ·) nn m = zipWith (· &&& ·) ip m

end IPNet

def groups : Bytes → List Nat
  | a :: b :: rest => (a.toNat * 256 + b.toNat) :: groups rest
  | _ => []

def zeros (gs : List Nat) : Nat := (gs.takeWhile (· = 0)).length

/-- Where the first of the longest runs of two or more zero groups begins, and its length; zero if there is
    none. -/
def zeroRun (gs : List Nat) : Nat × Nat :=
  (range gs.length).foldl
    (fun best i => if 2 ≤ zeros (gs.drop i) ∧ best.2 < zeros (gs.drop i) then (i, zeros (gs.drop i)) else best) (0, 0)

def joinGroups (gs : List Nat) : List Char := join ':' (gs.map (Nat.toDigits 16))

/-- The text of an IPv6 address: `::` stands for the run of zeros. -/
def string6 (gs : List Nat) : List Char :=
  let (start, len) := zeroRun gs
  if len = 0 then joinGroups gs else joinGroups (gs.take start) ++ [':', ':'] ++ joinGroups (gs.drop (start + len))

def hexByte (b : UInt8) : List Char := [Nat.digitChar (b.toNat / 16), Nat.digitChar (b.toNat % 16)]

def string4 (ip : Bytes) : List Char := join '.' (ip.map fun b => Nat.toDigits 10 b.toNat)

def IP.string (ip : IP) : List Char :=
  if ip.length = 0 then ['<', 'n', 'i', 'l', '>']
  else
    match ip.to4 with
    | some ip4 => string4 ip4
    | none => if ip.length = 16 then string6 (groups ip) else '?' :: ip.flatMap hexByte

def joinHostPort (host port : List Char) : List Char :=
  if ':' ∈ host then '[' :: host ++ [']', ':'] ++ port else host ++ ':' :: port

/-- A `net.Addr`: one with a host, a port and a zone, or another, of which only the text is known. -/
inductive Addr
  | tcp (ip : IP) (port : Int) (zone : List Char)
  | udp (ip : IP) (port : Int) (zone : List Char)
  | other (text : List Char)
  deriving DecidableEq, Repr

namespace Addr

/-- `ipEmptyString`. -/
def hostString (ip : IP) : List Char := if ip.length = 0 then [] else ip.string

def hostPortString (ip : IP) (port : Int) (zone : List Char) : List Char :=
  joinHostPort (hostString ip ++ if zone = [] then [] else '%' :: zone) (itoa port)

def string : Addr → List Char
  | tcp ip port zone => hostPortString ip port zone
  | udp ip port zone => hostPortString ip port zone
  | other text => text

def inet : Addr → Option (IP × Int)
  | tcp ip port _ => some (ip, port)
  | udp ip port _ => some (ip, port)
  | other _ => none

end Addr

namespace IP

theorem canon_cases (ip : IP) : (ip.canon = ip ∧ ¬(ip.length = 16 ∧ ip.take 12 = v4InV6Prefix)) ∨
      (ip = v4InV6Prefix ++ ip.canon ∧ ip.canon.length = 4) := by
  unfold canon to4
  split
  · rename_i h4
    exact .inl ⟨rfl, by omega⟩
  · split
    · rename_i h16
      refine .inr ⟨?_, ?_⟩
      · rw [Option.getD_some, ← h16.2, take_append_drop]
      · rw [Option.getD_some, length_drop, h16.1]
    · rename_i h16
      exact .inl ⟨rfl, h16⟩

theorem length_v4InV6Prefix : v4InV6Prefix.length = 12 := rfl

theorem equal_iff {ip x : IP} : ip.equal x = true ↔ ip.canon = x.canon := by
  have hpre : ∀ {a b : IP}, a = v4InV6Prefix ++ b → b.length = 4 →
      a.length = 16 ∧ a.take 12 = v4InV6Prefix ∧ a.drop 12 = b := by
    intro a b ha hb
    subst ha
    exact ⟨by rw [length_append, length_v4InV6Prefix, hb], rfl, rfl⟩
  rcases ip.canon_cases with ⟨hi, hni⟩ | ⟨hi, hi4⟩ <;> rcases x.canon_cases with ⟨hx, hnx⟩ | ⟨hx, hx4⟩
  · rw [hi, hx, equal]
    split
    · simp
    · rename_i hlen
      have hne : ip ≠ x := fun h => hlen (congrArg length h)
      split
      · rename_i h
        have hp : x.take 12 ≠ v4InV6Prefix := fun hp => hnx ⟨h.2, hp⟩
        simp [hne, hp]
      · split
        · rename_i h
          have hp : ip.take 12 ≠ v4InV6Prefix := fun hp => hni ⟨h.1, hp⟩
          simp [hne, hp]
        · simp [hne]
  · obtain ⟨h16, htake, hdrop⟩ := hpre hx hx4
    rw [hi, equal, h16, htake, hdrop]
    by_cases h : ip.length = 16
    · have h1 : ip ≠ x := fun h' => hni ⟨h, by rw [h', htake]⟩
      have h2 : ip ≠ x.canon := fun h' => by rw [h', hx4] at h; cases h
      simp [h, h1, h2]
    · by_cases h4 : ip.length = 4
      · simp [h4]
      · have h2 : ip ≠ x.canon := fun h' => h4 (by rw [h', hx4])
        simp [h, h4, h2]
  · obtain ⟨h16, htake, hdrop⟩ := hpre hi hi4
    rw [hx, equal, h16, htake, hdrop]
    by_cases h : x.length = 16
    · have h1 : ip ≠ x := fun h' => hnx ⟨h, by rw [← h', htake]⟩
      have h2 : ip.canon ≠ x := fun h' => by rw [← h', hi4] at h; cases h
      simp [h, h1, h2]
    · by_cases h4 : x.length = 4
      · simp [h4]
      · have h2 : ip.canon ≠ x := fun h' => h4 (by rw [← h', hi4])
        simp [h, h4, h2, Ne.symm h]
  · obtain ⟨h16, -, -⟩ := hpre hi hi4
    obtain ⟨h16', -, -⟩ := hpre hx hx4
    rw [equal, h16, h16', if_pos rfl, decide_eq_true_iff]
    refine ⟨fun h => by rw [h], fun h => ?_⟩
    rw [hi, hx, h]

end IP

theorem length_groups : ∀ a : Bytes, (groups a).length = a.length / 2
  | [] => rfl
  | [_] => by simp [groups]
  | _ :: _ :: a => by
    rw [groups, length_cons, length_groups a, length_cons, length_cons]
    omega

theorem zeroRun_spec (gs : List Nat) : (zeroRun gs).2 = 0 ∨
    gs = gs.take (zeroRun gs).1 ++ replicate (zeroRun gs).2 0 ++ gs.drop ((zeroRun gs).1 + (zeroRun gs).2) := by
  unfold zeroRun
  refine List.foldlRecOn (motive := fun best : Nat × Nat =>
    best.2 = 0 ∨ gs = gs.take best.1 ++ replicate best.2 0 ++ gs.drop (best.1 + best.2)) _ _ (.inl rfl) ?_
  intro best hbest i _
  split
  · refine .inr ?_
    have hrun : ∀ l : List Nat, l = replicate (zeros l) 0 ++ l.drop (zeros l) := by
      intro l
      induction l with
      | nil => rfl
      | cons g l ih =>
        by_cases hg : g = 0
        · subst hg
          have : zeros (0 :: l) = zeros l + 1 := by simp [zeros]
          rw [this, replicate_succ, drop_succ_cons, cons_append, ← ih]
        · simp [zeros, hg]
    conv_lhs => rw [← take_append_drop i gs, hrun (gs.drop i), drop_drop]
    rw [append_assoc]
  · exact hbest

/-- The fields of a text, where `::` leaves an empty one, and two at an end of the text. -/
def ends (xs : List (List Char)) : List (List Char) := if xs = [] then [[]] else xs

def fields (gs : List Nat) : List (List Char) :=
  if (zeroRun gs).2 = 0 then gs.map (Nat.toDigits 16)
  else ends ((gs.take (zeroRun gs).1).map (Nat.toDigits 16)) ++
    [] :: ends ((gs.drop ((zeroRun gs).1 + (zeroRun gs).2)).map (Nat.toDigits 16))

theorem ends_ne_nil (xs : List (List Char)) : ends xs ≠ [] := by
  unfold ends
  split <;> simp [*]

theorem join_ends (xs : List (List Char)) : join ':' (ends xs) = join ':' xs := by
  unfold ends
  split
  · simp [*]
  · rfl

theorem string6_eq (gs : List Nat) : string6 gs = join ':' (fields gs) := by
  simp only [string6, fields, joinGroups]
  split
  · rfl
  · rw [join_append (ends_ne_nil _) (cons_ne_nil _ _), join_cons (ends_ne_nil _), join_ends, join_ends,
      append_assoc]
    rfl

variable {gs : List Nat} {c : Char}

theorem mem_fields {x : List Char} (h : x ∈ fields gs) : x = [] ∨ ∃ n, x = Nat.toDigits 16 n := by
  have hmap : ∀ {l : List Nat}, x ∈ l.map (Nat.toDigits 16) → ∃ n, x = Nat.toDigits 16 n := by
    intro l hx
    obtain ⟨n, -, rfl⟩ := mem_map.mp hx
    exact ⟨n, rfl⟩
  have hends : ∀ {l : List Nat}, x ∈ ends (l.map (Nat.toDigits 16)) → x = [] ∨ ∃ n, x = Nat.toDigits 16 n := by
    intro l hx
    unfold ends at hx
    split at hx
    · exact .inl (mem_singleton.mp hx)
    · exact .inr (hmap hx)
  unfold fields at h
  split at h
  · exact .inr (hmap h)
  · rcases mem_append.mp h with h | h
    · exact hends h
    · rcases mem_cons.mp h with h | h
      · exact .inl h
      · exact hends h

def IsDigit (c : Char) : Prop := ∃ d < 16, c = Nat.digitChar d

theorem isDigit_of_mem {b n : Nat} (hb : 1 < b) (hb' : b ≤ 16) (h : c ∈ Nat.toDigits b n) : IsDigit c := by
  obtain ⟨d, hd, rfl⟩ := mem_toDigits hb h
  exact ⟨d, Nat.lt_of_lt_of_le hd hb', rfl⟩

theorem not_isDigit (h : ∀ d : Fin 16, c ≠ Nat.digitChar d) : ¬IsDigit c := by
  rintro ⟨d, hd, hc⟩
  exact h ⟨d, hd⟩ hc

theorem mem_join {sep : Char} {xs : List (List Char)} (h : c ∈ join sep xs) : c = sep ∨ ∃ x ∈ xs, c ∈ x := by
  induction xs with
  | nil => cases h
  | cons x xs ih =>
    by_cases hxs : xs = []
    · subst hxs
      exact .inr ⟨x, mem_cons_self, by simpa using h⟩
    · rw [join_cons hxs] at h
      rcases mem_append.mp h with h | h
      · exact .inr ⟨x, mem_cons_self, h⟩
      · rcases mem_cons.mp h with h | h
        · exact .inl h
        · rcases ih h with h | ⟨y, hy, h⟩
          · exact .inl h
          · exact .inr ⟨y, mem_cons_of_mem x hy, h⟩

theorem mem_string4 {ip : Bytes} (h : c ∈ string4 ip) : c = '.' ∨ IsDigit c := by
  rcases mem_join h with h | ⟨x, hx, h⟩
  · exact .inl h
  · obtain ⟨b, -, rfl⟩ := mem_map.mp hx
    exact .inr (isDigit_of_mem (by decide) (by decide) h)

theorem mem_string6 (h : c ∈ string6 gs) : c = ':' ∨ IsDigit c := by
  rw [string6_eq] at h
  rcases mem_join h with h | ⟨x, hx, h⟩
  · exact .inl h
  · rcases mem_fields hx with rfl | ⟨n, rfl⟩
    · cases h
    · exact .inr (isDigit_of_mem (by decide) (by decide) h)

theorem sep_mem_join {sep : Char} : ∀ {xs : List (List Char)}, 2 ≤ xs.length → sep ∈ join sep xs
  | x :: y :: xs, _ => by
    rw [join_cons (cons_ne_nil y xs)]
    exact mem_append_right _ mem_cons_self
  | [_], h => by simp at h
  | [], h => by simp at h

theorem colon_mem_string6 (h : 2 ≤ gs.length) : ':' ∈ string6 gs := by
  rw [string6_eq]
  refine sep_mem_join ?_
  unfold fields
  split
  · rwa [length_map]
  · have := length_pos_of_ne_nil (ends_ne_nil ((gs.take (zeroRun gs).1).map (Nat.toDigits 16)))
    rw [length_append, length_cons]
    omega

theorem flatMap_hexByte_inj : ∀ {a b : Bytes}, a.flatMap hexByte = b.flatMap hexByte → a = b
  | [], [], _ => rfl
  | [], _ :: _, h => by simp [hexByte] at h
  | _ :: _, [], h => by simp [hexByte] at h
  | x :: a, y :: b, h => by
    simp only [flatMap_cons, hexByte, cons_append, nil_append, cons.injEq] at h
    have hx := x.toNat_lt
    have hy := y.toNat_lt
    have hhi := digitChar_inj (by omega) (by omega) h.1
    have hlo := digitChar_inj (by omega) (by omega) h.2.1
    rw [flatMap_hexByte_inj h.2.2, UInt8.toNat_inj.mp (show x.toNat = y.toNat by omega)]

theorem isDigit_of_mem_hexBytes {l : Bytes} (h : c ∈ l.flatMap hexByte) : IsDigit c := by
  obtain ⟨b, -, hb⟩ := mem_flatMap.mp h
  have hlt := b.toNat_lt
  rcases mem_pair.mp hb with rfl | rfl
  · exact ⟨_, by omega, rfl⟩
  · exact ⟨_, by omega, rfl⟩

namespace IP

/-- A character that tells the four kinds of texts apart. -/
def mark (s : List Char) : Char := if '<' ∈ s then '<' else if '?' ∈ s then '?' else if ':' ∈ s then ':' else '.'

theorem string_cases (ip : IP) : (ip = [] ∧ ip.string = ['<', 'n', 'i', 'l', '>'] ∧ mark ip.string = '<') ∨
      (ip.canon.length = 4 ∧ ip.string = string4 ip.canon ∧ mark ip.string = '.') ∨
      (ip.canon = ip ∧ ip.length = 16 ∧ ip.string = string6 (groups ip) ∧ mark ip.string = ':') ∨
      (ip.canon = ip ∧ ip.string = '?' :: ip.flatMap hexByte ∧ mark ip.string = '?') := by
  have h4 : ∀ {l : Bytes} {c : Char}, c ≠ '.' → ¬IsDigit c → c ∉ string4 l :=
    fun hc hd h => (mem_string4 h).elim hc hd
  have h6 : ∀ {gs : List Nat} {c : Char}, c ≠ ':' → ¬IsDigit c → c ∉ string6 gs :=
    fun hc hd h => (mem_string6 h).elim hc hd
  unfold string canon
  split
  · rename_i h
    exact .inl ⟨eq_nil_of_length_eq_zero h, rfl, rfl⟩
  · refine .inr ?_
    cases hip4 : ip.to4 with
    | some ip4 =>
      refine .inl ⟨?_, rfl, ?_⟩
      · show ip4.length = 4
        unfold to4 at hip4
        split at hip4
        · cases hip4
          assumption
        · split at hip4 <;> cases hip4
          rename_i h16
          rw [length_drop, h16.1]
      · rw [mark, if_neg (h4 (by decide) (not_isDigit (by decide))), if_neg (h4 (by decide) (not_isDigit (by decide))),
          if_neg (h4 (by decide) (not_isDigit (by decide)))]
    | none =>
      by_cases h16 : ip.length = 16
      · refine .inr (.inl ⟨rfl, h16, by simp [h16], ?_⟩)
        simp only [h16, if_true]
        rw [mark, if_neg (h6 (by decide) (not_isDigit (by decide))), if_neg (h6 (by decide) (not_isDigit (by decide))),
          if_pos (colon_mem_string6 (by rw [length_groups, h16]; decide))]
      · refine .inr (.inr ⟨rfl, by simp [h16], ?_⟩)
        simp only [h16, if_false]
        rw [mark, if_neg ?_, if_pos mem_cons_self]
        intro h
        rcases mem_cons.mp h with h | h
        · exact absurd h (by decide)
        · exact not_isDigit (by decide) (isDigit_of_mem_hexBytes h)

theorem notMem_string {ip : IP} (hc : c ∉ ['<', 'n', 'i', 'l', '>', '?', '.', ':']) (hd : ¬IsDigit c) :
    c ∉ ip.string := by
  intro h
  rcases ip.string_cases with ⟨-, hs, -⟩ | ⟨-, hs, -⟩ | ⟨-, -, hs, -⟩ | ⟨-, hs, -⟩ <;> rw [hs] at h
  · exact hc (mem_of_mem_take (i := 5) h)
  · rcases mem_string4 h with rfl | h
    · exact hc (by simp)
    · exact hd h
  · rcases mem_string6 h with rfl | h
    · exact hc (by simp)
    · exact hd h
  · rcases mem_cons.mp h with rfl | h
    · exact hc (by simp)
    · exact hd (isDigit_of_mem_hexBytes h)

end IP

namespace Addr

theorem notMem_hostString {ip : IP} (hc : c ∉ ['<', 'n', 'i', 'l', '>', '?', '.', ':']) (hd : ¬IsDigit c) :
    c ∉ hostString ip := by
  unfold hostString
  split
  · exact not_mem_nil
  · exact IP.notMem_string hc hd

theorem string_ne_nil (ip : IP) : ip.string ≠ [] := by
  rcases ip.string_cases with ⟨-, hs, -⟩ | ⟨hl, hs, -⟩ | ⟨-, hl, hs, -⟩ | ⟨-, hs, -⟩ <;> rw [hs]
  · exact cons_ne_nil _ _
  · exact ne_nil_of_mem (sep_mem_join (by rw [length_map, hl]; decide))
  · exact ne_nil_of_mem (colon_mem_string6 (by rw [length_groups, hl]; decide))
  · exact cons_ne_nil _ _

theorem joinHostPort_inj {host host' port port' : List Char} (hp : ':' ∉ port) (hp' : ':' ∉ port')
    (h : joinHostPort host port = joinHostPort host' port') : host = host' ∧ port = port' := by
  -- read from the back, the port comes first
  have hback : ∀ {x x' : List Char}, x ++ ':' :: port = x' ++ ':' :: port' → x = x' ∧ port = port' := by
    intro x x' hx
    have := congrArg reverse hx
    simp only [reverse_append, reverse_cons, append_assoc, singleton_append] at this
    obtain ⟨hport, hx⟩ := append_cons_inj (by rwa [mem_reverse]) (by rwa [mem_reverse]) this
    exact ⟨reverse_injective hx, reverse_injective hport⟩
  have hsplit : ∀ host port : List Char, '[' :: host ++ [']', ':'] ++ port = ('[' :: host ++ [']']) ++ ':' :: port :=
    fun host port => by simp
  -- a host without brackets around it has no colon, also not inside brackets of its own
  unfold joinHostPort at h
  split at h <;> split at h
  · rw [hsplit, hsplit] at h
    obtain ⟨hhost, hport⟩ := hback h
    exact ⟨append_cancel_right (tail_eq_of_cons_eq hhost), hport⟩
  · rename_i hcolon hnone
    rw [hsplit] at h
    exact absurd (by rw [← (hback h).1]; simp [hcolon]) hnone
  · rename_i hnone hcolon
    rw [hsplit] at h
    exact absurd (by rw [(hback h).1]; simp [hcolon]) hnone
  · exact hback h

theorem colon_notMem_itoa {n : Int} : ':' ∉ itoa n := by
  intro hn
  rcases mem_itoa hn with hn | ⟨d, hd, hn⟩
  · exact absurd hn (by decide)
  · exact not_isDigit (by decide) ⟨d, by omega, hn⟩

end Addr
end Net
