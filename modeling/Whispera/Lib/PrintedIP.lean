import Whispera.Lib.ParseIP

/-! Parsing gives back the address that was printed. -/

namespace Net
open List Text

theorem digitChar_decimal {d : Nat} (h : d < 10) :
    isDecimal (Nat.digitChar d) = true ∧ (Nat.digitChar d).toNat - 48 = d := by
  have hall : ∀ d : Fin 10, isDecimal (Nat.digitChar d) = true ∧ (Nat.digitChar d).toNat - 48 = d := by decide
  exact hall ⟨d, h⟩

theorem digitChar_hex {d : Nat} (h : d < 16) : isHex (Nat.digitChar d) = true ∧ hexDigit (Nat.digitChar d) = d := by
  have hall : ∀ d : Fin 16, isHex (Nat.digitChar d) = true ∧ hexDigit (Nat.digitChar d) = d := by decide
  exact hall ⟨d, h⟩

variable {s : List Char} {gs : List Nat}

theorem find_mark {sep : Char} (hsep : sep = '.' ∨ sep = ':' ∨ sep = '%') (hmem : sep ∈ s)
    (hs : ∀ c, c ∈ s → c = sep ∨ IsDigit c) : s.find? (fun c => c = '.' ∨ c = ':' ∨ c = '%') = some sep := by
  cases hfind : s.find? (fun c => c = '.' ∨ c = ':' ∨ c = '%') with
  | none => exact absurd (decide_eq_true hsep) (find?_eq_none.mp hfind sep hmem)
  | some c =>
    have hc := find?_some hfind
    rcases hs c (mem_of_find?_eq_some hfind) with rfl | ⟨d, hd, rfl⟩
    · rfl
    · have hall : ∀ d : Fin 16, ¬(Nat.digitChar d = '.' ∨ Nat.digitChar d = ':' ∨ Nat.digitChar d = '%') := by decide
      exact absurd (of_decide_eq_true hc) (hall ⟨d, hd⟩)

theorem parseIPv4Fields_digit {val digLen d : Nat} {fields : Bytes} (hd : d < 10)
    (hzero : ¬(digLen = 1 ∧ val = 0)) (hmax : val * 10 + d ≤ 255) :
    parseIPv4Fields val digLen fields (Nat.digitChar d :: s) =
    parseIPv4Fields (val * 10 + d) (digLen + 1) fields s := by
  obtain ⟨hdec, hval⟩ := digitChar_decimal hd
  rw [parseIPv4Fields, if_pos hdec, if_neg hzero, hval, if_neg (not_lt.mpr hmax)]

theorem parseIPv4Fields_number (fields : Bytes) {n : Nat} (hn : n ≤ 255) (s : List Char) : ∃ digLen, 0 < digLen ∧
    parseIPv4Fields 0 0 fields (Nat.toDigits 10 n ++ s) = parseIPv4Fields n digLen fields s := by
  -- Of a number of more than one digit, what stands before the last one is not zero.
  have hpos : ∀ {n : Nat} {s : List Char}, 0 < n → n ≤ 255 → ∃ digLen, 0 < digLen ∧
      parseIPv4Fields 0 0 fields (Nat.toDigits 10 n ++ s) = parseIPv4Fields n digLen fields s := by
    intro n
    induction n using Nat.strongRecOn with
    | ind n ih =>
      intro s hpos hn
      rw [Nat.toDigits_eq_if (by decide)]
      split
      · rename_i hlt
        refine ⟨1, Nat.zero_lt_one, ?_⟩
        rw [singleton_append, parseIPv4Fields_digit hlt (by omega) (by omega), zero_mul, zero_add]
      · obtain ⟨digLen, hlen, heq⟩ := ih (n / 10) (by omega) (s := Nat.digitChar (n % 10) :: s) (by omega) (by omega)
        refine ⟨digLen + 1, Nat.succ_pos _, ?_⟩
        rw [append_assoc, singleton_append, heq,
          parseIPv4Fields_digit (Nat.mod_lt n (by decide)) (by omega) (by omega)]
        congr 1
        omega
  rcases Nat.eq_zero_or_pos n with rfl | h
  · refine ⟨1, Nat.zero_lt_one, ?_⟩
    rw [show Nat.toDigits 10 0 = [Nat.digitChar 0] from rfl, singleton_append,
      parseIPv4Fields_digit (by decide) (by decide) (by decide)]
  · exact hpos h hn

theorem parseIPv4Fields_string4 {l : Bytes} (hl : l ≠ []) {fields : Bytes} (hlen : fields.length + l.length = 4) :
    parseIPv4Fields 0 0 fields (string4 l) = some (fields ++ l) := by
  induction l generalizing fields with
  | nil => exact absurd rfl hl
  | cons b l ih =>
    have hb : b.toNat ≤ 255 := Nat.le_of_lt_succ b.toNat_lt
    rw [length_cons] at hlen
    by_cases hnil : l = []
    · subst hnil
      obtain ⟨digLen, -, heq⟩ := parseIPv4Fields_number fields hb []
      rw [append_nil] at heq
      rw [show string4 [b] = Nat.toDigits 10 b.toNat from append_nil _, heq, parseIPv4Fields, if_neg, UInt8.ofNat_toNat]
      rw [length_nil] at hlen
      omega
    · have hjoin : string4 (b :: l) = Nat.toDigits 10 b.toNat ++ '.' :: string4 l := by
        rw [string4, map_cons, join_cons (by simpa using hnil)]
        rfl
      have hpos := length_pos_of_ne_nil hnil
      have hne : string4 l ≠ [] := by
        cases l with
        | nil => exact absurd rfl hnil
        | cons c l => exact join_ne_nil Nat.toDigits_ne_nil _
      obtain ⟨digLen, hdig, heq⟩ := parseIPv4Fields_number fields hb ('.' :: string4 l)
      rw [hjoin, heq, parseIPv4Fields, if_neg (by decide), if_pos rfl,
        if_neg (by rw [not_or]; exact ⟨Nat.ne_of_gt hdig, hne⟩),
        if_neg (by omega), UInt8.ofNat_toNat, ih hnil (by rw [length_append, length_singleton]; omega),
        append_assoc, singleton_append]

theorem parseAddr_string4 {ip : Bytes} (h : ip.length = 4) :
    parseAddr (string4 ip) = some ⟨v4InV6Prefix ++ ip, true⟩ := by
  have hne : ip ≠ [] := ne_nil_of_length_pos (by omega)
  have hdot : '.' ∈ string4 ip := sep_mem_join (by rw [length_map, h]; decide)
  have hfind := find_mark (by decide) hdot fun c hc => mem_string4 hc
  have hparse : parseIPv4 (string4 ip) = some ip := parseIPv4Fields_string4 hne (by rw [h]; rfl)
  unfold parseAddr
  rw [hfind]
  simp only [if_true, hparse, Option.map_some]

def ungroup (gs : List Nat) : Bytes := gs.flatMap fun g => [UInt8.ofNat (g / 256), UInt8.ofNat g]

theorem ungroup_groups : ∀ (ip : Bytes), ip.length % 2 = 0 → ungroup (groups ip) = ip
  | [], _ => rfl
  | [_], h => by simp at h
  | a :: b :: ip, h => by
    have hb := b.toNat_lt
    have hdiv : (a.toNat * 256 + b.toNat) / 256 = a.toNat := by omega
    have hmod : UInt8.ofNat (a.toNat * 256 + b.toNat) = b := by
      refine UInt8.toNat_inj.mp ?_
      rw [UInt8.toNat_ofNat']
      omega
    have ih := ungroup_groups ip (by simp only [length_cons] at h; omega)
    rw [groups, ungroup, flatMap_cons, hdiv, hmod, UInt8.ofNat_toNat]
    exact congrArg (fun l => a :: b :: l) ih

theorem ungroup_cons (g : Nat) (gs : List Nat) :
    ungroup (g :: gs) = [UInt8.ofNat (g / 256), UInt8.ofNat g] ++ ungroup gs :=
  flatMap_cons

theorem length_ungroup (gs : List Nat) : (ungroup gs).length = 2 * gs.length := by
  induction gs with
  | nil => rfl
  | cons g gs ih =>
    rw [ungroup, flatMap_cons, length_append, length_cons, ← ungroup, ih]
    simp only [length_cons, length_nil]
    omega

theorem mem_groups_lt : ∀ {ip : Bytes}, ∀ g ∈ groups ip, g < 65536
  | [], _, h => by cases h
  | [_], _, h => by cases h
  | a :: b :: ip, g, h => by
    have ha := a.toNat_lt
    have hb := b.toNat_lt
    rcases mem_cons.mp h with rfl | h
    · omega
    · exact mem_groups_lt g h

theorem hexNumber_toDigits (n : Nat) : hexNumber (Nat.toDigits 16 n) = n :=
  foldl_toDigits (by decide) (fun _ hd => (digitChar_hex hd).2) n

theorem span_group {g : Nat} (hs : ∀ c, s.head? = some c → isHex c = false) :
    (Nat.toDigits 16 g ++ s).takeWhile isHex = Nat.toDigits 16 g ∧ (Nat.toDigits 16 g ++ s).dropWhile isHex = s := by
  have hdigits : ∀ c ∈ Nat.toDigits 16 g, isHex c = true := by
    intro c hc
    obtain ⟨d, hd, rfl⟩ := mem_toDigits (by decide) hc
    exact (digitChar_hex hd).1
  have hstop : s.takeWhile isHex = [] ∧ s.dropWhile isHex = s := by
    cases s with
    | nil => exact ⟨rfl, rfl⟩
    | cons c s =>
      have hc := hs c rfl
      exact ⟨takeWhile_cons_of_neg (by simp [hc]), dropWhile_cons_of_neg (by simp [hc])⟩
  constructor
  · rw [takeWhile_append_of_pos hdigits, hstop.1, append_nil]
  · rw [dropWhile_append_of_pos hdigits, hstop.2]

theorem joinGroups_cons {g : Nat} (h : gs ≠ []) : joinGroups (g :: gs) = Nat.toDigits 16 g ++ ':' :: joinGroups gs := by
  rw [joinGroups, map_cons, join_cons (by simpa using h)]
  rfl

theorem ne_colon_of_isHex {c : Char} (h : isHex c = true) : c ≠ ':' := by
  rintro rfl
  exact absurd h (by decide)

theorem joinGroups_head (g : Nat) (gs : List Nat) : ∃ c s, joinGroups (g :: gs) = c :: s ∧ isHex c = true := by
  obtain ⟨c, s, hcs⟩ := exists_cons_of_ne_nil Nat.toDigits_ne_nil
  obtain ⟨d, hd, rfl⟩ := mem_toDigits (b := 16) (n := g) (c := c) (by decide) (hcs ▸ mem_cons_self)
  by_cases hgs : gs = []
  · subst hgs
    exact ⟨_, s, (append_nil _).trans hcs, (digitChar_hex hd).1⟩
  · exact ⟨_, s ++ ':' :: joinGroups gs, by rw [joinGroups_cons hgs, hcs, cons_append], (digitChar_hex hd).1⟩

section
variable {n g : Nat} {ip : Bytes} {ellipsis : Option Nat}

theorem group_fits (hg : g < 65536) : ¬(Nat.toDigits 16 g = [] ∨ 4 < (Nat.toDigits 16 g).length) :=
  not_or.mpr ⟨Nat.toDigits_ne_nil, not_lt.mpr ((Nat.length_toDigits_le_iff (by decide) (by decide)).mpr hg)⟩

theorem parseIPv6Groups_last (hg : g < 65536) :
    parseIPv6Groups (n + 1) ip ellipsis (Nat.toDigits 16 g) =
    some (ip ++ [UInt8.ofNat (g / 256), UInt8.ofNat g], ellipsis) := by
  have hspan := span_group (g := g) (s := []) nofun
  rw [append_nil] at hspan
  rw [parseIPv6Groups, hspan.1, hspan.2]
  simp only [hexNumber_toDigits, if_neg (group_fits hg)]

theorem parseIPv6Groups_next (hg : g < 65536) {c : Char} (hc : c ≠ ':') :
    parseIPv6Groups (n + 1) ip ellipsis (Nat.toDigits 16 g ++ ':' :: c :: s) =
      parseIPv6Groups n (ip ++ [UInt8.ofNat (g / 256), UInt8.ofNat g]) ellipsis (c :: s) := by
  have hspan := span_group (g := g) (s := ':' :: c :: s) (by rintro _ ⟨⟩; decide)
  rw [parseIPv6Groups, hspan.1, hspan.2]
  simp only [hexNumber_toDigits, if_neg (group_fits hg)]

theorem parseIPv6Groups_ellipsis (hg : g < 65536) (s : List Char) :
    parseIPv6Groups (n + 1) ip none (Nat.toDigits 16 g ++ ':' :: ':' :: s) =
      if s = [] then some (ip ++ [UInt8.ofNat (g / 256), UInt8.ofNat g], some (ip.length + 2))
      else parseIPv6Groups n (ip ++ [UInt8.ofNat (g / 256), UInt8.ofNat g]) (some (ip.length + 2)) s := by
  have hspan := span_group (g := g) (s := ':' :: ':' :: s) (by rintro _ ⟨⟩; decide)
  rw [parseIPv6Groups, hspan.1, hspan.2, if_neg (group_fits hg)]
  simp [hexNumber_toDigits]

theorem parseIPv6Groups_joinGroups (hne : gs ≠ []) (hgs : ∀ g ∈ gs, g < 65536) (hn : gs.length ≤ n) :
    parseIPv6Groups n ip ellipsis (joinGroups gs) = some (ip ++ ungroup gs, ellipsis) := by
  induction gs generalizing n ip with
  | nil => exact absurd rfl hne
  | cons g gs ih =>
    obtain ⟨hg, hgs⟩ := forall_mem_cons.mp hgs
    obtain ⟨n, rfl⟩ := Nat.exists_eq_succ_of_ne_zero (Nat.ne_of_gt (lt_of_lt_of_le (Nat.succ_pos _) hn))
    cases gs with
    | nil => exact (congrArg _ (append_nil _)).trans (parseIPv6Groups_last hg)
    | cons g' gs =>
      obtain ⟨c, s, hcs, hc⟩ := joinGroups_head g' gs
      rw [joinGroups_cons (cons_ne_nil _ _), hcs, parseIPv6Groups_next hg (ne_colon_of_isHex hc), ← hcs,
        ih (cons_ne_nil _ _) hgs (Nat.le_of_succ_le_succ hn), ungroup_cons g, append_assoc]

theorem parseIPv6Groups_joinEllipsis (hne : gs ≠ []) (hgs : ∀ g ∈ gs, g < 65536) (hn : gs.length ≤ n) (s : List Char) :
    parseIPv6Groups n ip none (joinGroups gs ++ ':' :: ':' :: s) =
      if s = [] then some (ip ++ ungroup gs, some (ip.length + 2 * gs.length))
      else parseIPv6Groups (n - gs.length) (ip ++ ungroup gs) (some (ip.length + 2 * gs.length)) s := by
  induction gs generalizing n ip with
  | nil => exact absurd rfl hne
  | cons g gs ih =>
    obtain ⟨hg, hgs⟩ := forall_mem_cons.mp hgs
    obtain ⟨n, rfl⟩ := Nat.exists_eq_succ_of_ne_zero (Nat.ne_of_gt (lt_of_lt_of_le (Nat.succ_pos _) hn))
    cases gs with
    | nil =>
      rw [show joinGroups [g] = Nat.toDigits 16 g from append_nil _, parseIPv6Groups_ellipsis hg]
      rfl
    | cons g' gs =>
      obtain ⟨c, t, hct, hc⟩ := joinGroups_head g' gs
      have hlen : ip.length + 2 * (g :: g' :: gs).length = (ip ++ [UInt8.ofNat (g / 256), UInt8.ofNat g]).length +
          2 * (g' :: gs).length := by
        rw [length_append, length_cons]
        simp only [length_cons, length_nil]
        omega
      rw [joinGroups_cons (cons_ne_nil _ _), append_assoc, cons_append, hct, cons_append,
        parseIPv6Groups_next hg (ne_colon_of_isHex hc), ← cons_append, ← hct,
        ih (cons_ne_nil _ _) hgs (Nat.le_of_succ_le_succ hn), hlen,
        ungroup_cons g, append_assoc, length_cons (a := g), Nat.succ_sub_succ]

end

theorem expandEllipsis_ungroup {l r : List Nat} {k : Nat} (hlen : l.length + k + r.length = 8) (hk : 0 < k) :
    expandEllipsis (ungroup l ++ ungroup r) (some (2 * l.length)) = some (ungroup (l ++ replicate k 0 ++ r)) := by
  have hzeros : ungroup (replicate k 0) = replicate (2 * k) 0 := by
    clear hlen hk
    induction k with
    | zero => rfl
    | succ k ih =>
      rw [replicate_succ, ungroup, flatMap_cons, ← ungroup, ih, Nat.mul_succ, add_comm (2 * k), replicate_add]
      rfl
  have happend : ∀ a b : List Nat, ungroup (a ++ b) = ungroup a ++ ungroup b := fun a b => flatMap_append
  have hsize : (ungroup l ++ ungroup r).length = 16 - 2 * k := by
    rw [length_append, length_ungroup, length_ungroup]
    omega
  have hleft := length_ungroup l
  rw [expandEllipsis, if_pos (by omega), hsize, take_left' hleft, drop_left' hleft, happend, happend, hzeros,
    show 16 - (16 - 2 * k) = 2 * k by omega]

theorem parseIPv6_digit {c : Char} (hzone : '%' ∉ c :: s) (hc : isHex c = true) :
    parseIPv6 (c :: s) = (parseIPv6Groups 8 [] none (c :: s)).bind fun r => expandEllipsis r.1 r.2 := by
  unfold parseIPv6
  rw [if_neg hzone]
  split
  · rename_i heq
    exact absurd (head_eq_of_cons_eq heq) (ne_colon_of_isHex hc)
  · rename_i heq
    exact absurd (head_eq_of_cons_eq heq) (ne_colon_of_isHex hc)
  · rfl

theorem parseIPv6_ellipsis (hzone : '%' ∉ ':' :: ':' :: s) (hs : s ≠ []) :
    parseIPv6 (':' :: ':' :: s) = (parseIPv6Groups 8 [] (some 0) s).bind fun r => expandEllipsis r.1 r.2 := by
  obtain ⟨c, s, rfl⟩ := exists_cons_of_ne_nil hs
  unfold parseIPv6
  rw [if_neg hzone]
  rfl

theorem joinGroups_ne_nil (h : gs ≠ []) : joinGroups gs ≠ [] := by
  obtain ⟨g, gs, rfl⟩ := exists_cons_of_ne_nil h
  obtain ⟨c, s, hcs, -⟩ := joinGroups_head g gs
  rw [hcs]
  exact cons_ne_nil c s

theorem parseIPv6_around {l r : List Nat} {k : Nat} (hlen : l.length + k + r.length = 8) (hk : 0 < k)
    (hl : ∀ g ∈ l, g < 65536)
    (hr : ∀ g ∈ r, g < 65536) (hzone : '%' ∉ joinGroups l ++ ':' :: ':' :: joinGroups r) :
    parseIPv6 (joinGroups l ++ ':' :: ':' :: joinGroups r) = some (ungroup (l ++ replicate k 0 ++ r)) := by
  have hexpand := expandEllipsis_ungroup hlen hk
  cases l with
  | nil =>
    by_cases hrnil : r = []
    · subst hrnil
      obtain rfl : k = 8 := by simpa using hlen
      rfl
    · rw [show joinGroups [] = [] from rfl, nil_append] at hzone ⊢
      rw [parseIPv6_ellipsis hzone (joinGroups_ne_nil hrnil), parseIPv6Groups_joinGroups hrnil hr (by omega)]
      exact hexpand
  | cons g l =>
    obtain ⟨c, s, hcs, hc⟩ := joinGroups_head g l
    have hparse : parseIPv6Groups 8 [] none (joinGroups (g :: l) ++ ':' :: ':' :: joinGroups r) =
        some (ungroup (g :: l) ++ ungroup r, some (2 * (g :: l).length)) := by
      rw [parseIPv6Groups_joinEllipsis (cons_ne_nil g l) hl (by omega)]
      by_cases hrnil : r = []
      · subst hrnil
        rw [if_pos (by rfl)]
        simp [ungroup]
      · rw [if_neg (joinGroups_ne_nil hrnil), parseIPv6Groups_joinGroups hrnil hr (by omega)]
        simp
    rw [hcs, cons_append] at hzone hparse ⊢
    rw [parseIPv6_digit hzone hc, hparse]
    exact hexpand

theorem parseIPv6_string6 (hlen : gs.length = 8) (hgs : ∀ g ∈ gs, g < 65536) :
    parseIPv6 (string6 gs) = some (ungroup gs) := by
  have hzone : '%' ∉ string6 gs := by
    intro h
    rcases mem_string6 h with h | h
    · exact absurd h (by decide)
    · exact not_isDigit (by decide) h
  have hrun := zeroRun_spec gs
  unfold string6 at hzone ⊢
  dsimp only at hzone ⊢
  by_cases hzero : (zeroRun gs).2 = 0
  · rw [if_pos hzero] at hzone ⊢
    have hne : gs ≠ [] := ne_nil_of_length_pos (by omega)
    obtain ⟨g, gs, rfl⟩ := exists_cons_of_ne_nil hne
    have hparse : parseIPv6Groups 8 [] none (joinGroups (g :: gs)) = _ := parseIPv6Groups_joinGroups hne hgs (by omega)
    obtain ⟨c, s, hcs, hc⟩ := joinGroups_head g gs
    rw [hcs] at hzone hparse ⊢
    rw [parseIPv6_digit hzone hc, hparse]
    simp [expandEllipsis, length_ungroup, hlen]
  · have hsplit := hrun.resolve_left hzero
    rw [if_neg hzero, append_assoc] at hzone ⊢
    have hsum : (gs.take (zeroRun gs).1).length + (zeroRun gs).2 +
        (gs.drop ((zeroRun gs).1 + (zeroRun gs).2)).length = 8 := by
      have := congrArg length hsplit
      rw [length_append, length_append, length_replicate] at this
      omega
    have hparse := parseIPv6_around hsum (Nat.pos_of_ne_zero hzero) (fun g hg => hgs g (mem_of_mem_take hg))
      (fun g hg => hgs g (mem_of_mem_drop hg)) hzone
    rw [← hsplit] at hparse
    exact hparse

theorem parseAddr_string6 {ip : Bytes} (h : ip.length = 16) : parseAddr (string6 (groups ip)) = some ⟨ip, false⟩ := by
  have hlen : (groups ip).length = 8 := by rw [length_groups, h]
  have hfind := find_mark (by decide) (colon_mem_string6 (by rw [hlen]; decide)) fun c hc => mem_string6 hc
  have hparse := parseIPv6_string6 hlen fun g hg => mem_groups_lt g hg
  rw [ungroup_groups _ (by rw [h])] at hparse
  unfold parseAddr
  rw [hfind]
  simp [hparse]

theorem parseIP_string {ip x : IP} (h : parseIP ip.string = some x) : x.equal ip = true := by
  have hchar := isAddrChar_of_parseIP h
  rw [IP.equal_iff]
  rcases ip.string_cases with ⟨-, hs, -⟩ | ⟨hlen, hs, -⟩ | ⟨hcanon, hlen, hs, -⟩ | ⟨-, hs, -⟩
  · rw [hs] at hchar
    exact absurd (hchar '<' mem_cons_self) (by unfold IsAddrChar; decide)
  · rw [hs, parseIP, parseAddr_string4 hlen] at h
    cases h
    have hprefixed : IP.canon (v4InV6Prefix ++ ip.canon) = ip.canon := by
      rw [IP.canon, IP.to4, if_neg (by rw [length_append, hlen]; decide), if_pos]
      · rfl
      · exact ⟨by rw [length_append, hlen]; rfl, rfl⟩
    exact hprefixed
  · rw [hs, parseIP, parseAddr_string6 hlen] at h
    cases h
    rfl
  · rw [hs] at hchar
    exact absurd (hchar '?' mem_cons_self) (by unfold IsAddrChar; decide)

theorem IP.string_inj {a b : IP} (h : a.string = b.string) : a.canon = b.canon := by
  have hmark := congrArg mark h
  rcases a.string_cases with ⟨ha, hs, hm⟩ | ⟨ha, hs, hm⟩ | ⟨ha, hla, hs, hm⟩ | ⟨ha, hs, hm⟩ <;>
    rcases b.string_cases with ⟨hb, hs', hm'⟩ | ⟨hb, hs', hm'⟩ | ⟨hb, hlb, hs', hm'⟩ | ⟨hb, hs', hm'⟩ <;>
    rw [hm, hm'] at hmark <;> rw [hs, hs'] at h
  all_goals simp at hmark
  · rw [ha, hb]
  · have hparse := parseAddr_string4 ha
    rw [h, parseAddr_string4 hb] at hparse
    simpa using hparse.symm
  · have hparse := parseAddr_string6 hla
    rw [h, parseAddr_string6 hlb] at hparse
    cases hparse
    rfl
  · rw [ha, hb]
    exact flatMap_hexByte_inj (tail_eq_of_cons_eq h)

namespace Addr

theorem hostString_inj {a b : IP} (h : hostString a = hostString b) : a.canon = b.canon ∧ a.string = b.string := by
  unfold hostString at h
  split at h <;> split at h
  · rename_i ha hb
    rw [eq_nil_of_length_eq_zero ha, eq_nil_of_length_eq_zero hb]
    exact ⟨rfl, rfl⟩
  · exact absurd h.symm (string_ne_nil b)
  · exact absurd h (string_ne_nil a)
  · exact ⟨IP.string_inj h, h⟩

theorem hostPortString_inj {a b : IP} {p q : Int} {z w : List Char}
    (h : hostPortString a p z = hostPortString b q w) : (a.canon = b.canon ∧ a.string = b.string) ∧ p = q := by
  have hout : ∀ {ip : IP}, '%' ∉ hostString ip := notMem_hostString (by decide) (not_isDigit (by decide))
  have hhost : ∀ {ip : IP} {z : List Char},
      (hostString ip ++ if z = [] then [] else '%' :: z).takeWhile (· ≠ '%') = hostString ip := by
    intro ip z
    rw [takeWhile_append_of_pos fun c hc => by simpa using fun h => hout (h ▸ hc)]
    split <;> simp
  obtain ⟨hh, hp⟩ := joinHostPort_inj colon_notMem_itoa colon_notMem_itoa h
  have := congrArg (takeWhile (· ≠ '%')) hh
  rw [hhost, hhost] at this
  exact ⟨hostString_inj this, itoa_inj hp⟩

theorem string_inj {a b : Addr} {ip ip' : IP} {port port' : Int} (ha : a.inet = some (ip, port))
    (hb : b.inet = some (ip', port')) (h : a.string = b.string) :
    (ip.canon = ip'.canon ∧ ip.string = ip'.string) ∧ port = port' := by
  have hform : ∀ {a : Addr} {ip : IP} {port : Int}, a.inet = some (ip, port) →
      ∃ z, a.string = hostPortString ip port z := by
    intro a ip port ha
    cases a with
    | tcp i p z | udp i p z => cases ha; exact ⟨z, rfl⟩
    | other t => cases ha
  obtain ⟨z, hz⟩ := hform ha
  obtain ⟨w, hw⟩ := hform hb
  rw [hz, hw] at h
  exact hostPortString_inj h

end Addr
end Net
