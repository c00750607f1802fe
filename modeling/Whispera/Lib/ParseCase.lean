import Whispera.Lib.ParseIP

/-! A change that keeps the marks and the digits, whatever case hexadecimal ones have, leaves what `ParseIP`
and `ParseCIDR` read. -/

namespace Net
open List Text

/-- The marks that the parsers look for. -/
def IsMark (c : Char) : Prop := c = '.' ∨ c = ':' ∨ c = '%' ∨ c = '/'

/-- What the parsers see of a character stays. -/
structure KeepsDigits (f : Char → Char) : Prop where
  decimal : ∀ c, isDecimal (f c) = isDecimal c
  same : ∀ c, isDecimal c = true → f c = c
  hex : ∀ c, isHex (f c) = isHex c
  value : ∀ c, isHex c = true → hexDigit (f c) = hexDigit c
  mark : ∀ c d, IsMark d → (f c = d ↔ c = d)

variable {f : Char → Char} (hf : KeepsDigits f)
include hf

theorem KeepsDigits.dot (c : Char) : f c = '.' ↔ c = '.' := hf.mark c _ (.inl rfl)

theorem KeepsDigits.colon (c : Char) : f c = ':' ↔ c = ':' := hf.mark c _ (.inr (.inl rfl))

variable (s : List Char)

theorem parseIPv4Fields_map (val digLen : Nat) (fields : Bytes) (s : List Char) :
    parseIPv4Fields val digLen fields (s.map f) = parseIPv4Fields val digLen fields s := by
  induction s generalizing val digLen fields with
  | nil => rfl
  | cons c s ih =>
    rw [map_cons, parseIPv4Fields, parseIPv4Fields, hf.decimal]
    by_cases hc : isDecimal c = true
    · rw [if_pos hc, if_pos hc, hf.same c hc, ih]
    · rw [if_neg hc, if_neg hc]
      simp only [hf.dot, map_eq_nil_iff, ih]

theorem parseIPv4_map : parseIPv4 (s.map f) = parseIPv4 s := parseIPv4Fields_map hf 0 0 [] s

theorem takeWhile_map_hex : (s.map f).takeWhile isHex = (s.takeWhile isHex).map f := by
  rw [takeWhile_map]
  exact congrArg _ (congrArg (takeWhile · s) (funext hf.hex))

theorem dropWhile_map_hex : (s.map f).dropWhile isHex = (s.dropWhile isHex).map f := by
  rw [dropWhile_map]
  exact congrArg _ (congrArg (dropWhile · s) (funext hf.hex))

theorem hexNumber_map {digits : List Char} (h : ∀ c ∈ digits, isHex c = true) :
    hexNumber (digits.map f) = hexNumber digits := by
  rw [hexNumber, foldl_map]
  refine foldl_ext _ _ _ fun acc c hc => ?_
  rw [hf.value c (h c hc)]

theorem parseIPv6Groups_map (n : Nat) (ip : Bytes) (ellipsis : Option Nat) (s : List Char) :
    parseIPv6Groups n ip ellipsis (s.map f) = parseIPv6Groups n ip ellipsis s := by
  induction n generalizing ip ellipsis s with
  | zero =>
    rw [parseIPv6Groups, parseIPv6Groups]
    simp only [map_eq_nil_iff]
  | succ n ih =>
    have hnum := hexNumber_map hf fun c hc => all_eq_true.mp (all_takeWhile (p := isHex) (l := s)) c hc
    rw [parseIPv6Groups, parseIPv6Groups, takeWhile_map_hex hf, dropWhile_map_hex hf, parseIPv4_map hf]
    simp only [map_eq_nil_iff, length_map, hnum]
    refine if_congr Iff.rfl rfl ?_
    cases s.dropWhile isHex with
    | nil => rfl
    | cons c t =>
      rw [map_cons]
      by_cases hdot : c = '.'
      · rw [(hf.dot c).mpr hdot, hdot]
        rfl
      · by_cases hcolon : c = ':'
        · rw [(hf.colon c).mpr hcolon, hcolon]
          cases t with
          | nil => rfl
          | cons d t =>
            rw [map_cons]
            by_cases hd : d = ':'
            · rw [(hf.colon d).mpr hd, hd]
              simp only [map_eq_nil_iff, ih]
            · have hnext := ih (ip ++ [UInt8.ofNat (hexNumber (s.takeWhile isHex) / 256),
                UInt8.ofNat (hexNumber (s.takeWhile isHex))])
                ellipsis (d :: t)
              rw [map_cons] at hnext
              have hfd : f d ≠ ':' := fun h => hd ((hf.colon d).mp h)
              simp only [hnext]
        · have hfdot : f c ≠ '.' := fun h => hdot ((hf.dot c).mp h)
          have hfcolon : f c ≠ ':' := fun h => hcolon ((hf.colon c).mp h)
          split <;> split <;> simp_all

theorem mem_map_mark {d : Char} (hd : IsMark d) (s : List Char) : d ∈ s.map f ↔ d ∈ s := by
  rw [mem_map]
  constructor
  · rintro ⟨c, hc, heq⟩
    exact (hf.mark c d hd).mp heq ▸ hc
  · exact fun hc => ⟨d, hc, (hf.mark d d hd).mpr rfl⟩

theorem parseIPv6_map : parseIPv6 (s.map f) = parseIPv6 s := by
  unfold parseIPv6
  simp only [mem_map_mark hf (.inr (.inr (.inl rfl)) : IsMark '%')]
  refine if_congr Iff.rfl rfl ?_
  have hwhole := parseIPv6Groups_map hf 8 [] none s
  by_cases hstart : ∃ t, s = ':' :: ':' :: t
  · obtain ⟨t, rfl⟩ := hstart
    rw [map_cons, map_cons, (hf.colon ':').mpr rfl]
    cases t with
    | nil => rfl
    | cons c t => exact congrArg (Option.bind · _) (parseIPv6Groups_map hf 8 [] (some 0) (c :: t))
  · have hstart' : ¬∃ t, s.map f = ':' :: ':' :: t := by
      rintro ⟨t, ht⟩
      obtain ⟨c, s, rfl, hc, hs⟩ := map_eq_cons_iff.mp ht
      obtain ⟨d, s, rfl, hd, -⟩ := map_eq_cons_iff.mp hs
      exact hstart ⟨s, by rw [(hf.colon c).mp hc, (hf.colon d).mp hd]⟩
    split
    · rename_i heq
      exact absurd ⟨_, heq⟩ hstart'
    · rename_i heq
      exact absurd ⟨_, heq⟩ hstart'
    · split
      · exact absurd ⟨_, rfl⟩ hstart
      · exact absurd ⟨_, rfl⟩ hstart
      · rw [hwhole]

theorem find_mark_map :
    (s.map f).find? (fun c => c = '.' ∨ c = ':' ∨ c = '%') = s.find? fun c => c = '.' ∨ c = ':' ∨ c = '%' := by
  have hpercent : ∀ c, f c = '%' ↔ c = '%' := fun c => hf.mark c _ (.inr (.inr (.inl rfl)))
  induction s with
  | nil => rfl
  | cons c s ih =>
    rw [map_cons, find?_cons, find?_cons, ih]
    simp only [hf.dot, hf.colon, hpercent]
    by_cases hc : c = '.' ∨ c = ':' ∨ c = '%'
    · have hmark : IsMark c := hc.imp_right fun h => h.imp_right .inl
      rw [(hf.mark c c hmark).mpr rfl]
    · rw [decide_eq_false hc]

theorem parseAddr_map : parseAddr (s.map f) = parseAddr s := by
  unfold parseAddr
  rw [find_mark_map hf, parseIPv4_map hf, parseIPv6_map hf]

theorem parseIP_map : parseIP (s.map f) = parseIP s := by
  rw [parseIP, parseIP, parseAddr_map hf]

theorem dtoi_map : dtoi (s.map f) = dtoi s := by
  have hall : (s.map f).all isDecimal = s.all isDecimal := by
    rw [all_map]
    exact congrArg (List.all s) (funext hf.decimal)
  unfold dtoi
  rw [hall]
  simp only [ne_eq, map_eq_nil_iff]
  split
  · rename_i hs
    have hsame : ∀ c ∈ s, f c = id c := fun c hc => hf.same c (all_eq_true.mp hs.2 c hc)
    rw [map_congr_left hsame, map_id]
  · rfl

theorem parseCIDR_map : parseCIDR (s.map f) = parseCIDR s := by
  have hslash : ((fun c => decide (c ≠ '/')) ∘ f) = fun c => decide (c ≠ '/') := by
    funext c
    exact decide_eq_decide.mpr (not_congr (hf.mark c _ (.inr (.inr (.inr rfl)))))
  have htake : (s.map f).takeWhile (· ≠ '/') = (s.takeWhile (· ≠ '/')).map f := by
    rw [takeWhile_map, hslash]
  have hdrop : (s.map f).dropWhile (· ≠ '/') = (s.dropWhile (· ≠ '/')).map f := by
    rw [dropWhile_map, hslash]
  unfold parseCIDR
  rw [htake, hdrop, ← map_drop, parseAddr_map hf, dtoi_map hf]
  simp only [mem_map_mark hf (.inr (.inr (.inr rfl)) : IsMark '/')]

end Net
