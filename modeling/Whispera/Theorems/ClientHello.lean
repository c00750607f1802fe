import Whispera.ClientHello

/-! Where the walk of `sniSplitOffset` finds a server name, there is one. -/

namespace Whispera
open List hiding get
open Exec BigEndian

def Prefixed (w : Nat) (bytes : Bytes) : Prop :=
  ∃ len content, bytes = len ++ content ∧ len.length = w ∧ get len = content.length

/-- Extensions, none of which is that of the server name. -/
inductive OtherExtensions : Bytes → Prop
  | nil : OtherExtensions []
  | snoc {before typ bytes : Bytes} (h : OtherExtensions before) (hlen : typ.length = 2) (htyp : get typ ≠ 0)
      (hbytes : Prefixed 2 bytes) : OtherExtensions (before ++ typ ++ bytes)

/-- What stands before the extensions: type, length, version and random; session id, ciphers and compression
    methods; their length. -/
structure HelloStart (bytes : Bytes) : Prop where
  split : ∃ head session ciphers compression extensionsLen, bytes = head ++ session ++ ciphers ++
    compression ++ extensionsLen ∧
    head.length = 38 ∧ head.head? = some 0x01 ∧ Prefixed 1 session ∧ Prefixed 2 ciphers ∧ Prefixed 1 compression ∧
    extensionsLen.length = 2

/-- A ClientHello with a server name of `n` bytes that starts at `start`. -/
def ServerNameAt (payload : Bytes) (start n : Nat) : Prop :=
  ∃ hello others size listHead nameLen name rest,
    payload = hello ++ others ++ [0, 0] ++ size ++ listHead ++ nameLen ++ (name ++ rest) ∧ HelloStart hello ∧
    OtherExtensions others ∧ size.length = 2 ∧ listHead.length = 3 ∧ nameLen.length = 2 ∧ get nameLen = n ∧
    name.length = n ∧ start = (hello ++ others ++ [0, 0] ++ size ++ listHead ++ nameLen).length

section
variable {payload : Bytes}

theorem take_one_drop {p : Nat} {x : UInt8} (h : payload[p]? = some x) : (payload.drop p).take 1 = [x] := by
  obtain ⟨hp, rfl⟩ := List.getElem?_eq_some_iff.mp h
  rw [drop_eq_getElem_cons hp]
  rfl

theorem uint16At_eq {p : Nat} (h : p + 2 ≤ payload.length) :
    uint16At payload p = ret (get ((payload.drop p).take 2)) := by
  rw [uint16At, slice_eq (by omega) h, ret_bind, Nat.add_sub_cancel_left]

theorem index_nat (payload : Bytes) (p : Nat) (h : p < payload.length) :
    ∃ x, index payload p = ret x ∧ payload[p]? = some x ∧ get ((payload.drop p).take 1) = x.toNat := by
  have hx := getElem?_eq_getElem h
  refine ⟨_, index_eq hx, hx, ?_⟩
  rw [take_one_drop hx]
  exact Nat.zero_add _

theorem eq_zero_of_get {bytes : Bytes} (hlen : bytes.length = 2) (h : get bytes = 0) : bytes = [0, 0] := by
  obtain ⟨a, b, rfl⟩ : ∃ a b, bytes = [a, b] := by
    match bytes, hlen with
    | [a, b], _ => exact ⟨a, b, rfl⟩
  have hsum : (0 * 256 + a.toNat) * 256 + b.toNat = 0 := h
  rw [UInt8.toNat_inj.mp (show a.toNat = (0 : UInt8).toNat by rw [UInt8.toNat_zero]; omega),
    UInt8.toNat_inj.mp (show b.toNat = (0 : UInt8).toNat by rw [UInt8.toNat_zero]; omega)]

theorem prefixed_take {p w v : Nat} (h : p + w + v ≤ payload.length) (hv : get ((payload.drop p).take w) = v) :
    Prefixed w ((payload.drop p).take (w + v)) := by
  refine ⟨(payload.drop p).take w, ((payload.drop p).drop w).take v, take_add, ?_, ?_⟩
  · rw [length_take, length_drop]
    omega
  · rw [hv, length_take, length_drop, length_drop]
    omega

theorem helloStart_take {l1 l2 l3 : Nat} (hlen : 38 + 1 + l1 + 2 + l2 + 1 + l3 + 2 ≤ payload.length)
    (hhead : payload.head? = some 0x01) (h1 : get ((payload.drop 38).take 1) = l1)
    (h2 : get ((payload.drop (38 + 1 + l1)).take 2) = l2)
    (h3 : get ((payload.drop (38 + 1 + l1 + 2 + l2)).take 1) = l3) :
    HelloStart (payload.take (38 + 1 + l1 + 2 + l2 + 1 + l3 + 2)) where
  split := by
    refine ⟨payload.take 38, (payload.drop 38).take (1 + l1), (payload.drop (38 + 1 + l1)).take (2 + l2),
      (payload.drop (38 + 1 + l1 + 2 + l2)).take (1 + l3), (payload.drop (38 + 1 + l1 + 2 + l2 + 1 + l3)).take 2,
      ?_, ?_, ?_, prefixed_take (by omega) h1, prefixed_take (by omega) h2, prefixed_take (by omega) h3, ?_⟩
    · rw [show 38 + 1 + l1 + 2 + l2 + 1 + l3 + 2 = 38 + (1 + l1) + (2 + l2) + (1 + l3) + 2 by omega, take_add, take_add,
        take_add, take_add]
      simp only [Nat.add_assoc]
    · rw [length_take]
      omega
    · rw [head?_take, if_neg (by decide), hhead]
    · rw [length_take, length_drop]
      omega

/-- From `p0` to `p` the walk has passed other extensions only. -/
structure Walked (payload : Bytes) (p0 last p : Nat) : Prop where
  start : HelloStart (payload.take p0)
  le : p0 ≤ p
  le_length : p ≤ payload.length
  last_le : last ≤ payload.length
  others : OtherExtensions ((payload.drop p0).take (p - p0))

theorem Walked.extension {p0 last p size : Nat} (h : Walked payload p0 last p) (hend : p + 4 + size ≤ last)
    (htyp : get ((payload.drop p).take 2) ≠ 0) (hsize : get ((payload.drop (p + 2)).take 2) = size) :
    Walked payload p0 last (p + 4 + size) where
  start := h.start
  le := by have := h.le; omega
  le_length := by have := h.last_le; omega
  last_le := h.last_le
  others := by
    have hle := h.le
    have hlast := h.last_le
    have htypLen : ((payload.drop p).take 2).length = 2 := by
      rw [length_take, length_drop]
      omega
    have hbytes : Prefixed 2 ((payload.drop (p + 2)).take (2 + size)) := prefixed_take (by omega) hsize
    have hsplit : (payload.drop p0).take (p + 4 + size - p0) =
        (payload.drop p0).take (p - p0) ++ (payload.drop p).take 2 ++ (payload.drop (p + 2)).take (2 + size) := by
      rw [show p + 4 + size - p0 = (p - p0) + 2 + (2 + size) by omega, take_add, take_add, drop_drop,
        drop_drop, show p0 + (p - p0) = p by omega, show p0 + (p - p0 + 2) = p + 2 by omega]
    rw [hsplit]
    exact .snoc h.others htypLen htyp hbytes

theorem Walked.serverName {p0 last p n : Nat} (h : Walked payload p0 last p)
    (htyp : get ((payload.drop p).take 2) = 0) (hn : get ((payload.drop (p + 4 + 3)).take 2) = n)
    (hfits : p + 4 + 5 + n ≤ payload.length) : ServerNameAt payload (p + 4 + 5) n := by
  have hle := h.le
  have hlen (q k : Nat) (hq : q + k ≤ payload.length) : ((payload.drop q).take k).length = k := by
    rw [length_take, length_drop]
    omega
  have hzero := eq_zero_of_get (hlen p 2 (by omega)) htyp
  have hsplit : payload.take (p + 4 + 5) = payload.take p0 ++ (payload.drop p0).take (p - p0) ++ [0, 0] ++
      (payload.drop (p + 2)).take 2 ++ (payload.drop (p + 4)).take 3 ++ (payload.drop (p + 4 + 3)).take 2 := by
    rw [← hzero, show p + 4 + 5 = p0 + (p - p0) + 2 + 2 + 3 + 2 by omega, take_add, take_add, take_add,
      take_add, take_add, show p0 + (p - p0) = p by omega]
  refine ⟨payload.take p0, (payload.drop p0).take (p - p0), (payload.drop (p + 2)).take 2,
    (payload.drop (p + 4)).take 3,
    (payload.drop (p + 4 + 3)).take 2, (payload.drop (p + 4 + 5)).take n, (payload.drop (p + 4 + 5)).drop n,
    ?_, h.start, h.others, hlen _ _ (by omega), hlen _ _ (by omega), hlen _ _ (by omega), hn, hlen _ _ hfits, ?_⟩
  · rw [← hsplit, take_append_drop, take_append_drop]
  · rw [← hsplit, length_take]
    omega

theorem returns_extensionRound {p0 last p : Nat} (h : Walked payload p0 last p) :
    Returns (extensionRound payload last p) fun r =>
      (∀ q, r = .inl q → Walked payload p0 last q ∧ payload.length - q < payload.length - p) ∧
      ∀ a, r = .inr a → ∀ name n, a = some (name, n) → ServerNameAt payload name n ∧ 2 ≤ n := by
  have hlast := h.last_le
  unfold extensionRound
  by_cases hmore : p + 4 ≤ last
  · rw [if_pos hmore, uint16At_eq (by omega), ret_bind, uint16At_eq (by omega), ret_bind]
    dsimp only
    by_cases hend : p + 4 + get ((payload.drop (p + 2)).take 2) > last
    · rw [if_pos hend]
      simp
    · rw [if_neg hend]
      by_cases htyp : get ((payload.drop p).take 2) = 0
      · rw [if_pos htyp]
        by_cases hsize : get ((payload.drop (p + 2)).take 2) < 5
        · rw [if_pos hsize]
          simp
        · rw [if_neg hsize, uint16At_eq (by omega), ret_bind]
          split
          · simp
          · rename_i hname
            refine returns_ret.mpr ⟨nofun, ?_⟩
            rintro _ ⟨⟩ name n ⟨⟩
            exact ⟨h.serverName htyp rfl (by omega), by omega⟩
      · rw [if_neg htyp]
        refine returns_ret.mpr ⟨?_, nofun⟩
        rintro q ⟨⟩
        exact ⟨h.extension (by omega) htyp rfl, by omega⟩
  · rw [if_neg hmore]
    simp

theorem returns_findServerName (payload : Bytes) :
    Returns (findServerName payload) fun r => ∀ name n, r = some (name, n) → ServerNameAt payload name n ∧ 2 ≤ n := by
  unfold findServerName
  by_cases hshort : payload.length < 39
  · rw [if_pos hshort]
    simp
  obtain ⟨typ, htyp, hhead, -⟩ := index_nat payload 0 (by omega)
  rw [if_neg hshort, show (0 : Int) = (0 : Nat) from rfl, htyp, ret_bind]
  by_cases hone : typ ≠ 0x01
  · rw [if_pos hone]
    simp
  obtain ⟨sessionLen, hsession, -, hsessionLen⟩ := index_nat payload 38 (by omega)
  rw [if_neg hone, hsession, ret_bind]
  dsimp only
  split
  · simp
  rename_i hp1
  rw [uint16At_eq (by omega), ret_bind]
  obtain ⟨ciphersLen, hciphers⟩ : ∃ l, get ((payload.drop (38 + 1 + sessionLen.toNat)).take 2) = l := ⟨_, rfl⟩
  rw [hciphers]
  split
  · simp
  rename_i hp2
  obtain ⟨compressionLen, hcompression, -, hcompressionLen⟩ :=
    index_nat payload (38 + 1 + sessionLen.toNat + 2 + ciphersLen) (by omega)
  rw [hcompression, ret_bind]
  split
  · simp
  rename_i hp3
  rw [uint16At_eq (by omega), ret_bind]
  have hhead : payload.head? = some 0x01 := by
    rw [head?_eq_getElem?, hhead, not_not.mp hone]
  have hstart := helloStart_take (by omega) hhead hsessionLen hciphers hcompressionLen
  refine returns_loop (I := Walked payload
    (38 + 1 + sessionLen.toNat + 2 + ciphersLen + 1 + compressionLen.toNat + 2) _)
    (m := fun p => payload.length - p) (fun p hp => returns_extensionRound hp) _ _ ?_ (by omega)
  exact ⟨hstart, Nat.le_refl _, by omega, Nat.min_le_right _ _, by rw [Nat.sub_self]; exact .nil⟩

end

end Whispera
