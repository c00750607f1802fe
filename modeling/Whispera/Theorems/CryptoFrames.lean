import Whispera.Theorems.QuicInitial

/-! The server does not use the offset of a frame: it gets the hello back just if the frames come in the order
of their offsets. -/

namespace Whispera
open List Exec BigEndian

theorem quicVarintParse_encode {k v : Nat} (hk : k < 4) (hv : v < Varint.limit k) (rest : Bytes) :
    quicVarintParse (Varint.encode k v ++ rest) = ret (v, 1 <<< k) := by
  have hdiv := Varint.div_lt_of_lt_limit hv
  have hlen : (Varint.encode k v ++ rest).length = 1 <<< k + rest.length := by
    rw [length_append, Varint.length_encode]
  have hfirst : index (Varint.encode k v ++ rest) 0 = ret (UInt8.ofNat (64 * k + v / 256 ^ Varint.tail k)) := rfl
  have htail : slice (Varint.encode k v ++ rest) 1 ((1 <<< k : Nat) : Int) = ret (put (Varint.tail k) v) := by
    refine slice_at (a := [_]) (c := rest) rfl rfl ?_
    have hone : 1 ≤ 1 <<< k := Nat.one_shiftLeft k ▸ Nat.one_le_two_pow
    rw [length_put, Varint.tail, length_singleton]
    omega
  have hpos : ¬(Varint.encode k v ++ rest).length = 0 := by simp [Varint.encode]
  unfold quicVarintParse
  rw [failIf_of_not _ hpos, ret_bind, hfirst, ret_bind, Varint.log_encode hk hdiv]
  dsimp only
  rw [failIf_of_not _ (by omega), ret_bind, htail, ret_bind, Varint.mask_encode hk hdiv, Varint.get_value hv]

theorem cryptoFrameRound_nil (data : Bytes) :
    cryptoFrameRound ([], data) = ret (.inr (if data.length < 4 then none else some data)) := rfl

theorem cryptoFrameRound_padding (rest data : Bytes) :
    cryptoFrameRound (quicFrameTypePadding :: rest, data) = ret (.inl (rest, data)) := by
  have hrest : slice (quicFrameTypePadding :: rest) 1 (quicFrameTypePadding :: rest).length = ret rest :=
    slice_from (a := [quicFrameTypePadding]) rfl rfl
  have hfirst : index (quicFrameTypePadding :: rest) 0 = ret quicFrameTypePadding := rfl
  rw [cryptoFrameRound, if_pos (by simp), hfirst, ret_bind, hrest, ret_bind, if_pos rfl]

def cryptoFrameAt (offsetLog offset lengthLog : Nat) (data : Bytes) : Bytes :=
  quicFrameTypeCrypto :: (Varint.encode offsetLog offset ++ (Varint.encode lengthLog data.length ++ data))

theorem cryptoFrameRound_frame {ko kl offset : Nat} {frame : Bytes} (hko : ko < 4) (hkl : kl < 4)
    (hoffset : offset < Varint.limit ko) (hlength : frame.length < Varint.limit kl) (rest data : Bytes) :
    cryptoFrameRound (cryptoFrameAt ko offset kl frame ++ rest, data) = ret (.inl (rest, data ++ frame)) := by
  have hshape : cryptoFrameAt ko offset kl frame ++ rest =
      quicFrameTypeCrypto :: (Varint.encode ko offset ++ (Varint.encode kl frame.length ++ (frame ++ rest))) := by
    simp [cryptoFrameAt]
  rw [hshape, cryptoFrameRound]
  have hfirst (l : Bytes) : index (quicFrameTypeCrypto :: l) 0 = ret quicFrameTypeCrypto := rfl
  have hrest (l : Bytes) : slice (quicFrameTypeCrypto :: l) 1 (quicFrameTypeCrypto :: l).length = ret l :=
    slice_from (a := [quicFrameTypeCrypto]) rfl rfl
  rw [if_pos (by simp), hfirst, ret_bind, hrest, ret_bind, if_neg (by decide), if_pos rfl,
    quicVarintParse_encode hko hoffset]
  dsimp only [attempt]
  rw [ret_bind]
  dsimp only
  rw [slice_from rfl (by rw [Varint.length_encode]), ret_bind, quicVarintParse_encode hkl hlength]
  rw [ret_bind]
  dsimp only
  rw [slice_from rfl (by rw [Varint.length_encode]), ret_bind, if_neg (by simp), slice_from rfl rfl]
  have hframe : slice (frame ++ rest) 0 frame.length = ret frame := slice_at (a := []) rfl rfl (by simp)
  rw [hframe, ret_bind, ret_bind]

theorem loop_padding (k n : Nat) (rest data : Bytes) (h : k ≤ n) :
    loop cryptoFrameRound n (replicate k quicFrameTypePadding ++ rest, data) =
      loop cryptoFrameRound (n - k) (rest, data) := by
  induction k generalizing n with
  | zero => rfl
  | succ k ih =>
    obtain ⟨m, rfl⟩ : ∃ m, n = m + 1 := ⟨n - 1, by omega⟩
    rw [replicate_succ, cons_append, loop_next m (cryptoFrameRound_padding _ data), ih m (by omega)]
    congr 1
    omega

/-- A piece of a hello: its place, and the sizes of the two integers in its frame. -/
structure CryptoPiece where
  offset : Nat
  length : Nat
  offsetLog : Nat
  lengthLog : Nat
  offsetLog_lt : offsetLog < 4
  lengthLog_lt : lengthLog < 4
  offset_lt : offset < Varint.limit offsetLog
  length_lt : length < Varint.limit lengthLog

variable {hello : Bytes}

namespace CryptoPiece

def data (p : CryptoPiece) (hello : Bytes) : Bytes := (hello.drop p.offset).take p.length

def positions (p : CryptoPiece) : List Nat := range' p.offset p.length

def frame (p : CryptoPiece) (hello : Bytes) : Bytes :=
  cryptoFrameAt p.offsetLog p.offset p.lengthLog (p.data hello)

variable (p : CryptoPiece)

section
variable (h : p.offset + p.length ≤ hello.length ∨ p.length = 0)
include h

theorem length_data : (p.data hello).length = p.length := by
  rw [data, length_take, length_drop]
  omega

theorem data_eq : p.data hello = p.positions.map (hello.getD · 0) := by
  refine ext_getElem ?_ fun i h1 h2 => ?_
  · rw [p.length_data h, positions, length_map, length_range']
  · rw [p.length_data h] at h1
    have hi : p.offset + i < hello.length := by omega
    simp [data, positions, getElem?_eq_getElem hi]

theorem round_frame (rest data : Bytes) :
    cryptoFrameRound (p.frame hello ++ rest, data) = ret (.inl (rest, data ++ p.data hello)) :=
  cryptoFrameRound_frame p.offsetLog_lt p.lengthLog_lt p.offset_lt (p.length_data h ▸ p.length_lt) rest data

end

end CryptoPiece

/-- The pieces in the order in which they come, each with the padding before it, and the padding at the end.
    -/
structure CryptoLayout where
  pieces : List (Nat × CryptoPiece)
  tail : Nat

namespace CryptoLayout

def positions (l : CryptoLayout) : List Nat := l.pieces.flatMap fun e => e.2.positions

/-- The pieces cover a hello of `n` bytes exactly once. -/
def Covers (l : CryptoLayout) (n : Nat) : Prop := l.positions.Perm (range n)

def plaintext (l : CryptoLayout) (hello : Bytes) : Bytes :=
  (l.pieces.flatMap fun e => replicate e.1 quicFrameTypePadding ++ e.2.frame hello) ++
    replicate l.tail quicFrameTypePadding

/-- The pieces that are not empty come in the order of their offsets. -/
def InOrder (l : CryptoLayout) : Prop :=
  (l.pieces.filter fun e => 0 < e.2.length).Pairwise fun e f => e.2.offset < f.2.offset

instance (l : CryptoLayout) (n : Nat) : Decidable (l.Covers n) := inferInstanceAs (Decidable (Perm _ _))

instance (l : CryptoLayout) : Decidable l.InOrder := inferInstanceAs (Decidable (List.Pairwise _ _))

def Fits (pieces : List (Nat × CryptoPiece)) (n : Nat) : Prop :=
  ∀ e ∈ pieces, e.2.offset + e.2.length ≤ n ∨ e.2.length = 0

variable {l : CryptoLayout} {n : Nat}

theorem Covers.fits (h : l.Covers n) : Fits l.pieces n := by
  intro e he
  by_cases hzero : e.2.length = 0
  · exact .inr hzero
  · have hlast : e.2.offset + (e.2.length - 1) ∈ l.positions := by
      refine mem_flatMap.mpr ⟨e, he, mem_range'_1.mpr ?_⟩
      omega
    have := mem_range.mp (h.mem_iff.mp hlast)
    exact .inl (by omega)

variable {pieces : List (Nat × CryptoPiece)}

theorem flatMap_data (h : Fits pieces hello.length) :
    (pieces.flatMap fun e => e.2.data hello) = (pieces.flatMap fun e => e.2.positions).map (hello.getD · 0) := by
  rw [map_flatMap]
  exact flatMap_congr fun e he => e.2.data_eq (h e he)

theorem loop_pieces (h : Fits pieces hello.length) (rest : Bytes) : ∀ (n : Nat) (data : Bytes),
      ((pieces.flatMap fun e => replicate e.1 quicFrameTypePadding ++ e.2.frame hello) ++ rest).length < n →
      ∃ m, rest.length < m ∧
        loop cryptoFrameRound n
          ((pieces.flatMap fun e => replicate e.1 quicFrameTypePadding ++ e.2.frame hello) ++ rest, data) =
        loop cryptoFrameRound m (rest, data ++ pieces.flatMap fun e => e.2.data hello) := by
  induction pieces with
  | nil =>
    intro n data hn
    exact ⟨n, hn, by simp⟩
  | cons e pieces ih =>
    intro n data hn
    have hfits : Fits pieces hello.length := fun f hf => h f (mem_cons_of_mem _ hf)
    simp only [flatMap_cons, append_assoc] at hn ⊢
    rw [length_append, length_replicate, length_append] at hn
    have hframe : 0 < (e.2.frame hello).length := Nat.succ_pos _
    rw [loop_padding _ _ _ _ (by omega)]
    obtain ⟨m, hm⟩ : ∃ m, n - e.1 = m + 1 := ⟨n - e.1 - 1, by omega⟩
    rw [hm, loop_next m (e.2.round_frame (h e mem_cons_self) _ data)]
    obtain ⟨k, hk, hloop⟩ := ih hfits m (data ++ e.2.data hello) (by omega)
    exact ⟨k, hk, by rw [hloop, append_assoc]⟩

theorem extract_plaintext (l : CryptoLayout) (h : Fits l.pieces hello.length) :
    extractCryptoFrameData (l.plaintext hello) =
      ret (let data := l.positions.map (hello.getD · 0); if data.length < 4 then none else some data) := by
  obtain ⟨m, hm, hloop⟩ := loop_pieces h (replicate l.tail quicFrameTypePadding) _ [] (Nat.lt_succ_self _)
  rw [length_replicate] at hm
  obtain ⟨k, hk⟩ : ∃ k, m - l.tail = k + 1 := ⟨m - l.tail - 1, by omega⟩
  rw [extractCryptoFrameData, plaintext, hloop, ← append_nil (replicate _ _), loop_padding _ _ _ _ (by omega), hk,
    loop_end k (cryptoFrameRound_nil _), nil_append, flatMap_data h]
  rfl

theorem eq_range_of_map {ps : List Nat} (hlen : ps.length = n)
    (h : ∀ f : Nat → UInt8, ps.map f = (range n).map f) : ps = range n := by
  refine ext_getElem (by rw [hlen, length_range]) fun j h1 h2 => ?_
  have hj := congrArg (·[j]?) (h fun i => if i = ps[j] then 1 else 0)
  simp only [getElem?_map, getElem?_eq_getElem h1, getElem?_eq_getElem h2, Option.map_some,
    Option.some.injEq, if_true, getElem_range] at hj ⊢
  by_contra hne
  rw [if_neg (Ne.symm hne)] at hj
  exact absurd hj (by decide)

theorem pairwise_positions_iff (hcover : l.Covers n) : l.positions.Pairwise (· < ·) ↔ l.InOrder := by
  have hdisjoint := (pairwise_flatMap.mp (hcover.nodup_iff.mpr nodup_range)).2
  rw [positions, pairwise_flatMap, InOrder, pairwise_filter]
  constructor
  · rintro ⟨-, hsorted⟩
    refine hsorted.imp fun {e f} h he hf => ?_
    have he := of_decide_eq_true he
    have hf := of_decide_eq_true hf
    exact h _ (mem_range'_1.mpr (by omega)) _ (mem_range'_1.mpr (by omega))
  · intro hsorted
    refine ⟨fun e _ => pairwise_lt_range' 1, (hsorted.and hdisjoint).imp fun {e f} ⟨hlt, hne⟩ x hx y hy => ?_⟩
    have hx' := mem_range'_1.mp hx
    have hy' := mem_range'_1.mp hy
    have hoff := hlt (decide_eq_true (by omega)) (decide_eq_true (by omega))
    -- Otherwise the first position of `f` would be one of `e` too.
    by_contra hle
    exact hne _ (mem_range'_1.mpr (by omega)) f.2.offset (mem_range'_1.mpr (by omega)) rfl

theorem positions_eq_range_iff (hcover : l.Covers n) : l.positions = range n ↔ l.InOrder := by
  rw [← pairwise_positions_iff hcover]
  constructor
  · intro h
    rw [h]
    exact pairwise_lt_range
  · intro h
    exact hcover.eq_of_pairwise (fun a b _ _ hab hba => absurd hab (Nat.lt_asymm hba)) h pairwise_lt_range

theorem map_getD_range (hello : Bytes) : (range hello.length).map (hello.getD · 0) = hello := by
  refine ext_getElem (by simp) fun i h1 h2 => ?_
  simp [getElem?_eq_getElem h2]

/-- The server reads every hello of a length out of a layout that covers it just if the layout is in order. -/
theorem extract_iff_inOrder (l : CryptoLayout) {n : Nat} (hn : 4 ≤ n) (hcover : l.Covers n) :
    (∀ hello, hello.length = n → extractCryptoFrameData (l.plaintext hello) = ret (some hello)) ↔ l.InOrder := by
  have hlen : l.positions.length = n := by rw [hcover.length_eq, length_range]
  have hextract : ∀ hello : Bytes, hello.length = n →
      (extractCryptoFrameData (l.plaintext hello) = ret (some hello) ↔ l.positions.map (hello.getD · 0) = hello) := by
    intro hello hhello
    rw [l.extract_plaintext (hhello ▸ hcover.fits)]
    rw [if_neg (by rw [length_map]; omega), ret.injEq, Option.some.injEq]
  rw [← positions_eq_range_iff hcover]
  constructor
  · intro h
    refine eq_range_of_map hlen fun f => ?_
    have hhello : ((range n).map f).length = n := by simp
    have hmap := (hextract _ hhello).mp (h _ hhello)
    rw [← hmap]
    refine map_congr_left fun i hi => ?_
    have hi := mem_range.mp (hcover.mem_iff.mp hi)
    simp [hi]
  · intro h hello hhello
    rw [hextract hello hhello, h, ← hhello, map_getD_range]

def shortPiece (offset length : Fin 64) : CryptoPiece where
  offset
  length
  offsetLog := 0
  lengthLog := 0
  offsetLog_lt := by decide
  lengthLog_lt := by decide
  offset_lt := offset.isLt
  length_lt := length.isLt

def swapped : CryptoLayout where
  pieces := [(0, shortPiece 4 4), (2, shortPiece 0 4)]
  tail := 3

theorem extract_swapped : swapped.Covers 8 ∧
      extractCryptoFrameData (swapped.plaintext [1, 0, 0, 4, 3, 3, 7, 9]) = ret (some [3, 3, 7, 9, 1, 0, 0, 4]) := by
  decide +kernel

def straight : CryptoLayout where
  pieces := [(0, shortPiece 0 4), (1, shortPiece 2 0), (2, shortPiece 4 4)]
  tail := 3

theorem extract_straight : straight.InOrder ∧
      extractCryptoFrameData (straight.plaintext [1, 0, 0, 4, 3, 3, 7, 9]) = ret (some [1, 0, 0, 4, 3, 3, 7, 9]) := by
  have hinOrder : straight.InOrder := by decide +kernel
  exact ⟨hinOrder, (extract_iff_inOrder straight (show 4 ≤ 8 by decide) (by decide +kernel)).mpr hinOrder _ rfl⟩

end CryptoLayout
end Whispera
