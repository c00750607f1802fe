import Whispera.Framed

/-! Every byte that a framed connection writes belongs to a record whose sizes are within the bounds that the
reader checks (`Fits`), and the reader takes exactly one such record off the transport. -/

namespace Whispera
open List BigEndian Reader

/-- The minimal chunk length may be any 32-bit number: with a maximum of zero it is stored unchecked. -/
structure ShapeKnobs.Valid (k : ShapeKnobs) : Prop where
  min : 0 ≤ k.min ∧ k.min ≤ framedMaxData
  max : 0 ≤ k.max ∧ k.max ≤ framedMaxData
  fillMin : 0 ≤ k.fillMin ∧ k.fillMin ≤ framedMaxData
  fillMax : 0 ≤ k.fillMax ∧ k.fillMax ≤ framedMaxData
  chunkMax : k.chunkMax ≤ framedMaxData

theorem int32_of_bounds {x : Int} (h0 : 0 ≤ x) (h : x ≤ framedMaxData) : int32 x = x := by
  unfold framedMaxData framedPlainTarget at h
  exact Int.bmod_eq_of_le (by omega) (by omega)

theorem chunkDefaults_bounds (v : List Char) : 0 ≤ (chunkDefaults v).2 ∧ (chunkDefaults v).2 ≤ framedMaxData := by
  have hdef : 0 ≤ shapeChunkMax ∧ shapeChunkMax ≤ framedMaxData := by decide
  unfold chunkDefaults
  split
  · exact hdef
  · dsimp only
    split
    · split
      · exact hdef
      · rename_i h
        exact ⟨by omega, by omega⟩
    · exact hdef

theorem int32_range {min max : Int} (hmin : 0 ≤ min) (hle : min ≤ max) (hmax : max ≤ framedMaxData) :
    (0 ≤ int32 min ∧ int32 min ≤ framedMaxData) ∧ 0 ≤ int32 max ∧ int32 max ≤ framedMaxData := by
  rw [int32_of_bounds hmin (Int.le_trans hle hmax), int32_of_bounds (Int.le_trans hmin hle) hmax]
  exact ⟨⟨hmin, Int.le_trans hle hmax⟩, Int.le_trans hmin hle, hmax⟩

theorem ShapeKnobs.Reached.valid {k : ShapeKnobs} (h : k.Reached) : k.Valid := by
  induction h with
  | new v =>
    have hc := chunkDefaults_bounds v
    have hfill : (0 : Int) ≤ 0 ∧ (0 : Int) ≤ framedMaxData := by decide
    refine ⟨(by decide : 0 ≤ shapePadMin ∧ shapePadMin ≤ framedMaxData),
      (by decide : 0 ≤ shapePadMax ∧ shapePadMax ≤ framedMaxData), hfill, hfill, ?_⟩
    show int32 (chunkDefaults v).2 ≤ _
    rw [int32_of_bounds hc.1 hc.2]
    exact hc.2
  | set records min max _ hs ih =>
    unfold ShapeKnobs.set at hs
    split at hs
    · cases hs
    · split at hs
      · cases hs
      · rename_i h
        simp only [not_or, Int.not_lt] at h
        cases hs
        obtain ⟨hmin, hmax⟩ := int32_range h.1 h.2.2 h.2.1
        exact ⟨hmin, hmax, ih.fillMin, ih.fillMax, ih.chunkMax⟩
  | setChunk min max _ hs ih =>
    unfold ShapeKnobs.setChunk at hs
    split at hs
    · cases hs
    · rename_i h
      cases hs
      have hmax := int32_of_bounds (x := max) (by omega) (by omega)
      exact ⟨ih.min, ih.max, ih.fillMin, ih.fillMax, by simp only [hmax]; omega⟩
  | setFiller idleMs intervalMs min max _ hs ih =>
    unfold ShapeKnobs.setFiller at hs
    split at hs
    · cases hs
    · split at hs
      · cases hs
      · rename_i h
        simp only [not_or, Int.not_lt] at h
        cases hs
        obtain ⟨hmin, hmax⟩ := int32_range h.1 h.2.2 h.2.1
        exact ⟨ih.min, ih.max, hmin, hmax, ih.chunkMax⟩

theorem intn_bounds (draw : Nat) {n : Int} (h : 0 < n) : 0 ≤ intn draw n ∧ intn draw n < n :=
  ⟨Int.emod_nonneg _ (by omega), Int.emod_lt_of_pos _ h⟩

theorem clamp_pos {n : Int} {left : Nat} (hn : 1 ≤ n) (h : 0 < left) : 0 < if n < left then n.toNat else left := by
  split <;> omega

theorem clamp_le (n : Int) (left : Nat) : (if n < left then n.toNat else left) ≤ left := by
  split <;> omega

theorem shapedChunk_pos (entry draw : Nat) {left : Nat} (h : 0 < left) : 0 < shapedChunk entry draw left := by
  unfold shapedChunk
  split
  · exact h
  · rename_i l u _
    generalize hlo : (if l - chunkWireOverhead < 1 then 1 else l - chunkWireOverhead) = lo
    generalize (if framedMaxData < u - chunkWireOverhead then (framedMaxData : Int) else u - chunkWireOverhead) = hi
    have hlo1 : 1 ≤ lo := by
      rw [← hlo]
      split <;> omega
    have hd := (intn_bounds draw (n := (if hi ≤ lo then lo + 1 else hi) - lo) (by split <;> omega)).1
    exact clamp_pos (by omega) h

theorem chunkLen_pos (d : Draws) {left : Nat} (h : 0 < left) : 0 < chunkLen d left := by
  unfold chunkLen
  split
  · exact shapedChunk_pos _ _ h
  · dsimp only
    split
    · exact h
    · generalize hmin : (if d.chunkMinBy.val.chunkMin < 1 then 1 else d.chunkMinBy.val.chunkMin) = min
      have hmin1 : 1 ≤ min := by
        rw [← hmin]
        split <;> omega
      refine clamp_pos ?_ h
      split
      · have hd := (intn_bounds d.chunk (n := d.chunkMaxBy.val.chunkMax - min + 1) (by omega)).1
        omega
      · exact hmin1

theorem chunkLen_le (d : Draws) (left : Nat) : chunkLen d left ≤ left := by
  unfold chunkLen
  split
  · unfold shapedChunk
    split
    · exact le_rfl
    · exact clamp_le _ _
  · dsimp only
    split
    · exact le_rfl
    · exact clamp_le _ _

theorem shapePadLen_le (d : Draws) (room : Nat) : shapePadLen d room ≤ room := by
  unfold shapePadLen
  split
  · omega
  · dsimp only
    split
    · omega
    · split
      · exact le_rfl
      · omega

theorem FillerDraws.len_le (d : FillerDraws) : d.len ≤ framedMaxData := by
  have hmin := d.minBy.property.valid.fillMin
  have hmax := d.maxBy.property.valid.fillMax
  unfold FillerDraws.len
  dsimp only
  split
  · rename_i h
    have hd := (intn_bounds d.pad (n := d.maxBy.val.fillMax - d.minBy.val.fillMin + 1) (by omega)).2
    omega
  · omega

theorem length_padding (n : Nat) (words : Nat → Nat) :
    (((List.range ((n + 7) / 8)).flatMap fun i => putUint64 (words i)).take n).length = n := by
  rw [length_take, length_flatMap]
  simp only [length_putUint64, map_const', length_range, sum_replicate_nat]
  omega

/-- A record and the padding it carries. -/
inductive Record
  | data (payload pad : Bytes)
  | filler (pad : Bytes)
  | finish (pad : Bytes)
  | switch (pad : Bytes)

namespace Record

def payload : Record → Bytes
  | data payload _ => payload
  | _ => []

def pad : Record → Bytes
  | data _ pad | filler pad | finish pad | switch pad => pad

def mark : Record → Nat
  | data payload _ => payload.length
  | filler _ => framedFillerMarker
  | finish _ => 0
  | switch _ => framedSwitchMarker

def encode (r : Record) : Bytes :=
  recordHeader (2 + r.payload.length + r.pad.length) ++ (putUint16 r.mark ++ (r.payload ++ r.pad))

/-- The sizes that the writer keeps to. -/
def Fits (r : Record) : Prop := r.payload.length + r.pad.length ≤ framedMaxData

def Body : Record → Prop
  | data payload pad => payload ≠ [] ∧ (data payload pad).Fits
  | filler pad => (filler pad).Fits
  | _ => False

theorem Body.fits {r : Record} (h : r.Body) : r.Fits := by
  cases r with
  | data payload pad => exact h.2
  | filler pad => exact h
  | finish pad | switch pad => exact h.elim

theorem length_encode (r : Record) : r.encode.length = 7 + r.payload.length + r.pad.length := by
  simp only [encode, recordHeader, length_append, length_putUint16, length_cons, length_nil]
  omega

theorem mark_lt {r : Record} (h : r.Fits) : r.mark < 65536 := by
  unfold Fits framedMaxData framedPlainTarget at h
  cases r with
  | data p q =>
    simp only [mark, payload] at h ⊢
    omega
  | filler q => exact (by decide : framedFillerMarker < 65536)
  | finish q => exact (by decide : 0 < 65536)
  | switch q => exact (by decide : framedSwitchMarker < 65536)

/-- What the reader makes of a record: data, the end of the stream, or the switch; a filler is passed. -/
def verdict : Record → Option (Except Err Bytes)
  | data payload _ => some (.ok payload)
  | filler _ => none
  | finish _ => some (.ok [])
  | switch _ => some (.error errSwitchRaw)

end Record

def encodes (rs : List Record) : Bytes := rs.flatMap Record.encode

def payloads (rs : List Record) : Bytes := rs.flatMap Record.payload

@[simp] theorem encodes_nil : encodes [] = [] := rfl
@[simp] theorem encodes_cons (r : Record) (rs : List Record) : encodes (r :: rs) = r.encode ++ encodes rs := rfl
@[simp] theorem encodes_append (rs qs : List Record) : encodes (rs ++ qs) = encodes rs ++ encodes qs :=
  flatMap_append

@[simp] theorem payloads_nil : payloads [] = [] := rfl
@[simp] theorem payloads_cons (r : Record) (rs : List Record) : payloads (r :: rs) = r.payload ++ payloads rs := rfl
@[simp] theorem payloads_append (rs qs : List Record) : payloads (rs ++ qs) = payloads rs ++ payloads qs :=
  flatMap_append

theorem length_le_encodes (rs : List Record) : rs.length ≤ (encodes rs).length := by
  induction rs with
  | nil => exact le_rfl
  | cons r rs ih =>
    rw [encodes_cons, length_append, Record.length_encode, length_cons]
    omega

theorem length_payloads_le (rs : List Record) : (payloads rs).length ≤ (encodes rs).length := by
  induction rs with
  | nil => exact le_rfl
  | cons r rs ih =>
    rw [encodes_cons, payloads_cons, length_append, length_append, Record.length_encode]
    omega

def defaultKnobs : Knobs := ⟨newShapeKnobs [], .new []⟩

def paddedDraws : Draws where
  shapedBy := defaultKnobs
  chunkMinBy := defaultKnobs
  chunkMaxBy := defaultKnobs
  padMinBy := defaultKnobs
  padMaxBy := defaultKnobs
  budget := some 3
  entry := 0
  chunk := 17
  pad := 5
  words := fun i => i

def emptyFiller : FillerDraws where
  minBy := defaultKnobs
  maxBy := defaultKnobs
  pad := 0
  words := fun _ => 0

end Whispera
