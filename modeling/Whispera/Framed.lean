import Whispera.Lib.Bytes
import Whispera.Lib.Reader

/-! `core/protocol/framed.go`. The knobs are loaded one at a time while another goroutine may set them, so a
minimum and a maximum may come from two settings. -/

namespace Whispera
open BigEndian Reader

def framedWireTarget : Nat := 5 + 16384 + 1 + 16
def framedPlainTarget : Nat := 16384
def framedMaxData : Nat := framedPlainTarget - 5 - 2

def shapePadMin : Int := 111
def shapePadMax : Int := 1111
def shapePadRecords : Int := 3

def shapeChunkMin : Int := 4096
def shapeChunkMax : Int := framedMaxData

def framedSwitchMarker : Nat := 0xFFFF
def framedFillerMarker : Nat := 0xFFFE

def errShapeRange : Err := .text "whispera: shape value out of range"
def errFramedBadRecord : Err := .text "whispera: bad framed record"
def errSwitchRaw : Err := .text "whispera: framed switched to raw"

structure ShapeKnobs where
  records : Int
  min : Int
  max : Int
  fillIdle : Int
  fillInterval : Int
  fillMin : Int
  fillMax : Int
  chunkMin : Int
  chunkMax : Int
  chunkShaped : Bool

def int32 (x : Int) : Int := Int.bmod x (2 ^ 32)

/-- `strconv.Atoi`: an optional sign and decimal digits, within 64 bits. -/
def atoi (s : List Char) : Option Int :=
  let (neg, ds) := match s with
    | '-' :: ds => (true, ds)
    | '+' :: ds => (false, ds)
    | ds => (false, ds)
  if ds = [] ∨ ds.any (fun c => !c.isDigit) then none
  else
    let m : Int := ds.foldl (fun a c => a * 10 + (c.toNat - '0'.toNat)) 0
    let n := if neg then -m else m
    if -2 ^ 63 ≤ n ∧ n < 2 ^ 63 then some n else none

/-- The chunk range of `WHISPERA_CHUNK`: "min-max" or a single number. Anything unparsable keeps the built-in
    range. -/
def chunkDefaults (v : List Char) : Int × Int :=
  if v = [] then (shapeChunkMin, shapeChunkMax)
  else
    let i := v.findIdx (· == '-')
    let (lo, hi) := if 0 < i ∧ i < v.length then (v.take i, v.drop (i + 1)) else (v, v)
    match atoi lo, atoi hi with
    | some a, some b =>
      if a < 0 ∨ b < 0 ∨ framedMaxData < b ∨ (0 < b ∧ b < a) then (shapeChunkMin, shapeChunkMax) else (a, b)
    | _, _ => (shapeChunkMin, shapeChunkMax)

def newShapeKnobs (v : List Char) : ShapeKnobs where
  records := shapePadRecords
  min := shapePadMin
  max := shapePadMax
  fillIdle := 0
  fillInterval := 0
  fillMin := 0
  fillMax := 0
  chunkMin := int32 (chunkDefaults v).1
  chunkMax := int32 (chunkDefaults v).2
  chunkShaped := v = "shape".toList

def ShapeKnobs.set (k : ShapeKnobs) (records min max : Int) : Except Err ShapeKnobs :=
  if records < 0 ∨ 64 < records then .error errShapeRange
  else if min < 0 ∨ framedMaxData < max ∨ max < min then .error errShapeRange
  else .ok { k with records := int32 records, min := int32 min, max := int32 max }

def ShapeKnobs.setChunk (k : ShapeKnobs) (min max : Int) : Except Err ShapeKnobs :=
  if min < 0 ∨ max < 0 ∨ framedMaxData < max ∨ (0 < max ∧ max < min) then .error errShapeRange
  else .ok { k with chunkMin := int32 min, chunkMax := int32 max }

def ShapeKnobs.setFiller (k : ShapeKnobs) (idleMs intervalMs min max : Int) : Except Err ShapeKnobs :=
  if idleMs < 0 ∨ intervalMs < 0 ∨ 60000 < intervalMs then .error errShapeRange
  else if min < 0 ∨ framedMaxData < max ∨ max < min then .error errShapeRange
  else .ok { k with fillIdle := int32 idleMs, fillInterval := int32 intervalMs,
                    fillMin := int32 min, fillMax := int32 max }

/-- The settings that the knobs can have: the initial ones, and those that accepted calls leave. -/
inductive ShapeKnobs.Reached : ShapeKnobs → Prop
  | new (v : List Char) : Reached (newShapeKnobs v)
  | set {k k' : ShapeKnobs} (records min max : Int) : Reached k → k.set records min max = .ok k' → Reached k'
  | setChunk {k k' : ShapeKnobs} (min max : Int) : Reached k → k.setChunk min max = .ok k' → Reached k'
  | setFiller {k k' : ShapeKnobs} (idleMs intervalMs min max : Int) :
      Reached k → k.setFiller idleMs intervalMs min max = .ok k' → Reached k'

abbrev Knobs := { k : ShapeKnobs // k.Reached }

/-- How many records still get padded; `none` is the nil budget. -/
abbrev ShapeBudget := Option Int

def ShapeBudget.take (b : ShapeBudget) : Bool × ShapeBudget :=
  match b with
  | none => (false, none)
  | some v => if v ≤ 0 then (false, some v) else (true, some (v - 1))

/-- What the write of one record takes from its surroundings: the settings at each load, the padding budget,
    which other streams draw on too, the entry of `chunkShape`, the draws of `mrand.Intn`, and the random
    words of the padding. -/
structure Draws where
  shapedBy : Knobs
  chunkMinBy : Knobs
  chunkMaxBy : Knobs
  padMinBy : Knobs
  padMaxBy : Knobs
  budget : ShapeBudget
  entry : Nat
  chunk : Nat
  pad : Nat
  words : Nat → Nat

def intn (draw : Nat) (n : Int) : Int := draw % n

/-- 5 TLS header, 1 content type, 16 AEAD tag, 7 ours. -/
def chunkWireOverhead : Int := 29

def chunkShape : List (Int × Int) :=
  [(0, 64), (64, 128), (128, 256), (256, 512), (512, 1024), (1024, 2048), (2048, 4096), (4096, 8192), (8192, 16000),
    (16000, framedMaxData + chunkWireOverhead)]

/-- The loop over the weights ends at one entry, or, when rounding leaves a rest, behind the last one. -/
def shapedChunk (entry draw left : Nat) : Nat :=
  match chunkShape[entry]? with
  | none => left
  | some (l, h) =>
    let lo := if l - chunkWireOverhead < 1 then 1 else l - chunkWireOverhead
    let hi := if framedMaxData < h - chunkWireOverhead then (framedMaxData : Int) else h - chunkWireOverhead
    let hi := if hi ≤ lo then lo + 1 else hi
    let n := lo + intn draw (hi - lo)
    if n < left then n.toNat else left

def chunkLen (d : Draws) (left : Nat) : Nat :=
  if d.shapedBy.val.chunkShaped then shapedChunk d.entry d.chunk left
  else
    let min := d.chunkMinBy.val.chunkMin
    let max := d.chunkMaxBy.val.chunkMax
    if max ≤ 0 then left
    else
      let min := if min < 1 then 1 else min
      let want := if min < max then min + intn d.chunk (max - min + 1) else min
      if want < left then want.toNat else left

def shapePadLen (d : Draws) (room : Nat) : Nat :=
  if room = 0 then 0
  else
    let min := d.padMinBy.val.min
    let max := d.padMaxBy.val.max
    if max ≤ min then 0
    else
      let pad := min + intn d.pad (max - min + 1)
      if room < pad then room else pad.toNat

/-- The padding is copied word by word; of the last word only what still fits. -/
def appendShapePad (out : Bytes) (n : Nat) (words : Nat → Nat) : Bytes :=
  out ++ ((List.range ((n + 7) / 8)).flatMap fun i => putUint64 (words i)).take n

structure FillerDraws where
  minBy : Knobs
  maxBy : Knobs
  pad : Nat
  words : Nat → Nat

def FillerDraws.len (d : FillerDraws) : Nat :=
  let min := d.minBy.val.fillMin
  let max := d.maxBy.val.fillMax
  (if min < max then min + intn d.pad (max - min + 1) else min).toNat

/-- A framed connection. Its buffers and the state of the filler loop carry no data from one call to the next.
    -/
structure FramedConn where
  inp : Stream
  out : Sink
  rbuf : Bytes := []
  done : Bool := false
  ended : Bool := false
  endErr : Option Err := none
  switched : Bool := false

def recordHeader (body : Nat) : Bytes := [0x17, 0x03, 0x03] ++ putUint16 body

def fillerRecord (d : FillerDraws) : Bytes :=
  appendShapePad (recordHeader (2 + d.len) ++ putUint16 framedFillerMarker) d.len d.words

namespace FramedConn

def writeFiller (c : FramedConn) (d : FillerDraws) : FramedConn × Option Err :=
  if c.ended then (c, some .closedPipe)
  else
    let (err, out) := c.out.write (fillerRecord d)
    ({ c with out }, err)

/-- The loop of `Write`: `b` is left, `sent` bytes went out. Each round takes a byte of `b`, which bounds the
    rounds. -/
def writeLoop (c : FramedConn) : Nat → (Nat → Draws) → Bytes → Nat → FramedConn × Nat × Option Err
  | 0, _, _, sent => (c, sent, none)
  | fuel + 1, d, b, sent =>
    if b = [] then (c, sent, none)
    else
      let n := chunkLen (d 0) b.length
      let n := if framedMaxData < n then framedMaxData else n
      let pad := if (d 0).budget.take.1 then shapePadLen (d 0) (framedMaxData - n) else 0
      let record := recordHeader (2 + n + pad) ++ putUint16 n ++ b.take n
      match c.out.write (appendShapePad record pad (d 0).words) with
      | (some e, out) => ({ c with out }, sent, some e)
      | (none, out) => writeLoop { c with out } fuel (fun i => d (i + 1)) (b.drop n) (sent + n)

def write (c : FramedConn) (d : Nat → Draws) (b : Bytes) : FramedConn × Nat × Option Err :=
  if c.ended then (c, 0, some .closedPipe) else c.writeLoop b.length d b 0

def writeMarker (c : FramedConn) (d : Draws) (marker : Nat) : FramedConn × Option Err :=
  let pad := if d.budget.take.1 then shapePadLen d framedMaxData else 0
  let (err, out) := c.out.write (appendShapePad (recordHeader (2 + pad) ++ putUint16 marker) pad d.words)
  ({ c with out }, err)

def switchRaw (c : FramedConn) (d : Draws) : FramedConn × Option Err :=
  if c.ended then (c, none) else { c with ended := true, switched := true }.writeMarker d framedSwitchMarker

def endStream (c : FramedConn) (d : Draws) : FramedConn × Option Err :=
  if c.ended then (c, c.endErr)
  else
    let (c, err) := { c with ended := true }.writeMarker d 0
    ({ c with endErr := err }, err)

/-- `readRecord`. A filler makes it start over; every record takes bytes off the transport, which bounds the
    rounds. -/
def readRecordLoop : Nat → Stream → Except Err Bytes × Stream
  | 0, s => (.error .noProgress, s)
  | fuel + 1, s =>
    match readFull Stream.read 5 s with
    | (_, some e, s) => (.error e, s)
    | (hdr, none, s) =>
      if hdr.take 1 ≠ [0x17] then (.error errFramedBadRecord, s)
      else
        let body := get (hdr.drop 3)
        if body < 2 ∨ framedWireTarget < body then (.error errFramedBadRecord, s)
        else
          match readFull Stream.read body s with
          | (_, some e, s) => (.error e, s)
          | (record, none, s) =>
            let dataLen := get (record.take 2)
            if dataLen = framedSwitchMarker then (.error errSwitchRaw, s)
            else if dataLen = framedFillerMarker then readRecordLoop fuel s
            else if body < 2 + dataLen then (.error errFramedBadRecord, s)
            else (.ok ((record.drop 2).take dataLen), s)

def readRecord (s : Stream) : Except Err Bytes × Stream := readRecordLoop (s.bytes.length + 1) s

def read (n : Nat) (c : FramedConn) : Bytes × Option Err × FramedConn :=
  if c.rbuf ≠ [] then (c.rbuf.take n, none, { c with rbuf := c.rbuf.drop n })
  else if c.done then ([], some .eof, c)
  else
    match readRecord c.inp with
    | (.error e, inp) => ([], some e, { c with inp })
    | (.ok [], inp) => ([], some .eof, { c with inp, done := true })
    | (.ok data, inp) => (data.take n, none, { c with inp, rbuf := data.drop n })

end FramedConn

/-- `SkipFillerRecord`, after the first three bytes of a record: whether it was a filler. -/
def skipFillerRecord (s : Stream) : Bool × Stream :=
  match readFull Stream.read 2 s with
  | (_, some _, s) => (false, s)
  | (size, none, s) =>
    let body := get size
    if body < 2 ∨ framedWireTarget < body then (false, s)
    else
      match readFull Stream.read body s with
      | (_, some _, s) => (false, s)
      | (record, none, s) => (get (record.take 2) = framedFillerMarker, s)

end Whispera
