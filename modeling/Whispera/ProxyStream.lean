import Whispera.KeepAlive
import Whispera.Lib.Transition

/-! `relayTCP`, `relayUDP` and the end of `handleProxyStream` in `core/relay/relay.go`, for a keep-alive
stream; the two copies interleave. If the stream is spliced, its first framed connection is only read and its
second only written, so one `FramedConn` stands for both. The filler loop of a connection that is only read is
taken to be off. -/

namespace Whispera
open BigEndian Reader

/-- A read returns a part, the last part with the end, the end alone, meets the deadline, or finds the target
    closed. -/
inductive TargetRead
  | part
  | lastPart
  | fin
  | timeout
  | closed
  deriving DecidableEq, Repr

/-- The connection to the target: the parts that reads will return and what they report then (nothing, if it
    stays silent). A part of a UDP target is a datagram. `tcp` says whether it is a `*net.TCPConn`. -/
structure Target where
  parts : List Bytes
  fin : Option Err
  tcp : Bool
  closed : Bool := false
  deadline : Bool := false
  taken : List Bytes := []
  got : List Bytes := []
  deriving DecidableEq

def errTimeout : Err := .text "i/o timeout"
def errNetClosed : Err := .text "use of closed network connection"

def Target.read (t : Target) : TargetRead → Option (Bytes × Option Err × Target)
  | .part =>
    match t.parts with
    | data :: parts => if t.closed then none else some (data, none, { t with parts, taken := t.taken ++ [data] })
    | [] => none
  | .lastPart =>
    match t.parts, t.fin with
    | [data], some e =>
      if t.closed then none else some (data, some e, { t with parts := [], taken := t.taken ++ [data] })
    | _, _ => none
  | .fin =>
    match t.parts, t.fin with
    | [], some e => if t.closed then none else some ([], some e, t)
    | _, _ => none
  | .timeout => if t.deadline then some ([], some errTimeout, t) else none
  | .closed => if t.closed then some ([], some errNetClosed, t) else none

inductive StreamKind
  | tcp
  | splice
  | udp
  deriving DecidableEq, Repr

/-- Where the copy from the client stands. -/
inductive UpPc
  | read
  | write (data : Bytes)
  | finish (err : Option Err)
  | done
  deriving DecidableEq, Repr

/-- Where the copy from the target stands. A spliced stream that went raw is read and written as it is. -/
inductive DownPc
  | read
  | write (data : Bytes) (err : Option Err)
  | readRaw
  | writeRaw (data : Bytes) (err : Option Err)
  | finish (err : Option Err)
  | done
  deriving DecidableEq, Repr

/-- `left` counts down to the switch of a spliced stream; `result` is what `handleProxyStream` returned. -/
structure ProxyStream where
  kind : StreamKind
  framed : FramedConn
  target : Target
  left : Int
  up : UpPc := .read
  down : DownPc := .read
  result : Option Bool := none

def ProxyStream.start (kind : StreamKind) (inp : Stream) (room : Option Nat) (parts : List Bytes) (fin : Option Err)
    (tcp : Bool) (left : Int) : ProxyStream where
  kind := kind
  framed := { inp, out := ⟨[], room⟩ }
  target := { parts, fin, tcp }
  left := left

def datagramFrame (data : Bytes) : Bytes := putUint16 data.length ++ data

def errFrameSize : Err := .text "invalid UDP frame size 0"

def readDatagram (c : FramedConn) : Except Err Bytes × FramedConn :=
  match readFull FramedConn.read 2 c with
  | (_, some e, c) => (.error e, c)
  | (hdr, none, c) =>
    if get hdr = 0 then (.error errFrameSize, c)
    else
      match readFull FramedConn.read (get hdr) c with
      | (_, some e, c) => (.error e, c)
      | (data, none, c) => (.ok data, c)

/-- `buf.Copy` takes the end of the stream for a success. -/
def copyErr (e : Err) : Option Err := if e = .eof then none else some e

inductive ProxyAct
  | upRead
  | upWrite (err : Option Err)
  | upFinish
  | downRead (r : TargetRead)
  | downWrite (d : Nat → Draws)
  | downSwitch (d : Draws)
  | downFinish (d : Draws)
  | filler (d : FillerDraws)
  | collect (d : Draws)

namespace ProxyStream

/-- How the copy from the target ends: `spliceFrom`, before the switch, and `relayUDP` pass the end of the
    target on as it is. -/
def readErr (s : ProxyStream) (e : Err) : Option Err :=
  match s.kind with
  | .tcp => copyErr e
  | .splice | .udp => some e

def frame (kind : StreamKind) (data : Bytes) : Bytes :=
  match kind with
  | .udp => if data = [] then [] else datagramFrame data
  | .tcp | .splice => data

def upRead (s : ProxyStream) : ProxyStream :=
  match s.kind with
  | .udp =>
    match readDatagram s.framed with
    | (.ok data, framed) => { s with framed, up := .write data }
    | (.error e, framed) => { s with framed, up := .finish (some e) }
  | .tcp | .splice =>
    match s.framed.read bufSize with
    | (data, none, framed) => { s with framed, up := .write data }
    | (_, some e, framed) => { s with framed, up := .finish (copyErr e) }

def upWrite (s : ProxyStream) (data : Bytes) (err : Option Err) : ProxyStream :=
  match err with
  | some e => { s with up := .finish (some e) }
  | none => { s with target := { s.target with got := s.target.got ++ [data] }, up := .read }

/-- A TCP target is told of the end and gets a deadline; any other, and one that could not be written, is
    closed. -/
def upFinish (s : ProxyStream) (err : Option Err) : ProxyStream :=
  if s.kind ≠ .udp ∧ err = none ∧ s.target.tcp then
    { s with target := { s.target with deadline := true }, up := .done }
  else { s with target := { s.target with closed := true }, up := .done }

/-- After a read from the target: what it returned is written next, and then its error counts. -/
def downRead (s : ProxyStream) (data : Bytes) (err : Option Err) (target : Target) : ProxyStream :=
  match err with
  | none => { s with target, down := if data = [] then .read else .write data none }
  | some e => { s with target, down := if data = [] then .finish (s.readErr e) else .write data (some e) }

def downWrite (s : ProxyStream) (d : Nat → Draws) (data : Bytes) (err : Option Err) : ProxyStream :=
  match s.framed.write d (frame s.kind data) with
  | (framed, n, some e) => { s with framed, left := s.left - n, down := .finish (some e) }
  | (framed, n, none) =>
    { s with framed, left := s.left - n, down := match err with | none => .read | some e => .finish (s.readErr e) }

def downSwitch (s : ProxyStream) (d : Draws) : ProxyStream :=
  match s.framed.switchRaw d with
  | (framed, some e) => { s with framed, down := .finish (some e) }
  | (framed, none) => { s with framed, down := .readRaw }

def downReadRaw (s : ProxyStream) (data : Bytes) (err : Option Err) (target : Target) : ProxyStream :=
  match err with
  | none => { s with target, down := if data = [] then .readRaw else .writeRaw data none }
  | some e => { s with target, down := if data = [] then .finish (copyErr e) else .writeRaw data (some e) }

def downWriteRaw (s : ProxyStream) (data : Bytes) (err : Option Err) : ProxyStream :=
  match s.framed.out.write data with
  | (some e, out) => { s with framed := { s.framed with out }, down := .finish (some e) }
  | (none, out) =>
    { s with framed := { s.framed with out }, down := match err with
      | none => .readRaw | some e => .finish (copyErr e) }

/-- `relayTCP` marks the end of the answer if the copy succeeded; `relayUDP` closes the framed connection,
    which marks it. -/
def downFinish (s : ProxyStream) (d : Draws) (err : Option Err) : ProxyStream :=
  if s.kind = .udp ∨ err = none then { s with framed := (s.framed.endStream d).1, down := .done }
  else { s with down := .done }

def collect (s : ProxyStream) (d : Draws) : ProxyStream :=
  if s.framed.done ∧ s.framed.switched = false then
    match s.framed.endStream d with
    | (framed, err) => { s with framed, result := some (err = none) }
  else { s with result := some false }

def step (s : ProxyStream) : ProxyAct → Option ProxyStream
  | .upRead => if s.up = .read then some s.upRead else none
  | .upWrite err =>
    match s.up with
    | .write data => some (s.upWrite data err)
    | _ => none
  | .upFinish =>
    match s.up with
    | .finish err => some (s.upFinish err)
    | _ => none
  | .downRead r =>
    match s.down with
    | .read =>
      if s.kind = .splice ∧ s.left ≤ 0 then none
      else (s.target.read r).map fun (data, err, target) => s.downRead data err target
    | .readRaw => (s.target.read r).map fun (data, err, target) => s.downReadRaw data err target
    | _ => none
  | .downWrite d =>
    match s.down with
    | .write data err => some (s.downWrite d data err)
    | .writeRaw data err => some (s.downWriteRaw data err)
    | _ => none
  | .downSwitch d => if s.kind = .splice ∧ s.left ≤ 0 ∧ s.down = .read then some (s.downSwitch d) else none
  | .downFinish d =>
    match s.down with
    | .finish err => some (s.downFinish d err)
    | _ => none
  | .filler d => if s.result = none then some { s with framed := (s.framed.writeFiller d).1 } else none
  | .collect d => if s.up = .done ∧ s.down = .done ∧ s.result = none then some (s.collect d) else none

end ProxyStream

end Whispera
