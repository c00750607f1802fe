import Whispera.Lib.Strings
import Whispera.ProxyStream
import Whispera.Session

/-! `core/tunnel/datapath.go`, and the refusals of `core/protocol/common.go`. -/

namespace Whispera
open BigEndian Reader

def denialMagic : Bytes := [0xFF, 0x57, 0x44, 0x4E]
def denialMaxLen : Nat := 512

def writeDenial (msg : Bytes) : Bytes :=
  let msg := if denialMaxLen < msg.length then msg.take denialMaxLen else msg
  denialMagic ++ (putUint16 msg.length ++ msg)

def parseDenial (b : Bytes) : Option Bytes :=
  if b.length < denialMagic.length + 2 ∨ b.take denialMagic.length ≠ denialMagic then none
  else
    let n := get ((b.drop denialMagic.length).take 2)
    let body := b.drop (denialMagic.length + 2)
    if n = 0 ∨ body.length < n then none else some (body.take n)

def errDenied (msg : Bytes) : Err := .text ("whispera: " ++ Strings.ofBytes msg)

/-- What `decoyLeaveConn` reads from, and whether it has looked for a refusal. -/
structure DecoyLeaveConn where
  conn : Stream
  denyChecked : Bool := false

def DecoyLeaveConn.read (n : Nat) (d : DecoyLeaveConn) : Bytes × Option Err × DecoyLeaveConn :=
  match d.conn.read n with
  | (data, err, conn) =>
    if d.denyChecked then (data, err, { d with conn })
    else
      match parseDenial data with
      | some msg => ([], some (errDenied msg),
        { conn := { conn with bytes := [], fin := errNetClosed }, denyChecked := true })
      | none => (data, err, { conn, denyChecked := true })

/-- `FramedConn.readRecord` over any connection; `FramedConn.readRecordLoop` is the one over a transport. -/
def readRecordFrom {σ : Type} (read : Read σ) : Nat → σ → Except Err Bytes × σ
  | 0, s => (.error .noProgress, s)
  | fuel + 1, s =>
    match readFull read 5 s with
    | (_, some e, s) => (.error e, s)
    | (hdr, none, s) =>
      if hdr.take 1 ≠ [0x17] then (.error errFramedBadRecord, s)
      else
        let body := get (hdr.drop 3)
        if body < 2 ∨ framedWireTarget < body then (.error errFramedBadRecord, s)
        else
          match readFull read body s with
          | (_, some e, s) => (.error e, s)
          | (record, none, s) =>
            let dataLen := get (record.take 2)
            if dataLen = framedSwitchMarker then (.error errSwitchRaw, s)
            else if dataLen = framedFillerMarker then readRecordFrom read fuel s
            else if body < 2 + dataLen then (.error errFramedBadRecord, s)
            else (.ok ((record.drop 2).take dataLen), s)

/-- How a stream is read: as it comes, or framed. -/
inductive StreamMode
  | plain
  | keepAlive
  deriving DecidableEq, Repr

/-- The first `Read` of a stream on a new connection, into a buffer of `n` bytes. -/
def firstRead (mode : StreamMode) (n : Nat) (s : Stream) : Bytes × Option Err :=
  match mode with
  | .plain =>
    let (data, err, _) := DecoyLeaveConn.read n { conn := s }
    (data, err)
  | .keepAlive =>
    match readRecordFrom DecoyLeaveConn.read (s.bytes.length + 1) { conn := s } with
    | (.error e, _) => ([], some e)
    | (.ok data, _) => if data = [] then ([], some .eof) else (data.take n, none)

structure DialledConn where
  id : Nat
  raw : Bool
  deriving DecidableEq, Repr

/-- A connection as it was dialled, or in a `decoyLeaveConn` with the number of its padding budget. -/
inductive BaseConn
  | dialled (c : DialledConn)
  | decoy (c : DialledConn) (pad : Nat)
  deriving DecidableEq, Repr

def BaseConn.conn : BaseConn → DialledConn
  | .dialled c | .decoy c _ => c

/-- `Shape`, and every budget that was made. -/
structure ShapePads where
  knobs : Knobs
  budgets : List ShapeBudget := []

def ShapePads.newShapeBudget (p : ShapePads) : Nat × ShapePads :=
  (p.budgets.length, { p with budgets := p.budgets ++ [some p.knobs.val.records] })

def ShapePads.shapeBudgetOf (p : ShapePads) : BaseConn → Nat × ShapePads
  | .decoy _ pad => (pad, p)
  | .dialled _ => p.newShapeBudget

/-- What `SpliceEnabled` and `FullFrameEnabled` return when the decision to splice is made. -/
structure SpliceSettings where
  spliceEnabled : Bool
  fullFrame : Bool
  deriving DecidableEq, Repr

def SpliceSettings.splice (e : SpliceSettings) (proto : UInt8) (c : DialledConn) : Bool :=
  proto &&& spliceProtoBit ≠ 0 ∧ e.spliceEnabled ∧ c.raw ∧ ¬e.fullFrame

structure OpenChoices where
  dialer : Bool
  keepAlive : Bool
  taken : Option BaseConn
  dial : Option DialledConn
  first : SpliceSettings
  write : Bool
  redial : Option DialledConn
  second : SpliceSettings
  rewrite : Bool

inductive OpenError
  | noDialer
  | dial
  | header
  deriving DecidableEq, Repr

/-- A `keepAliveStream`: its connection, its budget, and whether `down` frames the raw connection. -/
structure OpenedStream where
  base : BaseConn
  pad : Nat
  downRaw : Bool
  deriving DecidableEq, Repr

inductive Opened
  | plain (c : BaseConn)
  | keepAlive (s : OpenedStream)
  deriving DecidableEq, Repr

namespace OpenChoices

def finish (c : OpenChoices) (p : ShapePads) (conn : BaseConn) (reused splice : Bool) : Opened × ShapePads :=
  if c.keepAlive = false then
    let (pad, p) := p.newShapeBudget
    (.plain (.decoy conn.conn pad), p)
  else
    let (base, p) := if reused then (conn, p) else
      let (pad, p) := p.newShapeBudget
      (.decoy conn.conn pad, p)
    let (pad, p) := p.shapeBudgetOf base
    (.keepAlive { base, pad, downRaw := splice }, p)

/-- If a connection from the pool does not take the header, it goes out once more on a new one: the same
    header, but the decision to splice is made again. -/
def sendHeader (c : OpenChoices) (p : ShapePads) (proto : UInt8) (addr : Bytes) (port : Nat) (conn : BaseConn)
    (reused : Bool) : Except OpenError Opened × List (DialledConn × Bytes) × ShapePads :=
  let splice := c.first.splice proto conn.conn
  let header := streamHeader proto c.keepAlive splice addr port
  if c.write then
    let (opened, p) := c.finish p conn reused splice
    (.ok opened, [(conn.conn, header)], p)
  else if reused = false then (.error .header, [(conn.conn, header)], p)
  else
    match c.redial with
    | none => (.error .dial, [(conn.conn, header)], p)
    | some fresh =>
      let splice := c.second.splice proto fresh
      if c.rewrite then
        let (opened, p) := c.finish p (.dialled fresh) false splice
        (.ok opened, [(conn.conn, header), (fresh, header)], p)
      else (.error .header, [(conn.conn, header), (fresh, header)], p)

end OpenChoices

def openStreamPerFlow (c : OpenChoices) (p : ShapePads) (proto : UInt8) (addr : Bytes) (port : Nat) :
    Except OpenError Opened × List (DialledConn × Bytes) × ShapePads :=
  if c.dialer = false then (.error .noDialer, [], p)
  else
    match if c.keepAlive then c.taken else none with
    | some conn => c.sendHeader p proto addr port conn true
    | none =>
      match c.dial with
      | none => (.error .dial, [], p)
      | some conn => c.sendHeader p proto addr port (.dialled conn) false

/-- Where a connection is: in the idle pool, under a stream that draws on a padding budget, or closed. -/
inductive Place
  | idle
  | stream (pad : Nat)
  | gone
  deriving DecidableEq, Repr

/-- A connection of the client. Besides, the record count in force when its first stream was opened, and how
    many records were padded at the cost of a budget. -/
structure ConnUse where
  raw : Bool
  decoy : Option Nat := none
  place : Place
  first : Option Int := none
  padded : Nat := 0
  deriving DecidableEq, Repr

def ConnUse.base (u : ConnUse) (id : Nat) : BaseConn :=
  match u.decoy with
  | some pad => .decoy ⟨id, u.raw⟩ pad
  | none => .dialled ⟨id, u.raw⟩

structure Datapath where
  shape : ShapePads
  conns : List ConnUse := []

namespace Datapath

structure OpenAct where
  dialer : Bool := true
  keepAlive : Bool := true
  taken : Option Nat := none
  dial : Option Bool := none
  first : SpliceSettings
  write : Bool := true
  redial : Option Bool := none
  second : SpliceSettings
  rewrite : Bool := true
  proto : UInt8
  addr : Bytes
  port : Nat
  deriving DecidableEq, Repr

/-- `record` is written on the stream of a connection, with data or as the mark of its end; `leave` closes an
    idle connection. -/
inductive Act
  | setShape (records min max : Int)
  | connect (raw keepAlive : Bool)
  | openStream (a : OpenAct)
  | record (i : Nat)
  | close (i : Nat) (parked : Bool)
  | leave (i : Nat)

def idleConn (s : Datapath) (i : Nat) : Option BaseConn :=
  match s.conns[i]? with
  | some u => if u.place = .idle then some (u.base i) else none
  | none => none

/-- A connection that is dialled gets the next number. -/
def choices (s : Datapath) (a : OpenAct) : OpenChoices where
  dialer := a.dialer
  keepAlive := a.keepAlive
  taken := a.taken.bind s.idleConn
  dial := a.dial.map fun raw => ⟨s.conns.length, raw⟩
  first := a.first
  write := a.write
  redial := a.redial.map fun raw => ⟨s.conns.length, raw⟩
  second := a.second
  rewrite := a.rewrite

def carry (shape : ShapePads) (u : ConnUse) (st : OpenedStream) : ConnUse :=
  { u with
    decoy := match st.base with
      | .decoy _ pad => some pad
      | .dialled _ => none
    place := .stream st.pad
    first := u.first.or (some shape.knobs.val.records) }

/-- The connections after a call that tried those with the given numbers and opened a stream on none of them.
    -/
def closeTried (conns : List ConnUse) (ids : List Nat) : List ConnUse :=
  conns.mapIdx fun i u => if i ∈ ids then { u with place := .gone } else u

def opened (s : Datapath) (a : OpenAct) : Datapath :=
  match openStreamPerFlow (s.choices a) s.shape a.proto a.addr a.port with
  | (.ok (.keepAlive st), tried, shape) =>
    let conns := closeTried s.conns (tried.map fun w => w.1.id)
    match conns[st.base.conn.id]? with
    | some u => { shape, conns := conns.set st.base.conn.id (carry s.shape u st) }
    | none => { shape, conns := conns ++ [carry s.shape { raw := st.base.conn.raw, place := .gone } st] }
  | (.ok (.plain _), tried, shape) | (.error _, tried, shape) =>
    { shape, conns := closeTried s.conns (tried.map fun w => w.1.id) }

/-- A record of the stream on connection `i` draws on the budget `pad`. -/
def spend (s : Datapath) (i : Nat) (u : ConnUse) (pad : Nat) : Datapath :=
  match (s.shape.budgets[pad]?.getD none).take with
  | (taken, b) =>
    { shape := { s.shape with budgets := s.shape.budgets.set pad b }
      conns := if taken then s.conns.set i { u with padded := u.padded + 1 } else s.conns }

def step (s : Datapath) : Act → Option Datapath
  | .setShape records min max =>
    match h : s.shape.knobs.val.set records min max with
    | .ok k => some { s with shape := { s.shape with knobs := ⟨k, .set records min max s.shape.knobs.property h⟩ } }
    | .error _ => some s
  | .connect raw keepAlive => some (if keepAlive then { s with conns := s.conns ++ [{ raw, place := .idle }] } else s)
  | .openStream a => some (s.opened a)
  | .record i =>
    match s.conns[i]? with
    | some u =>
      match u.place with
      | .stream pad => some (s.spend i u pad)
      | .idle | .gone => none
    | none => none
  | .close i parked =>
    match s.conns[i]? with
    | some u =>
      match u.place with
      | .stream _ => some { s with conns := s.conns.set i { u with place := if parked then .idle else .gone } }
      | .idle | .gone => none
    | none => none
  | .leave i =>
    match s.conns[i]? with
    | some u =>
      match u.place with
      | .idle => some { s with conns := s.conns.set i { u with place := .gone } }
      | .stream _ | .gone => none
    | none => none

def new (chunk : List Char) : Datapath where
  shape := { knobs := ⟨newShapeKnobs chunk, .new chunk⟩ }

end Datapath
end Whispera
