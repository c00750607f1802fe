import Whispera.KeepAlive

/-! `spliceFrom` of `core/relay/relay.go` on the server, and on the client the pump of `Relay` in
`common/buf/buf_relay.go`, as `Module.route` of `core/socks5/module.go` starts it. -/

namespace Whispera
open BigEndian Reader

def spliceAfterBytes : Int := 4194304
def spliceReadBuf : Nat := 65536

/-- The first loop of `spliceFrom`. Every round reads a byte or comes to the end of the target, which bounds
    the rounds. -/
def spliceLoop : Nat → (Nat → Nat → Draws) → FramedConn → Int → Stream → FramedConn × Option Err × Stream
  | 0, _, down, _, src => (down, some .noProgress, src)
  | fuel + 1, d, down, left, src =>
    if left ≤ 0 then (down, none, src)
    else
      match src.read spliceReadBuf with
      | (pre, rerr, src) =>
        match if pre = [] then (down, 0, none) else down.write (d 0) pre with
        | (down, _, some werr) => (down, some werr, src)
        | (down, n, none) =>
          match rerr with
          | some e => (down, some e, src)
          | none => spliceLoop fuel (fun i => d (i + 1)) down (left - n) src

/-- `spliceFrom`: the framed bytes, the switch, and the rest of the target as it is. -/
def spliceFrom (d : Nat → Nat → Draws) (dSwitch : Draws) (down : FramedConn) (left : Int) (src : Stream) :
    FramedConn × Option Err × Stream :=
  match spliceLoop (src.bytes.length + 1) d down left src with
  | (down, some e, src) => (down, some e, src)
  | (down, none, src) =>
    match down.switchRaw dSwitch with
    | (down, some e) => (down, some e, src)
    | (down, none) =>
      let (err, src, out) := copy Stream.read 32768 (src.bytes.length + 1) src down.out
      ({ down with out }, err, src)

/-- The down side as `relayTCP` and `handleProxyStream` leave it. The end is marked when `spliceFrom`
    succeeds, and, unless the stream went raw, when the end mark of the client was read. -/
def serveSpliced (d : Nat → Nat → Draws) (dSwitch dEnd : Draws) (left : Int) (src : Stream) (clientEnded : Bool)
    (raw : FramedConn) : FramedConn :=
  let (down, err, _) := spliceFrom d dSwitch raw left src
  let down := if err = none then (down.endStream dEnd).1 else down
  if clientEnded ∧ down.switched = false then (down.endStream dEnd).1 else down

structure CountReader where
  r : KeepAliveStream
  n : Nat

def CountReader.read (n : Nat) (c : CountReader) : Bytes × Option Err × CountReader :=
  let (data, err, r) := c.r.read n
  (data, err, { r, n := c.n + data.length })

inductive RelaySource
  | stream (c : KeepAliveStream)
  | counter (c : CountReader)

/-- A pump of `Relay`: only the stream itself is a `spliceSource`. -/
def pump (dst : Sink) : RelaySource → Sink
  | .stream c => (c.spliceTo dst).2.2
  | .counter c => (copy CountReader.read bufSize c.r.rounds c dst).2.2

/-- The pump towards the SOCKS client `dst`, as `Module.route` starts it. -/
def routeDown (spliced : Bool) (c : KeepAliveStream) (dst : Sink) : Sink :=
  pump dst (if spliced then .counter { r := c, n := 0 } else .stream c)

end Whispera
