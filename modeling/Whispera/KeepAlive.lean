import Whispera.Framed

/-! The model of `keepAliveStream` in `core/tunnel/keepalive.go`. -/

namespace Whispera
open BigEndian Reader

/-- The two framed connections of a `keepAliveStream`, one unless it is spliced; reading and writing share no
    field of it. -/
structure KeepAliveStream where
  up : FramedConn
  down : FramedConn

def KeepAliveStream.read (n : Nat) (c : KeepAliveStream) : Bytes × Option Err × KeepAliveStream :=
  let (data, err, down) := c.down.read n
  (data, err, { c with down })

def bufSize : Nat := 66048

def KeepAliveStream.rounds (c : KeepAliveStream) : Nat := c.down.rbuf.length + c.down.inp.bytes.length + 1

/-- `SpliceTo`. The connection it goes on with is the one that `down` reads. -/
def KeepAliveStream.spliceTo (c : KeepAliveStream) (dst : Sink) : Option Err × KeepAliveStream × Sink :=
  match copy KeepAliveStream.read bufSize c.rounds c dst with
  | (err, c, dst) =>
    if err = some errSwitchRaw then
      let (err, inp, dst) := copy Stream.read 32768 (c.down.inp.bytes.length + 1) c.down.inp dst
      (err, { c with down := { c.down with inp } }, dst)
    else (err, c, dst)

def drainLimit : Int := 65536

/-- The loop of `drainToEnd`. Every read without an error returns a byte, so the limit bounds the rounds. -/
def drainLoop : Nat → Int → FramedConn → Bool × FramedConn
  | 0, _, down => (false, down)
  | fuel + 1, left, down =>
    if left ≤ 0 then (false, down)
    else
      match down.read 16384 with
      | (_, some e, down) => (e = .eof ∧ down.done, down)
      | (discard, none, down) => drainLoop fuel (left - discard.length) down

def drainToEnd (down : FramedConn) : Bool × FramedConn :=
  if down.done then (true, down) else drainLoop 65536 drainLimit down

/-- `Close`, on a connection whose deadlines can be set: whether the connection goes to the idle pool. -/
def KeepAliveStream.close (d : Draws) (c : KeepAliveStream) : Bool × KeepAliveStream :=
  match c.up.endStream d with
  | (up, some _) => (false, { c with up })
  | (up, none) =>
    if c.down.switched then (false, { c with up })
    else
      let (parked, down) := drainToEnd c.down
      (parked, { up, down })

end Whispera
