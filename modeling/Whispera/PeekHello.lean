import Whispera.ClientHello
import Whispera.Lib.Reader
import Whispera.Selector

/-! `core/protocol/camouflage.go`: what the server reads of a new connection, and to whom that goes then. A
stream that stalls reports the error of the deadline. -/

namespace Whispera
open Exec BigEndian Reader

structure PeekConn where
  stream : Stream
  deadline : Nat → Option Err := fun _ => none

namespace PeekConn

def read (n : Nat) (c : PeekConn) : Bytes × Option Err × PeekConn :=
  let next : Nat → Option Err := fun i => c.deadline (i + 1)
  match c.deadline 0 with
  | some e => ([], some e, { c with deadline := next })
  | none =>
    match c.stream.read n with
    | (data, e, stream) => (data, e, { stream, deadline := next })

def readRound (want : Nat) (s : Bytes × PeekConn) :
    Exec (Bytes × PeekConn ⊕ Bytes × Option Err × PeekConn) :=
  if s.1.length < want then
    match s.2.read (want - s.1.length) with
    | (data, some e, c) => ret (.inr (s.1 ++ data, some e, c))
    | (data, none, c) => ret (.inl (s.1 ++ data, c))
  else ret (.inr (s.1, none, s.2))

/-- What was read, which is all that was wanted if there is no error. -/
def readFullIdle (want : Nat) (c : PeekConn) : Exec (Bytes × Option Err × PeekConn) :=
  loop (readRound want) (want + 1) ([], c)

end PeekConn

def camoMaxHandshake : Nat := 8192

structure PeekedHello where
  raw : Bytes
  random : Bytes := []
  sni : String := ""
  keyShare : Bytes := []
  deriving DecidableEq, Repr

/-- `errHelloIncomplete` with its cause, or an error with its text. -/
inductive PeekError
  | incomplete (cause : Err)
  | text (msg : String)
  deriving DecidableEq, Repr

def isIncomplete : Option PeekError → Bool
  | some (.incomplete _) => true
  | some (.text _) => false
  | none => false

/-- What `peekClientHello` returns, and the connection as it leaves it. -/
structure PeekResult where
  hello : PeekedHello
  error : Option PeekError
  conn : PeekConn

structure Peek where
  conn : PeekConn
  raw : Bytes := []
  hs : Bytes := []

section
variable (unmarshal : Bytes → Option ClientHelloMsg)

def judgeHello (hs : Bytes) : Option (Except PeekError ClientHelloMsg) :=
  if hs.length > camoMaxHandshake then some (.error (.text "whispera: ClientHello too large"))
  else
    match hs with
    | typ :: b1 :: b2 :: b3 :: _ =>
      if typ ≠ 0x01 then some (.error (.text "whispera: not a ClientHello"))
      else
        let want := 4 + get [b1, b2, b3]
        if hs.length < want then none
        else
          match unmarshal (hs.take want) with
          | none => some (.error (.text "whispera: failed to parse ClientHello"))
          | some msg => some (.ok msg)
    | _ => none

def peekResult (raw : Bytes) (conn : PeekConn) : Except PeekError ClientHelloMsg → PeekResult
  | .error e => { hello := { raw }, error := some e, conn }
  | .ok msg =>
    { hello := { raw, random := msg.random, sni := msg.serverName, keyShare := extractX25519KeyShare msg.keyShares }
      error := none
      conn }

def peekRound (p : Peek) : Exec (Peek ⊕ PeekResult) := do
  match ← p.conn.readFullIdle 5 with
  | (_, some e, conn) => ret (.inr (peekResult p.raw conn (.error (.incomplete e))))
  | (hdr, none, conn) =>
    let raw := p.raw ++ hdr
    let typ ← index hdr 0
    if typ ≠ 0x16 then ret (.inr (peekResult raw conn (.error (.text "whispera: not a TLS handshake record"))))
    else
      let hi ← index hdr 3
      let lo ← index hdr 4
      let recLen := get [hi, lo]
      if recLen ≤ 0 ∨ recLen > 16384 then
        ret (.inr (peekResult raw conn (.error (.text "whispera: invalid TLS record length"))))
      else
        match ← conn.readFullIdle recLen with
        | (_, some e, conn) => ret (.inr (peekResult raw conn (.error (.incomplete e))))
        | (body, none, conn) =>
          match judgeHello unmarshal (p.hs ++ body) with
          | none => ret (.inl { conn, raw := raw ++ body, hs := p.hs ++ body })
          | some r => ret (.inr (peekResult (raw ++ body) conn r))

/-- A record has at least one byte, so the handshake bytes exceed their limit after as many rounds. -/
def peekClientHello (conn : PeekConn) : Exec PeekResult := loop (peekRound unmarshal) (camoMaxHandshake + 1) { conn }

structure PrefixConn where
  conn : Stream
  pre : Bytes
  off : Nat := 0
  knownUser : String
  knownPSK : Bytes
  decoy : Bool

def PrefixConn.read (n : Nat) (c : PrefixConn) : Bytes × Option Err × PrefixConn :=
  if c.off < c.pre.length then
    let data := (c.pre.drop c.off).take n
    (data, none, { c with off := c.off + data.length })
  else
    match c.conn.read n with
    | (data, e, conn) => (data, e, { c with conn })

/-- What `handle` meets. `closed`: the listener is closed when a connection is handed over. -/
structure CamoListener where
  bySelector : Option (Bytes → Bytes → String × Bytes × String)
  keys : List Bytes
  now : Int
  rateAllow : Bool
  decoyAddr : String → String
  answers : String → Bool
  closed : Bool

/-- What becomes of a connection. An origin gets what was recorded and then what the client sends. -/
inductive Handled
  | closed
  | handedOver (c : PrefixConn)
  | relayed (addr : String) (raw : Bytes) (rest : Stream)

def selReasonOK : String := "ok"

namespace CamoListener
variable (l : CamoListener)

def handOver (r : PeekResult) (userID : String) (psk : Bytes) (decoy : Bool) : Handled :=
  if l.closed then .closed
  else .handedOver { conn := r.conn.stream, pre := r.hello.raw, knownUser := userID, knownPSK := psk, decoy }

def selected (r : PeekResult) : Option (String × Bytes) :=
  match r.error, l.bySelector with
  | none, some bySelector =>
    match bySelector r.hello.random r.hello.keyShare with
    | (userID, psk, reason) => if reason = selReasonOK then some (userID, psk) else none
  | _, _ => none

def dispatch (crypto : Crypto) (r : PeekResult) : Handled :=
  match l.selected r with
  | some (userID, psk) => l.handOver r userID psk false
  | none =>
    if r.error = none ∧ markerMatches crypto l.keys r.hello.random r.hello.keyShare l.now then l.handOver r "" [] false
    else if r.hello.raw = [] then .closed
    else if isIncomplete r.error ∧ r.hello.raw.headD 0 = 0x16 then .closed
    else if ¬l.rateAllow then .closed
    else
      let target := l.decoyAddr r.hello.sni
      if target ≠ "" ∧ l.answers target then .relayed target r.hello.raw r.conn.stream
      else l.handOver r "" [] true

def handle (crypto : Crypto) (conn : PeekConn) : Exec Handled := do
  let r ← peekClientHello unmarshal conn
  ret (l.dispatch crypto r)

end CamoListener
end

/-- What `relayToOrigin` sends to an origin that answers. -/
def relayUpstream (raw : Bytes) (conn : Stream) (fuel : Nat) (upstream : Sink) : Option Err × Stream × Sink :=
  match if raw.length > 0 then upstream.write raw else (none, upstream) with
  | (some e, upstream) => (some e, conn, upstream)
  | (none, upstream) => copy Stream.read 32768 fuel conn upstream

end Whispera
