import Whispera.Lib.Bytes
import Whispera.Lib.Text

/-! `core/transport/yadisk/yadisk.go`. Each loop takes a step between two operations on what it shares with
the others. -/

namespace Whispera
namespace YaDisk

def maxChunkSize : Nat := 512 * 1024

def channelSize : Nat := 128

structure Config where
  serverMode : Bool := false
  oauthToken : List Char
  sessionID : List Char
  deriving DecidableEq, Repr

abbrev Path : Type := List Char

def baseDir (sessionID : List Char) : Path := ['/', 'w', 'h', 'i', 's', 'p', 'e', 'r', 'a', '/'] ++ sessionID

def c2sDir (sessionID : List Char) : Path := baseDir sessionID ++ ['/', 'c', '2', 's']
def s2cDir (sessionID : List Char) : Path := baseDir sessionID ++ ['/', 's', '2', 'c']

def filePath (dir : Path) (seq : Nat) : Path := dir ++ '/' :: Text.zeroPadded 10 seq

/-- It waits for a chunk, has a request to write one, or waits after the request has failed. -/
inductive SendPc
  | idle
  | putting (path : Path) (data : Bytes)
  | waiting (path : Path) (data : Bytes)
  | ended
  deriving DecidableEq, Repr

/-- Where `runRecvLoop` stands: it waits for the next tick, or has a chunk for `dataIn`. -/
inductive RecvPc
  | idle
  | handing (data : Bytes)
  | ended
  deriving DecidableEq, Repr

/-- A `Transport` with its `diskConn`; `writing` is the rest of a `Write` in progress. Three histories: the
    chunks put into `dataOut`, what was read of the files, and the bytes that `Read` has returned. -/
structure Transport where
  config : Config
  writeDir : Path
  readDir : Path
  writeSeq : Nat := 0
  readSeq : Nat := 0
  dataIn : List Bytes := []
  dataOut : List Bytes := []
  connCh : Bool := false
  stopped : Bool := false
  sendLoop : SendPc := .idle
  recvLoop : RecvPc := .idle
  buf : Bytes := []
  writing : Bytes := []
  offered : List Bytes := []
  received : List Bytes := []
  returned : Bytes := []
  deriving DecidableEq, Repr

namespace Transport

def new (cfg : Config) : Transport :=
  if cfg.serverMode then { config := cfg, readDir := c2sDir cfg.sessionID, writeDir := s2cDir cfg.sessionID }
  else { config := cfg, writeDir := c2sDir cfg.sessionID, readDir := s2cDir cfg.sessionID }

def start (t : Transport) : Option Transport :=
  if t.config.oauthToken = [] ∨ t.config.sessionID = [] then none else some { t with connCh := true }

def written (t : Transport) : Bytes := t.offered.flatten

inductive Act
  | accept
  | write (p : Bytes)
  | offer
  | writeStop
  | send
  | retry
  | sendStop
  | hand
  | recvStop
  | read (size : Nat)
  | stop
  deriving DecidableEq, Repr

def write (t : Transport) (p : Bytes) : Option Transport :=
  if t.connCh = true ∨ t.writing ≠ [] then none else some { t with writing := p }

def offer (t : Transport) : Option Transport :=
  if t.writing = [] ∨ channelSize ≤ t.dataOut.length then none
  else
    some { t with
      dataOut := t.dataOut ++ [t.writing.take maxChunkSize]
      offered := t.offered ++ [t.writing.take maxChunkSize]
      writing := t.writing.drop maxChunkSize }

/-- A read that has nothing to return waits until there is something, or until the transport is stopped. -/
def read (t : Transport) (size : Nat) : Option Transport :=
  if t.connCh = true then none
  else if t.buf ≠ [] then some { t with returned := t.returned ++ t.buf.take size, buf := t.buf.drop size }
  else
    match t.dataIn with
    | [] => if t.stopped then some t else none
    | data :: rest => some { t with returned := t.returned ++ data.take size, buf := data.drop size, dataIn := rest }

def step (t : Transport) : Act → Option Transport
  | .accept => if t.connCh then some { t with connCh := false } else none
  | .write p => t.write p
  | .offer => t.offer
  | .writeStop => if t.stopped then some { t with writing := [] } else none
  | .send =>
    match t.sendLoop, t.dataOut with
    | .idle, data :: rest => some { t with
        dataOut := rest, writeSeq := t.writeSeq + 1, sendLoop := .putting (filePath t.writeDir t.writeSeq) data }
    | _, _ => none
  | .retry =>
    match t.sendLoop with
    | .waiting path data => some { t with sendLoop := .putting path data }
    | _ => none
  | .sendStop =>
    match t.sendLoop with
    | .idle | .waiting _ _ => if t.stopped then some { t with sendLoop := .ended } else none
    | _ => none
  | .hand =>
    match t.recvLoop with
    | .handing data => if channelSize ≤ t.dataIn.length then none
        else some { t with dataIn := t.dataIn ++ [data], recvLoop := .idle }
    | _ => none
  | .recvStop =>
    match t.recvLoop with
    | .idle | .handing _ => if t.stopped then some { t with recvLoop := .ended } else none
    | .ended => none
  | .read size => t.read size
  | .stop => some { t with stopped := true }

end Transport

/-- A request to write a file, and the transport that has made it. -/
structure Put where
  owner : Nat
  path : Path
  data : Bytes
  deriving DecidableEq, Repr

/-- The transports, the files of the disk, and all requests that were ever made to write or to delete one. -/
structure Disk where
  transports : List Transport
  files : Path → Option Bytes
  puts : List Put := []
  deletes : List Path := []

namespace Disk

/-- A request to write may be carried out and be reported as failed, and be carried out late or again. -/
inductive Act
  | go (i : Nat) (act : Transport.Act)
  | put (i : Nat) (carriedOut ok : Bool)
  | get (i : Nat) (ok : Bool)
  | land (n : Nat)
  | remove (n : Nat)
  deriving DecidableEq, Repr

def setTransport (s : Disk) (i : Nat) (t : Transport) : Disk := { s with transports := s.transports.set i t }

def setFile (s : Disk) (path : Path) (data : Option Bytes) : Disk :=
  { s with files := fun p => if p = path then data else s.files p }

def put (s : Disk) (i : Nat) (t : Transport) (carriedOut ok : Bool) : Option Disk :=
  match t.sendLoop with
  | .putting path data =>
    -- what is reported as written is written
    if ok = true ∧ carriedOut = false then none
    else
      let s := { s with puts := s.puts ++ [Put.mk i path data] }
      let s := if carriedOut then s.setFile path (some data) else s
      some (s.setTransport i { t with sendLoop := if ok then .idle else .waiting path data })
  | _ => none

/-- `getFile` and what follows it in `runRecvLoop`, up to the channel. -/
def get (s : Disk) (i : Nat) (t : Transport) (ok : Bool) : Option Disk :=
  match t.recvLoop with
  | .idle =>
    let path := filePath t.readDir t.readSeq
    match if ok then s.files path else none with
    | none => some s
    | some content =>
      let data := content.take maxChunkSize
      some ({ s with deletes := s.deletes ++ [path] }.setTransport i
        { t with readSeq := t.readSeq + 1, recvLoop := .handing data, received := t.received ++ [data] })
  | _ => none

def step (s : Disk) : Act → Option Disk
  | .go i act => (s.transports[i]?).bind fun t => (t.step act).map (s.setTransport i)
  | .put i carriedOut ok => (s.transports[i]?).bind fun t => s.put i t carriedOut ok
  | .get i ok => (s.transports[i]?).bind fun t => s.get i t ok
  | .land n => (s.puts[n]?).map fun e => s.setFile e.path (some e.data)
  | .remove n => (s.deletes[n]?).map fun path => s.setFile path none

end Disk

end YaDisk

end Whispera
