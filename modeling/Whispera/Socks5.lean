import Whispera.Lib.Reader

/-! `core/socks5/server.go`. The calls of the authentication handler are recorded. -/

namespace Whispera
open Reader

def socks5Version : UInt8 := 0x05
def socks5MethodNoAuth : UInt8 := 0x00
def socks5MethodUsernamePass : UInt8 := 0x02
def socks5MethodNotAcceptable : UInt8 := 0xFF

abbrev AuthHandler := Bytes → Bytes → Bool

structure SocksConn where
  input : Stream
  output : Sink
  asked : List (Bytes × Bytes)

/-- What a method of the server does on a connection: it may fail, and the connection stays as it left it. -/
abbrev Socks (α : Type) := ExceptT Err (StateM SocksConn) α

namespace Socks

def readFull (n : Nat) : Socks Bytes := fun c =>
  match Reader.readFull Stream.read n c.input with
  | (data, none, s) => (.ok data, { c with input := s })
  | (_, some e, s) => (.error e, { c with input := s })

def write (out : Bytes) : Socks Unit := fun c =>
  match c.output.write out with
  | (none, k) => (.ok (), { c with output := k })
  | (some e, k) => (.error e, { c with output := k })

def callHandler (authHandler : Option AuthHandler) (username password : Bytes) : Socks Bool := fun c =>
  match authHandler with
  | none => (.ok false, c)
  | some handler => (.ok (handler username password), { c with asked := c.asked ++ [(username, password)] })

def wrapAuth (m : Socks Unit) : Socks Unit := fun c =>
  match m c with
  | (.ok (), c) => (.ok (), c)
  | (.error e, c) => (.error (.text ("authentication failed: " ++ e.message)), c)

end Socks

open Socks

def handleUsernamePasswordAuth (authHandler : Option AuthHandler) : Socks Unit := do
  let version ← readFull 1
  if version.headD 0 ≠ 0x01 then
    throw (.text ("unsupported auth version: " ++ toString (version.headD 0).toNat))
  else
    let usernameLen ← readFull 1
    let username ← readFull (usernameLen.headD 0).toNat
    let passwordLen ← readFull 1
    let password ← readFull (passwordLen.headD 0).toNat
    if ← callHandler authHandler username password then
      write [0x01, 0x00]
    else
      write [0x01, 0xFF]
      throw (.text "authentication failed")

def selectMethod (authHandler : Option AuthHandler) (methods : Bytes) : UInt8 :=
  if authHandler.isSome ∧ socks5MethodUsernamePass ∈ methods then socks5MethodUsernamePass
  else if socks5MethodNoAuth ∈ methods then socks5MethodNoAuth
  else socks5MethodNotAcceptable

def handleHandshake (authHandler : Option AuthHandler) : Socks Unit := do
  let buf ← readFull 2
  if buf.headD 0 ≠ socks5Version then
    throw (.text ("unsupported SOCKS version: " ++ toString (buf.headD 0).toNat))
  else if (buf.getD 1 0).toNat = 0 then
    throw (.text "no authentication methods")
  else
    let methods ← readFull (buf.getD 1 0).toNat
    let selectedMethod := selectMethod authHandler methods
    write [socks5Version, selectedMethod]
    if selectedMethod = socks5MethodNotAcceptable then
      throw (.text "no acceptable authentication method")
    else if selectedMethod = socks5MethodUsernamePass then
      wrapAuth (handleUsernamePasswordAuth authHandler)
    else
      pure ()

/-- The handler that compares with the module's own credentials. -/
def Socks.compareCredentials (authUser authPass : Bytes) : AuthHandler := fun u p => u = authUser && p = authPass

/-- What `Module.Start` installs. -/
def Socks.moduleHandler (authUser authPass : Bytes) : Option AuthHandler :=
  if authUser ≠ [] then some (compareCredentials authUser authPass) else none

end Whispera
