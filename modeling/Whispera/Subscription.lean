import Whispera.Lib.Base64
import Whispera.Lib.Json
import Whispera.Lib.Table

/-! `core/apiserver/subscription.go`, with `CLICreateSubscription` in `core/apiserver/cli.go`, and
`FetchSubscription` in `core/config/keyparser.go`. -/

namespace Whispera
open Strings Base64

structure ConnectionKey where
  version : Int := 0
  name : Bytes := []
  keyID : Bytes := []
  expiresAt : Int := 0
  server : Bytes := []
  serverTCP : Bytes := []
  serverWS : Bytes := []
  psk : Bytes := []
  serverPub : Bytes := []
  obfsPreset : Bytes := []
  transport : Bytes := []
  obfsProfile : Bytes := []
  enableASNBypass : Bool := false
  dropECH : Bool := false
  tlsFingerprint : Bytes := []
  domainFrontHost : Bytes := []
  russianService : Bytes := []
  whisperaAddr : Bytes := []
  whisperaSNI : Bytes := []
  whisperaQUICAddr : Bytes := []
  whisperaCertPin : Bytes := []
  whisperaIDPub : Bytes := []
  whisperaSelPub : Bytes := []
  whisperaFPRaw : Bytes := []
  chameleonAddr : Bytes := []
  grpcAddr : Bytes := []
  grpcServerName : Bytes := []
  grpcUseTLS : Bool := false
  yaDiskOAuthToken : Bytes := []
  yaDiskSessionID : Bytes := []
  transportConfig : Option Json.Value := none
  subscriptionURL : Bytes := []

def ConnectionKey.isExpired (ck : ConnectionKey) (now : Int) : Bool := ck.expiresAt > 0 ∧ now > ck.expiresAt

def hasServerAddr (ck : ConnectionKey) : Bool := ck.server ≠ [] ∨ ck.serverTCP ≠ []

def applyConnKeyDefaults (ck : ConnectionKey) : ConnectionKey :=
  { ck with
    transport := if ck.transport = [] then bytes "auto" else ck.transport
    obfsPreset := if ck.obfsPreset = [] then bytes "default" else ck.obfsPreset
    version := if ck.version = 0 then 1 else ck.version }

structure KeyURL where
  host : Bytes
  get : String → Bytes

/-- Go's `encoding/json`, `net/url` and `fmt`. A text that begins with neither space nor a bracket nor an `n`
    is no list. -/
structure KeyLib where
  unmarshalStrings : Bytes → Option (List Bytes)
  valid : Bytes → Bool
  unmarshalKey : Bytes → Option ConnectionKey
  unmarshalMap : Bytes → Option Json.Value
  parseURL : Bytes → Option KeyURL
  scanInt : Bytes → Int
  unmarshalStrings_cons : ∀ c text, c ∉ [9, 10, 13, 32, 91, 110] → unmarshalStrings (c :: text) = none

/-- The errors of `ParseConnectionKey`; those of the libraries in them are left out. -/
inductive KeyError
  | foreign (scheme : Bytes)
  | url
  | encoding
  | format
  | expired
  | noServer
  deriving DecidableEq, Repr

def foreignSchemes : List Bytes :=
  ["vless://", "vmess://", "trojan://", "ss://", "ssr://", "hysteria2://", "tuic://"].map bytes

def isForeignScheme (key : Bytes) : Bool := foreignSchemes.any fun p => p.isPrefixOf key

def schemeOf (key : Bytes) : Bytes :=
  match index (bytes "://") key with
  | some (i + 1) => key.take (i + 1)
  | _ => bytes "unknown"

section
variable (lib : KeyLib) (now : Int)

def decodeJSONHostKey (host : Bytes) : Option ConnectionKey :=
  if host = [] then none
  else
    (decodeStd host).bind fun decoded => if lib.valid decoded then lib.unmarshalKey decoded else none

def parseWhisperaQueryKey (u : KeyURL) : Except KeyError ConnectionKey :=
  let get (name : String) (default : Bytes) := if u.get name = [] then default else u.get name
  let ck : ConnectionKey :=
    { version := 1
      server := u.host
      psk := get "psk" (u.get "key")
      serverPub := u.get "pub"
      obfsPreset := get "obfs" (bytes "default")
      transport := get "transport" (bytes "auto")
      name := u.get "name"
      obfsProfile := get "profile" (bytes "vk")
      enableASNBypass := u.get "asn" = bytes "1" ∨ u.get "asn_bypass" = bytes "1"
      tlsFingerprint := u.get "tls"
      whisperaCertPin := u.get "pin"
      domainFrontHost := u.get "front"
      russianService := get "russian" (u.get "rs")
      keyID := u.get "kid"
      expiresAt := if u.get "exp" = [] then 0 else lib.scanInt (u.get "exp") }
  if ck.isExpired now then .error .expired
  else
    let ck := { ck with
      transportConfig := if u.get "cfg" = [] then none else (decode (u.get "cfg")).bind lib.unmarshalMap }
    if ¬hasServerAddr ck then .error .noServer else .ok ck

def parseWhisperaURLKey (u : KeyURL) : Except KeyError ConnectionKey :=
  match decodeJSONHostKey lib u.host with
  | some ck =>
    if ck.isExpired now then .error .expired
    else
      let ck := applyConnKeyDefaults ck
      if ¬hasServerAddr ck then .error .noServer else .ok ck
  | none => parseWhisperaQueryKey lib now u

def parseBase64ConnKey (key : Bytes) : Except KeyError ConnectionKey :=
  match (decodeStd key <|> decodeURL key <|> decode key) with
  | none => .error .encoding
  | some data =>
    match lib.unmarshalKey data with
    | none => .error .format
    | some ck =>
      if ck.isExpired now then .error .expired
      else if ¬hasServerAddr ck then .error .noServer
      else .ok (applyConnKeyDefaults ck)

def parseConnectionKey (key : Bytes) : Except KeyError ConnectionKey :=
  let key := trimSpace key
  if isForeignScheme key then .error (.foreign (schemeOf key))
  else if (bytes "whispera://").isPrefixOf key ∧ 63 ∈ key then
    match lib.parseURL key with
    | none => .error .url
    | some u => parseWhisperaURLKey lib now u
  else parseBase64ConnKey lib now (dropStart (dropStart key (bytes "whispera://")) (bytes "wpn://"))

def parseKeyLine (line : Bytes) : Option ConnectionKey :=
  let line := trimSpace line
  if line = [] ∨ [35].isPrefixOf line then none
  else
    match parseConnectionKey lib now line with
    | .error _ => none
    | .ok ck => if ck.isExpired now then none else some ck

def parseKeyList (lines : List Bytes) : Except String (List ConnectionKey) :=
  let out := lines.filterMap (parseKeyLine lib now)
  if out.isEmpty then .error "subscription: no valid keys found" else .ok out

structure Response where
  status : Nat
  body : Bytes
  deriving DecidableEq, Repr

def subscriptionHTTPGet (resp : Response) : Except String Bytes :=
  if resp.status ≠ 200 then .error ("HTTP " ++ toString resp.status ++ " from subscription endpoint")
  else .ok (resp.body.take (4 * 1048576))

def fetchSubscription (resp : Response) : Except String (List ConnectionKey) :=
  match subscriptionHTTPGet resp with
  | .error err => .error ("subscription fetch: " ++ err)
  | .ok text =>
    let body := trimSpace text
    match lib.unmarshalStrings body with
    | some arr => parseKeyList lib now arr
    | none =>
      let body :=
        match (decodeStd body <|> decodeURL body) with
        | some decoded => trimSpace decoded
        | none => body
      parseKeyList lib now (body.splitOn 10)

end

/-- What is used of a `Subscription`; the time of its last change is in the form in which it is written. -/
structure Subscription where
  name : Bytes
  userIDs : List Int
  keyIDs : List Bytes
  transports : List Bytes
  updatedAt : Bytes
  deriving DecidableEq, Repr

/-- `userStore`, of which the connection keys are used; the users are in the order in which a loop comes to
    them. -/
abbrev UserStore : Type := AList fun _ : Int => Bytes

def subscriptionKeys (users : UserStore) (sub : Subscription) : List Bytes :=
  if sub.keyIDs ≠ [] then
    (users.entries.map Sigma.snd).filter fun uri => uri ≠ [] ∧ sub.keyIDs.contains uri
  else if sub.userIDs ≠ [] then
    sub.userIDs.filterMap fun uid => (users.lookup uid).filter fun uri => uri ≠ []
  else
    (users.entries.map Sigma.snd).filter fun uri => uri ≠ []

/-- The JSON text of a subscription; a list without keys is `nil`. -/
def subscriptionJSON (sub : Subscription) (servers : Json.Value) (keys : List Bytes) : Bytes :=
  Json.marshal (.object [
    (bytes "keys", if keys.isEmpty then .null else .array (keys.map .string)),
    (bytes "name", .string sub.name),
    (bytes "servers", servers),
    (bytes "updated", .string sub.updatedAt),
    (bytes "version", .string (bytes "2"))])

/-- `servers` is what `subscriptionServers` yields, and nothing if it cannot be marshalled. -/
def handleServeSubscription (subs : AList fun _ : Bytes => Subscription) (users : UserStore)
    (servers : List Bytes → Option Json.Value) (token : Bytes) : Response :=
  let notFound : Response := { status := 404, body := bytes "404 page not found\n" }
  if token = [] then notFound
  else
    match subs.lookup token with
    | none => notFound
    | some sub =>
      match servers sub.transports with
      | none => { status := 500, body := bytes "internal error\n" }
      | some value => { status := 200, body := encodeStd (subscriptionJSON sub value (subscriptionKeys users sub)) }

structure StoredSubscription extends Subscription where
  id : Bytes
  token : Bytes
  deriving DecidableEq, Repr

structure SubPersist where
  subscriptions : List StoredSubscription
  nextID : Int

structure SubStore where
  subStore : Table.Map Bytes StoredSubscription := ∅
  subByToken : Table.Map Bytes StoredSubscription := ∅
  subNextID : Int := 0

namespace SubStore

def put (s : SubStore) (sub : StoredSubscription) : SubStore :=
  { s with subStore := s.subStore.insert sub.id sub, subByToken := s.subByToken.insert sub.token sub }

/-- What is in the file, if it can be read. -/
def loadSubscriptions (s : SubStore) : Option SubPersist → SubStore
  | none => s
  | some p => { p.subscriptions.foldl put s with subNextID := max s.subNextID p.nextID }

/-- The arguments of `CLICreateSubscription`, the token and the time, and the users in the order of the
    iteration. -/
structure Request where
  name : Bytes
  usernames : List Bytes
  users : List (Bytes × Int)
  token : Except String Bytes
  now : Bytes

def nextID (s : SubStore) : Int := (s.subNextID + 1).bmod 18446744073709551616

def Request.subscription (r : Request) (s : SubStore) : Except String StoredSubscription := do
  let userIDs := r.usernames.filterMap fun uname => (r.users.find? (·.1 = uname)).map Prod.snd
  if userIDs.length ≠ r.usernames.length then
    throw s!"one or more users not found (resolved {userIDs.length} of {r.usernames.length})"
  let token ← r.token
  return { name := r.name, userIDs, keyIDs := [], transports := [], updatedAt := r.now, id := bytes (toString
    s.nextID), token }

def createSubscription (s : SubStore) (file : Option SubPersist) (r : Request) : SubStore × Except String Bytes :=
  let s := s.loadSubscriptions file
  match r.subscription s with
  | .error e => (s, .error e)
  | .ok sub => ({ s.put sub with subNextID := s.nextID }, .ok sub.token)

inductive Call
  | load (file : Option SubPersist)
  | create (file : Option SubPersist) (r : Request)

def step (s : SubStore) : Call → SubStore
  | .load file => s.loadSubscriptions file
  | .create file r => (s.createSubscription file r).1

end SubStore

end Whispera
