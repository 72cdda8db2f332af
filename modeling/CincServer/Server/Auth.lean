import CincServer.Api.Cookbooks
import CincServer.Go.Http
import Mathlib.Data.Nat.Digits.Defs
import Mathlib.Data.Nat.Size

/-!
# The actor record the authentication layer reads, and the recovery of what was signed
-/

namespace CincServer.Server
open Go Json Api

structure ActorRecord where
  publicKey : GoString
  admin : Bool

def actorRecordFields : List (StructField ActorRecord) :=
  [.string (lit "public_key") fun s rec => { rec with publicKey := s },
   .bool (lit "admin") fun b rec => { rec with admin := b }]

def decodeActorRecord : Raw → Option ActorRecord := unmarshalStruct actorRecordFields ⟨[], false⟩

def decodedAdmin (raw : Raw) : Bool :=
  match decodeActorRecord raw with
  | some rec => rec.admin
  | none => false

structure Parsed (Key : Type) where
  pubs : List Key
  admin : Bool
  ok : Bool

def parseActorRecord {Key : Type} [Clock] (parse : GoString → Option Key) (now : Int)
    (org collection name : GoString) : Handler (Parsed Key) := do
  match ← Org.get org collection name with
  | none => return ⟨[], false, false⟩
  | some raw =>
    match decodeActorRecord raw with
    | none => return ⟨[], false, false⟩
    | some rec =>
      let pems ← signingKeys org collection name rec.publicKey now
      match pems.filterMap parse with
      | [] => return ⟨[], false, false⟩
      | pubs => return ⟨pubs, rec.admin, true⟩

def orgFromPath (path : GoString) : GoString :=
  if !(lit "/organizations/").isPrefixOf path then []
  else
    let rest := path.drop (lit "/organizations/").length
    ((cut (lit "/") rest).map Prod.fst).getD rest

def resolveClient {Key : Type} [Clock] (parse : GoString → Option Key) (now : Int)
    (org name : GoString) :
    Handler (Option (List Key × Actor)) := do
  if org = [] then return none
  if !(← lookupOrg org) then return none
  let client ← parseActorRecord parse now org clients name
  return if client.ok then some (client.pubs, ⟨name, true, false, false⟩) else none

def resolveAuth {Key : Type} [Clock] (parse : GoString → Option Key) (now : Int)
    (path name : GoString) :
    Handler (Option (List Key × Actor)) := do
  match ← resolveClient parse now (orgFromPath path) name with
  | some found => return some found
  | none =>
    let user ← parseActorRecord parse now global users name
    return if user.ok then some (user.pubs, ⟨name, false, user.admin, false⟩) else none

structure PublicKey where
  n : Nat
  e : Nat
  n_pos : 0 < n
  e_pos : 0 < e

/-- `outOfRange` is the panic of an index beyond the block. -/
inductive Recovery
  | message (m : GoString)
  | refused (reason : GoString)
  | outOfRange
deriving DecidableEq

def setBytes (b : GoString) : Nat := b.foldl (fun v b => v * 256 + b.toNat) 0

def intBytes (m : Nat) : GoString := (Nat.digits 256 m).reverse.map UInt8.ofNat

def modulusLength (pub : PublicKey) : Nat := (pub.n.size + 7) / 8

def leftPad (k : Nat) (em : GoString) : GoString := List.replicate (k - em.length) 0 ++ em

def unpad : GoString → Recovery
  | [] => .outOfRange
  | header :: rest =>
    if header ≠ 0 then .refused (lit "invalid PKCS#1 padding header")
    else
      match rest with
      | [] => .outOfRange
      | kind :: rest =>
        if kind ≠ 1 then .refused (lit "invalid PKCS#1 padding header")
        else if 2 + (rest.takeWhile (· = 0xFF)).length < 10 then .refused (lit "invalid PKCS#1 padding")
        else
          match rest.dropWhile (· = 0xFF) with
          | 0 :: m => .message m
          | _ => .refused (lit "invalid PKCS#1 padding")

def rsaPublicDecrypt (pub : PublicKey) (sig : GoString) : Recovery :=
  if sig.length > modulusLength pub ∨ sig.length = 0 then .refused (lit "signature length out of range")
  else if setBytes sig ≥ pub.n then .refused (lit "signature out of range")
  else
    let em := intBytes (setBytes sig ^ pub.e % pub.n)
    if em.length > modulusLength pub then .refused (lit "decrypted block too large")
    else unpad (leftPad (modulusLength pub) em)

/-!
## Signature headers

`base64.StdEncoding`, `http.Header` and the headers that carry a signature.
-/

namespace Base64

def alphabet : GoString := lit "ABCDEFGHIJKLMNOPQRSTUVWXYZabcdefghijklmnopqrstuvwxyz0123456789+/"

def padChar : UInt8 := 0x3D

def char (n : Nat) : UInt8 := alphabet.getD n 0

def quantum (val : Nat) : GoString :=
  [char (val / 262144 % 64), char (val / 4096 % 64), char (val / 64 % 64), char (val % 64)]

def encodeToString : GoString → GoString
  | [] => []
  | [a] => (quantum (a.toNat * 65536)).take 2 ++ [padChar, padChar]
  | [a, b] => (quantum (a.toNat * 65536 + b.toNat * 256)).take 3 ++ [padChar]
  | a :: b :: c :: rest => quantum (a.toNat * 65536 + b.toNat * 256 + c.toNat) ++ encodeToString rest

def digit (c : UInt8) : Option Nat := alphabet.idxOf? c

def bytes (val : Nat) : GoString :=
  [UInt8.ofNat (val / 65536), UInt8.ofNat (val / 256), UInt8.ofNat val]

def decodeQuanta : GoString → Option GoString
  | [] => some []
  | a :: b :: c :: d :: rest => do
      let val := (← digit a) * 262144 + (← digit b) * 4096
      if c = padChar then if d = padChar ∧ rest = [] then some ((bytes val).take 1) else none
      else
        let val := val + (← digit c) * 64
        if d = padChar then if rest = [] then some ((bytes val).take 2) else none
        else
          let val := val + (← digit d)
          (decodeQuanta rest).map (bytes val ++ ·)
  | _ => none

def decodeString (s : GoString) : Option GoString :=
  decodeQuanta (s.filter fun c => c ≠ 0x0A ∧ c ≠ 0x0D)

end Base64

abbrev Header := GoMap (List GoString)

namespace Header

def validHeaderFieldByte (c : UInt8) : Bool :=
  isDigit c || 0x41 ≤ c && c ≤ 0x5A || 0x61 ≤ c && c ≤ 0x7A || c ∈ lit "!#$%&'*+-.^_`|~"

def canonical : (upper : Bool) → GoString → GoString
  | _, [] => []
  | upper, c :: rest =>
    (if upper && 0x61 ≤ c && c ≤ 0x7A then c - 0x20 else if !upper && 0x41 ≤ c && c ≤ 0x5A then c + 0x20 else c) ::
      canonical (c == 0x2D) rest

def canonicalMIMEHeaderKey (key : GoString) : GoString :=
  if key.all validHeaderFieldByte then canonical true key else key

def get (h : Header) (key : GoString) : GoString :=
  ((h[canonicalMIMEHeaderKey key]?).getD []).headD []

def set (h : Header) (key value : GoString) : Header :=
  h.insert (canonicalMIMEHeaderKey key) [value]

end Header

-- the buffer of the source has room for the digits of every `int`
def itoaLoop : (room n : Nat) → GoString → GoString
  | 0, _, out => out
  | room + 1, n, out => if 0 < n then itoaLoop room (n / 10) (digitByte (n % 10) :: out) else out

def itoa (n : Nat) : GoString := if n = 0 then lit "0" else itoaLoop n n []

def authorization : GoString := lit "X-Ops-Authorization-"

def chunk : Nat := 60

def setChunks : (fuel n : Nat) → GoString → Header → Header
  | 0, _, _, h => h
  | fuel + 1, n, encoded, h =>
    if encoded = [] then h
    else setChunks fuel (n + 1) (encoded.drop chunk) (h.set (authorization ++ itoa n) (encoded.take chunk))

def setSignatureHeaders (sig : GoString) (h : Header) : Header :=
  let encoded := Base64.encodeToString sig
  setChunks encoded.length 1 encoded h

inductive SignatureError
  | missing
  | decode
deriving DecidableEq

def joinChunks (h : Header) : (fuel i : Nat) → Option GoString
  | 0, _ => none
  | fuel + 1, i =>
    let chunk := h.get (authorization ++ formatNat i)
    if chunk = [] then some [] else (joinChunks h fuel (i + 1)).map (trimSpace chunk ++ ·)

/-- `none` while the fuel does not reach the first gap. -/
def joinSignature (fuel : Nat) (h : Header) : Option (Except SignatureError GoString) := do
  let joined ← joinChunks h fuel 1
  if joined = [] then return .error .missing
  match Base64.decodeString joined with
  | none => return .error .decode
  | some sig => return .ok sig

/-!
## Pre-signed grants for the file store

Clients transfer the files of a cookbook at URLs the server hands out, without signing those
requests. The query of such a URL authorizes one operation on one file until it expires.
-/

structure Time where
  sec : Int64
  nsec : Fin 1000000000

namespace Time

def unixToInternal : Int64 := 62135596800

def unix (t : Time) : Int64 := t.sec - unixToInternal

def ofUnix (sec : Int64) : Time := ⟨sec + unixToInternal, 0⟩

def after (t u : Time) : Bool := u.sec < t.sec || t.sec = u.sec && u.nsec < t.nsec

def addSec (t : Time) (d : Nat) : Time :=
  ⟨if t.sec.toInt + d < 2 ^ 63 then Int64.ofInt (t.sec.toInt + d) else Int64.maxValue, t.nsec⟩

end Time

abbrev Values := GoMap (List GoString)

namespace Values

def get (q : Values) (key : GoString) : GoString := ((q[key]?).getD []).headD []

def set (q : Values) (key value : GoString) : Values := q.insert key [value]

def queryEscape (s : GoString) : GoString :=
  s.flatMap fun c =>
    if c = 0x20 then lit "+"
    else if isDigit c || 0x41 ≤ c && c ≤ 0x5A || 0x61 ≤ c && c ≤ 0x7A || c ∈ lit "-_.~" then [c]
    else [percent, upperHex (c.toNat / 16), upperHex (c.toNat % 16)]

def encode (q : Values) : GoString :=
  (lit "&").intercalate (q.toList.flatMap fun (key, values) =>
    values.map fun value => queryEscape key ++ lit "=" ++ queryEscape value)

end Values

/-- `crypto/hmac` with SHA-256, as a function of its input that is one-to-one for every key. -/
structure Mac where
  sum : (key input : GoString) → GoString
  injective : ∀ key, Function.Injective (sum key)
  sum_ne_nil : ∀ key input, sum key input ≠ []

def lowerHex (n : Nat) : UInt8 := if n < 10 then UInt8.ofNat (0x30 + n) else UInt8.ofNat (0x57 + n)

def hexEncode (bytes : GoString) :
    GoString := bytes.flatMap fun b => [lowerHex (b.toNat / 16), lowerHex (b.toNat % 16)]

def macInput (org checksum op exp : GoString) : GoString :=
  [org, checksum, op, exp].flatMap fun field => field ++ [0]

def fileStoreMAC (mac : Mac) (key org checksum op exp : GoString) : GoString :=
  hexEncode (mac.sum key (macInput org checksum op exp))

def opName : FileStoreOp → GoString
  | .get => lit "get"
  | .put => lit "put"

def grantValues (mac : Mac) (key org checksum : GoString) (op : FileStoreOp)
    (exp : Time) : Values :=
  let expStr := formatInt exp.unix.toInt
  let q := Values.set ∅ (lit "op") (opName op)
  let q := Values.set q (lit "exp") expStr
  Values.set q (lit "sig") (fileStoreMAC mac key org checksum (opName op) expStr)

def fileStoreQuery (mac : Mac) (key org checksum : GoString) (op : FileStoreOp) (exp : Time) :
    GoString :=
  (grantValues mac key org checksum op exp).encode

def verifyFileStore (mac : Mac) (key org checksum : GoString) (op : FileStoreOp) (q : Values)
    (now : Time) : Option GoString :=
  if key = [] then some (lit "auth: no file store key configured")
  else
    let sig := q.get (lit "sig")
    if sig = [] then some (lit "auth: file store request is not signed")
    else
      let expStr := q.get (lit "exp")
      match parseInt expStr with
      | none => some (lit "auth: file store grant has an invalid expiry")
      | some exp =>
        -- the MAC covers the query's own operation, whatever it is
        if sig ≠ fileStoreMAC mac key org checksum (q.get (lit "op")) expStr then
          some (lit "auth: file store grant is not valid for this request")
        else if q.get (lit "op") ≠ opName op then some (lit "auth: file store grant does not authorize this operation")
        else if now.after (.ofUnix (Int64.ofInt exp)) then some (lit "auth: file store grant has expired")
        else none

def fileStoreOp (method : Method) : FileStoreOp :=
  if method = .put || method = .post then .put else .get

def fileStoreGrantTTL : Nat := 3600

def fileStoreURL (mac : Mac) (key : GoString) (now : Time) (baseURL org checksum : GoString)
    (op : FileStoreOp) : GoString :=
  let url := baseURL ++ lit "/organizations/" ++ org ++ lit "/file_store/" ++ checksum
  if key = [] then url else url ++ lit "?" ++ fileStoreQuery mac key org checksum op (now.addSec fileStoreGrantTTL)

end CincServer.Server
