import CincServer.Json.Decode
import CincServer.Lib.Regex

/-!
# User validation
-/

namespace CincServer.Api
open Go Json Lib

section Patterns

def rune (c : Char) : Regex Rune := .sat (· == c.toNat)

def inRanges (ranges : List (Rune × Rune)) (r : Rune) : Bool :=
  ranges.any fun range => range.1 ≤ r && r ≤ range.2

def oneOf (chars : String) (r : Rune) : Bool := chars.toList.any (·.toNat == r)

def lowerCase (r : Rune) : Bool := 0x61 ≤ r && r ≤ 0x7A

def upperCase (r : Rune) : Bool := 0x41 ≤ r && r ≤ 0x5A

def digit (r : Rune) : Bool := 0x30 ≤ r && r ≤ 0x39

/-- A class under `(?i)`: a rune matches when one it folds with does. The letters s and k fold with
U+017F and U+212A besides their other case. -/
def caseless (cls : Rune → Bool) (r : Rune) : Bool :=
  cls r || (lowerCase r && cls (r - 0x20)) || (upperCase r && cls (r + 0x20)) ||
    (r == 0x17F && (cls 0x73 || cls 0x53)) || (r == 0x212A && (cls 0x6B || cls 0x4B))

def nonEmptyOf (cls : Rune → Bool) : Regex Rune := .plus (.sat cls)

/-- `^[a-z0-9\-_]+$` -/
def userNameRE : Regex Rune := nonEmptyOf fun r => lowerCase r || digit r || oneOf "-_" r

def alnum : Regex Rune := .sat (caseless fun r => lowerCase r || digit r)

def alnumDash : Regex Rune := .sat (caseless fun r => lowerCase r || digit r || oneOf "-" r)

def emailLocal : Regex Rune :=
  let atom := nonEmptyOf (caseless fun r => lowerCase r || digit r || oneOf "!#$%&'*+/=?^_`\x7b|\x7d~-" r)
  .seq atom (.star (.seq (rune '.') atom))

def escaped : Regex Rune :=
  .seq (rune '\\') (.sat (caseless (inRanges [(0x01, 0x09), (0x0B, 0x0B), (0x0C, 0x0C), (0x0E, 0x7F)])))

def emailQuoted : Regex Rune :=
  let plain := .sat (caseless (inRanges [(0x01, 0x08), (0x0B, 0x0B), (0x0C, 0x0C), (0x0E, 0x1F),
    (0x21, 0x21), (0x23, 0x5B), (0x5D, 0x7F)]))
  .seqs [rune '"', .star (.alt plain escaped), rune '"']

def domainLabel : Regex Rune := .seq alnum (.opt (.seq (.star alnumDash) alnum))

def emailDomain : Regex Rune := .seq (.plus (.seq domainLabel (rune '.'))) domainLabel

def octet : Regex Rune :=
  .alts [.seqs [rune '2', rune '5', .sat (inRanges [(0x30, 0x35)])],
    .seqs [rune '2', .sat (inRanges [(0x30, 0x34)]), .sat digit],
    .seqs [.opt (.sat (inRanges [(0x30, 0x31)])), .sat digit, .opt (.sat digit)]]

def emailLiteral : Regex Rune :=
  let plain := .sat (caseless (inRanges [(0x01, 0x08), (0x0B, 0x0B), (0x0C, 0x0C), (0x0E, 0x1F),
    (0x21, 0x5A), (0x53, 0x7F)]))
  let part := .seq octet (rune '.')
  let tagged := .seqs [.star alnumDash, alnum, rune ':', .plus (.alt plain escaped)]
  .seqs [rune '[', part, part, part, .alt octet tagged, rune ']']

def userEmailRE : Regex Rune :=
  .seqs [.alt emailLocal emailQuoted, rune '@', .alt emailDomain emailLiteral]

def matchString (re : Regex Rune) (s : GoString) : Bool := re.accepts (runes s)

end Patterns

def malformedUserName : GoString := lit "Malformed user name. Must only contain a-z, 0-9, _, or -"

def userNameField (obj : Object) : Option Value := obj[lit "name"]?.or obj[lit "username"]?

def nameError (obj : Object) : Option GoString :=
  match userNameField obj with
  | none => none
  | some (.string s) => if matchString userNameRE s then none else some malformedUserName
  | some _ => some malformedUserName

def displayNameError (obj : Object) : Option GoString :=
  match field obj (lit "display_name") with
  | .null => some (lit "Field 'display_name' missing")
  | .string _ => none
  | _ => some (lit "Field 'display_name' invalid")

def passwordError (obj : Object) : Option GoString :=
  match field obj (lit "password") with
  | .null => none
  | .string s =>
    if s.length < 6 then some (lit "Password must have at least 6 characters") else none
  | _ => some (lit "Password must have at least 6 characters")

def externalAuthUID (obj stored : Object) : Value :=
  match field obj (lit "external_authentication_uid") with
  | .null => field stored (lit "external_authentication_uid")
  | v => v

def emailError (obj : Object) : Option GoString :=
  match field obj (lit "email") with
  | .null => some (lit "Field 'email' missing")
  | .string s => if matchString userEmailRE s then none else some (lit "email must be valid")
  | _ => some (lit "email must be valid")

def passwordMissing (obj : Object) : Option GoString :=
  match field obj (lit "password") with
  | .null => some (lit "Field 'password' missing")
  | _ => none

def localUserError (obj : Object) (create : Bool) : Option GoString :=
  emailError obj <|> if create then passwordMissing obj else none

def validateUser (obj stored : Object) (create : Bool) : Option GoString :=
  nameError obj <|> displayNameError obj <|> passwordError obj <|>
    match externalAuthUID obj stored with
    | .null => localUserError obj create
    | _ => none

def mergeField (out : Object) (name : GoString) (v : Value) : Object :=
  match v with
  | .null => out.erase name
  | v => out.insert name v

def mergeUser (stored body : Object) : Object := body.foldl mergeField stored

def lowerEmail [Unicode] (obj : Object) : Object :=
  match field obj (lit "email") with
  | .string s => obj.insert (lit "email") (.string (toLower s))
  | _ => obj

end CincServer.Api
