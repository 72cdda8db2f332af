import CincServer.Api.Handler
import CincServer.Json.Stored

/-!
# Listings, streamed as text
-/

namespace CincServer.Api
open Go Json Chefjson

/-- The loop of both escapers over the characters of a string: what is pending, `s[start:i]`, is copied
when a character is escaped and at the end. -/
def appendRuns {α : Type} (bytes : α → GoString)
    (escape : α → Option GoString) : GoString → List α → GoString
  | pending, [] => pending
  | pending, c :: rest =>
    match escape c with
    | none => appendRuns bytes escape (pending ++ bytes c) rest
    | some escaped => pending ++ escaped ++ appendRuns bytes escape [] rest

def appendStringRuns (s : GoString) : GoString :=
  let escape c := if 0x20 ≤ c && c != 0x22 && c != 0x5C then none else some (escapeByte c)
  quoted (appendRuns ([·]) escape [] s)

def escapeChar : Rune × GoString → Option GoString
  | (c, bytes) =>
    if c < 0x80 then
      if 0x20 ≤ c && c != 0x22 && c != 0x5C then none
      else if c == 0x5C then some (lit "\\\\")
      else if c == 0x22 then some (lit "\\\"")
      else if c == 0x0A then some (lit "\\n")
      else if c == 0x0D then some (lit "\\r")
      else if c == 0x09 then some (lit "\\t")
      else some (unicodeEscape (UInt8.ofNat c))
    else if c == runeError && bytes.length == 1 then some [0xEF, 0xBF, 0xBD]
    else if c == 0x2028 || c == 0x2029 then some (lit "\\u202" ++ [hexLower (UInt8.ofNat (c % 16))])
    else none

def appendJSONStringContent (s : GoString) : GoString :=
  appendRuns Prod.snd escapeChar [] (segments s)

def listEntries (base : GoString) (first : Bool) : List GoString → GoString
  | [] => []
  | k :: keys =>
    (if first then [] else lit ",") ++ quoted (appendJSONStringContent k) ++ lit ":" ++
      quoted (base ++ appendJSONStringContent k) ++ listEntries base false keys

/-- The body of the listing of a collection with these keys. -/
def listObjects (r : Request) (org segment : GoString) (keys : List GoString) : GoString :=
  lit "\x7b" ++ listEntries (appendJSONStringContent (objectURL r org segment [])) true keys ++ lit "\x7d"

end CincServer.Api
