import CincServer.Go.Strconv

/-!
# Urls and the request multiplexer
-/

namespace CincServer.Go

def slash : UInt8 := 0x2F

def percent : UInt8 := 0x25

def shouldEscape (c : UInt8) : Bool :=
  !(isDigit c || 0x41 ≤ c && c ≤ 0x5A || 0x61 ≤ c && c ≤ 0x7A || c ∈ lit "-_.~$&+,/:;=@")

def upperHex (n : Nat) : UInt8 := if n < 10 then UInt8.ofNat (0x30 + n) else UInt8.ofNat (0x37 + n)

def escape (path : GoString) : GoString :=
  path.flatMap fun c =>
    if shouldEscape c then [percent, upperHex (c.toNat / 16), upperHex (c.toNat % 16)] else [c]

def unescape : GoString → Option GoString
  | [] => some []
  | c :: rest =>
    if c ≠ percent then (unescape rest).map (c :: ·)
    else match rest with
      | high :: low :: rest =>
        match hexDigit? high, hexDigit? low with
        | some h, some l => (unescape rest).map (UInt8.ofNat (16 * h + l) :: ·)
        | _, _ => none
      | _ => none

def validEncoded (path : GoString) : Bool :=
  path.all fun c => c ∈ lit "!$&'()*+,;=:@[]%" || !shouldEscape c

structure Url where
  path : GoString
  rawPath : GoString

namespace Url

def escapedPath (u : Url) : GoString :=
  if u.rawPath ≠ [] && validEncoded u.rawPath && unescape u.rawPath = some u.path then u.rawPath
  else if u.path = lit "*" then lit "*"
  else escape u.path

end Url

def trimRightSlashes (s : GoString) : GoString := (s.reverse.dropWhile (· == slash)).reverse

def trimSlashes (s : GoString) : GoString := trimRightSlashes (s.dropWhile (· == slash))

def cleanElem (before : List GoString) (elem : GoString) : List GoString :=
  if elem = [] || elem = lit "." then before
  else if elem = lit ".." then before.tail
  else elem :: before

def cleanRooted (path : GoString) : GoString :=
  slash :: [slash].intercalate (((path.splitOn slash).foldl cleanElem []).reverse)

def cleanPath (path : GoString) : GoString :=
  if path = [] then [slash]
  else
    let rooted := if path.head? = some slash then path else slash :: path
    let clean := cleanRooted rooted
    if rooted.getLast? = some slash && clean ≠ [slash] then clean ++ [slash] else clean

/-!
## `http.ServeMux`

The router splits the encoded path and decodes each segment by itself. At every position it prefers a
pattern with the segment as a literal over one with a wildcard.
-/

inductive Method
  | get
  | head
  | post
  | put
  | delete
  | patch
  | other (token : GoString)
deriving DecidableEq

inductive Segment
  | literal (text : GoString)
  | wildcard (name : GoString)
deriving DecidableEq

structure Pattern (H : Type) where
  method : Method
  segments : List Segment
  handler : H

variable {H : Type}

abbrev Candidate (H : Type) := List Segment × Pattern H

def Candidate.afterLiteral (seg : GoString) : Candidate H → Option (Candidate H)
  | (.literal text :: rest, p) => if text = seg then some (rest, p) else none
  | _ => none

def Candidate.afterWildcard : Candidate H → Option (Candidate H)
  | (.wildcard _ :: rest, p) => some (rest, p)
  | _ => none

def matchPath : List GoString → List (Candidate H) → (bound : List GoString) →
      Option (Pattern H × List GoString)
  | [], candidates, bound => (candidates.find? (·.1.isEmpty)).map fun c => (c.2, bound)
  | seg :: rest, candidates, bound =>
    match matchPath rest (candidates.filterMap (Candidate.afterLiteral seg)) bound with
    | some found => some found
    | none =>
      -- a wildcard does not take the trailing slash, nor an encoded slash alone
      if seg = [slash] then none
      else matchPath rest (candidates.filterMap Candidate.afterWildcard) (bound ++ [seg])

def pathSegments (clean : GoString) : List GoString :=
  (clean.tail.splitOn slash).map fun seg => if seg = [] then [slash] else (unescape seg).getD seg

def matchMethod (patterns : List (Pattern H)) (method : Method) (segs : List GoString) :
    Option (Pattern H × List GoString) :=
  matchPath segs ((patterns.filter fun p => p.method = method).map fun p => (p.segments, p)) []

def findPattern (patterns : List (Pattern H)) (method : Method) (clean : GoString) :
    Option (Pattern H × List GoString) :=
  match matchMethod patterns method (pathSegments clean) with
  | some found => some found
  | none => if method = .head then matchMethod patterns .get (pathSegments clean) else none

def hasPattern (patterns : List (Pattern H)) (method : Method) (u : Url) : Bool :=
  (findPattern patterns method (cleanPath u.escapedPath)).isSome

end CincServer.Go
