import CincServer.Json.Decode
import Mathlib.Data.Finset.Card
import Mathlib.Data.Finset.SDiff

/-!
# Queries and what they match
-/

namespace CincServer.Search
open Go

abbrev Fields := GoMap (List GoString)

/-- One piece of a pattern `wildcardToRegexp` compiles: a quoted rune, `.` or `.*`. -/
inductive Atom
  | literal (r : Rune)
  | dot
  | dotStar
deriving DecidableEq

abbrev Regexp := List Atom

def newline : Rune := 0x0A

/-- What may be left of the text after `.*`. Without the `s` flag a dot stops at a newline. -/
def afterDotStar : List Rune → List (List Rune)
  | [] => [[]]
  | r :: rest => (r :: rest) :: if r = newline then [] else afterDotStar rest

def Regexp.matchRunes : Regexp → List Rune → Bool
  | [], text => text.isEmpty
  | .literal r :: rest, text =>
    match text with
    | [] => false
    | c :: text => r == c && matchRunes rest text
  | .dot :: rest, text =>
    match text with
    | [] => false
    | c :: text => c != newline && matchRunes rest text
  | .dotStar :: rest, text => (afterDotStar text).any (matchRunes rest)

def Regexp.matchString (re : Regexp) (v : GoString) : Bool := re.matchRunes (runes v)

structure TermQ where
  field : GoString
  value : GoString
  phrase : Bool
  re : Option Regexp
deriving DecidableEq

def TermQ.matchVal (q : TermQ) (v : GoString) : Bool :=
  match q.re with
  | none => v = q.value
  | some re => re.matchString v

structure RangeQ where
  field : GoString
  lo : GoString
  hi : GoString
  incLo : Bool
  incHi : Bool
deriving DecidableEq

def openBound : GoString := lit "*"

def RangeQ.numericIn (q : RangeQ) (v : Float64) (lo hi : Option Float64) : Bool :=
  let tooLow := match lo with
    | some lo => v.lt lo || (!q.incLo && v.eq lo)
    | none => false
  let tooHigh := match hi with
    | some hi => hi.lt v || (!q.incHi && v.eq hi)
    | none => false
  !tooLow && !tooHigh

def RangeQ.lexicalIn (q : RangeQ) (v : GoString) : Bool :=
  !(q.lo != openBound && (compare v q.lo == .lt || (!q.incLo && v == q.lo))) &&
    !(q.hi != openBound && (compare v q.hi == .gt || (!q.incHi && v == q.hi)))

def RangeQ.inRange (q : RangeQ) (v : GoString) : Bool :=
  let bound (b : GoString) : Option (Option Float64) :=
    if b = openBound then some none else (parseFloat b).map some
  match parseFloat v, bound q.lo, bound q.hi with
  | some vn, some lo, some hi => q.numericIn vn lo hi
  | _, _, _ => q.lexicalIn v

inductive Query
  | matchAll
  | andQ (l r : Query)
  | orQ (l r : Query)
  | notQ (q : Query)
  | termQ (t : TermQ)
  | existsQ (field : GoString)
  | rangeQ (r : RangeQ)
deriving DecidableEq

def Fields.values (f : Fields) (field : GoString) : List GoString := f.getD field []

def TermQ.matchesFields (q : TermQ) (f : Fields) : Bool :=
  if q.field = [] then f.toList.any fun entry => entry.2.any q.matchVal
  else (Fields.values f q.field).any q.matchVal

def Query.matchesFields : Query → Fields → Bool
  | .matchAll, _ => true
  | .andQ l r, f => l.matchesFields f && r.matchesFields f
  | .orQ l r, f => l.matchesFields f || r.matchesFields f
  | .notQ q, f => !q.matchesFields f
  | .termQ t, f => t.matchesFields f
  | .existsQ field, f => if field = [] then f.size > 0 else (Fields.values f field).length > 0
  | .rangeQ r, f => (Fields.values f r.field).any r.inRange

/-!
## The searchable view of a document

A Go map of the document is given by its members, each name once. The values of a field are
collected in the order of the members; the source's order is that of map iteration.
-/

open Json

def assign (dst : Members) (name : GoString) (v : Value) : Members :=
  if dst.any (·.1 = name) then dst.map fun member => if member.1 = name then (name, v) else member
  else dst ++ [(name, v)]

mutual

def mergeMember (dst : Members) (name : GoString) : Value → Members
  | .object sub =>
    match Json.get dst name with
    | some (.object existing) => assign dst name (.object (deepMerge existing sub))
    | _ => assign dst name (.object (deepMerge [] sub))
  | v => assign dst name v

def deepMerge (dst : List (GoString × Value)) : List (GoString × Value) → List (GoString × Value)
  | [] => dst
  | (name, v) :: rest => deepMerge (mergeMember dst name v) rest

end

def levels : List GoString := [lit "default", lit "normal", lit "override", lit "automatic"]

def nodeSearchDoc (node : Members) : Members :=
  let merged := levels.foldl (fun merged level =>
    match Json.get node level with
    | some (.object attrs) => deepMerge merged attrs
    | _ => merged) []
  merged.foldl (fun out member => assign out member.1 member.2) node

variable [Unicode]

/-- The suffixes of a path joined with underscores, the last segment first: `key` is the suffix
so far, the segments before it are given in reverse. -/
def suffixKeys (key : GoString) : List GoString → List GoString
  | [] => []
  | segment :: before =>
    let key := if key = [] then segment else segment ++ lit "_" ++ key
    key :: suffixKeys key before

def append (fields : Fields) (key val : GoString) : Fields :=
  fields.insert key (Fields.values fields key ++ [val])

def add (fields : Fields) (path : List GoString) (val : GoString) : Fields :=
  (suffixKeys [] path).foldl (fun fields key => append fields key (toLower val)) fields

def scalarString : Value → GoString
  | .string s => s
  | .number literal => literal
  | .bool b => if b then lit "true" else lit "false"
  | _ => []

def addLeaf (fields : Fields) (path : List GoString) (v : Value) : Fields :=
  if path = [] then fields else add fields path (scalarString v)

mutual

def walk (path : List GoString) : Value → Fields → Fields
  | .object members, fields => walkMembers path members fields
  | .array elems, fields => walkElems path elems fields
  | .null, fields => addLeaf fields path .null
  | .bool b, fields => addLeaf fields path (.bool b)
  | .number literal, fields => addLeaf fields path (.number literal)
  | .string s, fields => addLeaf fields path (.string s)

def walkMembers (path : List GoString) : List (GoString × Value) → Fields → Fields
  | [], fields => fields
  | (name, v) :: rest, fields => walkMembers path rest (walk (toLower name :: path) v fields)

def walkElems (path : List GoString) : List Value → Fields → Fields
  | [], fields => fields
  | v :: rest, fields => walkElems path rest (walk path v fields)

end

def flatten (doc : Members) : Fields := walk [] (.object doc) ∅

/-! ## Planning a query against an index -/

abbrev DocIDs := Finset GoString

structure Postings where
  exact : (field value : GoString) → DocIDs
  fieldExists : (field : GoString) → DocIDs
  matchField : (field : GoString) → (pred : GoString → Bool) → DocIDs
  matchAny : (pred : GoString → Bool) → DocIDs
  all : DocIDs

def intersect (a b : DocIDs) : DocIDs :=
  if b.card < a.card then b.filter (· ∈ a) else a.filter (· ∈ b)

def union (a b : DocIDs) : DocIDs := if b.card > a.card then b ∪ a else a ∪ b

def difference (a b : DocIDs) : DocIDs := a \ b

def plan : Query → Postings → Option DocIDs
  | .matchAll, p => some p.all
  | .termQ t, p =>
    if t.field = [] then some (p.matchAny t.matchVal)
    else
      match t.re with
      | none => some (p.exact t.field t.value)
      | some _ => some (p.matchField t.field t.matchVal)
  | .existsQ field, p => if field = [] then some p.all else some (p.fieldExists field)
  | .rangeQ r, p => some (p.matchField r.field r.inRange)
  | .andQ l r, p =>
    match plan l p with
    | none => none
    | some left =>
      -- nothing on the left means nothing overall
      if left.card = 0 then some left
      else
        match plan r p with
        | none => none
        | some right => some (intersect left right)
  | .orQ l r, p =>
    match plan l p, plan r p with
    | some left, some right => some (union left right)
    | _, _ => none
  | .notQ q, p =>
    match plan q p with
    | none => none
    | some inner => some (difference p.all inner)

/-!
## The query language

`lexFrom` walks the bytes of the query and `parseOr` and the functions below it the tokens, as the
source does with its two cursors. The parser's recursion is bounded by fuel; `fuelFor` gives it
enough for every token list.
-/

inductive ParseError
  | unterminatedPhrase
  | unterminatedRange
  | malformedRange (inner : GoString)
  | endsWithEscape
  | unexpectedCharacter (text : GoString)
  | unexpectedToken (text : GoString)
  | missingClosingParen
  | expectedValue
  | outOfFuel
deriving DecidableEq

def byte (c : Char) : UInt8 := UInt8.ofNat c.toNat

def backslash : UInt8 := byte '\\'

def compileRunes : (escaped : Bool) → List Rune → Regexp
  | _, [] => []
  | true, r :: rest => .literal r :: compileRunes false rest
  | false, r :: rest =>
    if r = backslash.toNat then compileRunes true rest
    else if r = (byte '*').toNat then .dotStar :: compileRunes false rest
    else if r = (byte '?').toNat then .dot :: compileRunes false rest
    else .literal r :: compileRunes false rest

def wildcardToRegexp (pattern : GoString) : Regexp := compileRunes false (runes pattern)

def hasWildcard : GoString → Bool
  | [] => false
  | b :: rest =>
    if b = backslash then
      match rest with
      | [] => false
      | _ :: rest => hasWildcard rest
    else b = byte '*' || b = byte '?' || hasWildcard rest

def buildTerm (field value glob : GoString) (phrase : Bool) : Query :=
  let field := toLower field
  let value := toLower value
  let glob := toLower glob
  if glob = lit "*" then
    if field = [] ∨ field = lit "*" then .matchAll else .existsQ field
  else
    .termQ { field, value, phrase, re := if !phrase && hasWildcard glob then some (wildcardToRegexp glob) else none }

inductive Token
  | eof
  | lparen
  | rparen
  | and
  | or
  | not
  | colon
  | word (text glob : GoString) (negate : Bool)
  | phrase (text : GoString)
  | range (lo hi : GoString) (incLo incHi : Bool)
deriving DecidableEq

def Token.text : Token → GoString
  | .eof => []
  | .lparen => lit "("
  | .rparen => lit ")"
  | .and => lit "AND"
  | .or => lit "OR"
  | .not => lit "NOT"
  | .colon => lit ":"
  | .word text _ _ => text
  | .phrase text => text
  | .range .. => []

def delimiters : GoString := lit " \t\n\r()[]\x7b\x7d\":"

structure Word where
  text : GoString
  glob : GoString
  width : Nat

def Word.prepend (text glob : GoString) (w : Word) : Word :=
  ⟨text ++ w.text, glob ++ w.glob, w.width + 1⟩

def scanWord : (skip : Nat) → GoString → Except ParseError Word
  | _, [] => .ok ⟨[], [], 0⟩
  | skip + 1, _ :: rest => (scanWord skip rest).map (Word.prepend [] [])
  | 0, b :: rest =>
    if b ∈ delimiters then .ok ⟨[], [], 0⟩
    else if b ≠ backslash then (scanWord 0 rest).map (Word.prepend [b] [b])
    else if rest = [] then .error .endsWithEscape
    else
      let width := (decodeRune rest).2
      let esc := rest.take width
      let kept := if esc = lit "*" ∨ esc = lit "?" ∨ esc = [backslash] then [backslash] else []
      (scanWord width rest).map (Word.prepend esc (kept ++ esc))

def wordToken (raw : GoString) (w : Word) : Token :=
  if raw = lit "AND" then .and
  else if raw = lit "OR" then .or
  else if raw = lit "NOT" then .not
  else .word w.text w.glob (raw.length > 1 && raw.head? == some (byte '-'))

def scanRange (close : UInt8) (inclusive : Bool) (rest : GoString) :
    Except ParseError (Token × Nat) :=
  match indexByte rest close with
  | none => .error .unterminatedRange
  | some stop =>
    let inner := rest.take stop
    match cut (lit " TO ") inner with
    | none => .error (.malformedRange inner)
    | some (lo, hi) =>
      .ok (.range (toLower (trimSpace lo)) (toLower (trimSpace hi)) inclusive inclusive, stop + 2)

def scanToken (b : UInt8) (rest : GoString) : Except ParseError (Option Token × Nat) :=
  if b ∈ lit " \t\n\r" then .ok (none, 1)
  else if b = byte '(' then .ok (some .lparen, 1)
  else if b = byte ')' then .ok (some .rparen, 1)
  else if b = byte ':' then .ok (some .colon, 1)
  else if b = byte '"' then
    match indexByte rest (byte '"') with
    | none => .error .unterminatedPhrase
    | some stop => .ok (some (.phrase (rest.take stop)), stop + 2)
  else if b = byte '[' then (scanRange (byte ']') true rest).map fun (t, n) => (some t, n)
  else if b = 0x7B then (scanRange 0x7D false rest).map fun (t, n) => (some t, n)
  else
    match scanWord 0 (b :: rest) with
    | .error err => .error err
    | .ok w =>
      -- a stray closer of a range neither starts a token nor belongs to a word
      if w.width = 0 then .error (.unexpectedCharacter [b])
      else .ok (some (wordToken ((b :: rest).take w.width) w), w.width)

def lexFrom : (skip : Nat) → GoString → Except ParseError (List Token)
  | _, [] => .ok [.eof]
  | skip + 1, _ :: rest => lexFrom skip rest
  | 0, b :: rest =>
    match scanToken b rest with
    | .error err => .error err
    | .ok (token, width) => (lexFrom (width - 1) rest).map (token.toList ++ ·)

def lex (s : GoString) : Except ParseError (List Token) := lexFrom 0 s

abbrev Cursor := List Token

def peek (p : Cursor) : Token := p.headD .eof

def next (p : Cursor) : Cursor :=
  match p with
  | _ :: t :: rest => t :: rest
  | p => p

abbrev Parsed := Except ParseError (Query × Cursor)

def negateIf (negate : Bool) (q : Query) : Query := if negate then .notQ q else q

def parseClause (text glob : GoString) (negate : Bool) (p : Cursor) : Parsed :=
  let p := next p
  let field := if negate then text.tail else text
  let glob := if negate then glob.tail else glob
  if peek p = .colon then
    let p := next p
    match peek p with
    | .word text glob _ => .ok (negateIf negate (buildTerm field text glob false), next p)
    | .phrase text => .ok (negateIf negate (buildTerm field text text true), next p)
    | .range lo hi incLo incHi =>
      .ok (negateIf negate (.rangeQ { field := toLower field, lo, hi, incLo, incHi }), next p)
    | _ => .error .expectedValue
  else .ok (negateIf negate (buildTerm [] field glob false), p)

def clauseStart (p : Cursor) : Option Cursor :=
  match peek p with
  | .and => some (next p)
  | .word .. => some p
  | .phrase _ => some p
  | .lparen => some p
  | .not => some p
  | _ => none

mutual

def parseOr : Nat → Cursor → Parsed
  | 0, _ => .error .outOfFuel
  | fuel + 1, p => do
      let (left, p) ← parseAnd fuel p
      orLoop fuel left p

def orLoop : Nat → Query → Cursor → Parsed
  | 0, _, _ => .error .outOfFuel
  | fuel + 1, left, p =>
    if peek p = .or then do
      let (right, p) ← parseAnd fuel (next p)
      orLoop fuel (.orQ left right) p
    else .ok (left, p)

def parseAnd : Nat → Cursor → Parsed
  | 0, _ => .error .outOfFuel
  | fuel + 1, p => do
      let (left, p) ← parseUnary fuel p
      andLoop fuel left p

def andLoop : Nat → Query → Cursor → Parsed
  | 0, _, _ => .error .outOfFuel
  | fuel + 1, left, p =>
    match clauseStart p with
    | none => .ok (left, p)
    | some start => do
        let (right, p) ← parseUnary fuel start
        andLoop fuel (.andQ left right) p

def parseUnary : Nat → Cursor → Parsed
  | 0, _ => .error .outOfFuel
  | fuel + 1, p =>
    if peek p = .not then do
      let (q, p) ← parseUnary fuel (next p)
      .ok (.notQ q, p)
    else parsePrimary fuel p

def parsePrimary : Nat → Cursor → Parsed
  | 0, _ => .error .outOfFuel
  | fuel + 1, p =>
    match peek p with
    | .lparen => do
        let (q, p) ← parseOr fuel (next p)
        if peek p = .rparen then .ok (q, next p) else .error .missingClosingParen
    | .phrase text => .ok (buildTerm [] text text true, next p)
    | .word text glob negate => parseClause text glob negate p
    | token => .error (.unexpectedToken token.text)

end

/-- Four calls deep for each token that is consumed. -/
def fuelFor (p : Cursor) : Nat := 4 * p.length

def parse (s : GoString) : Except ParseError Query := do
  let toks ← lex s
  let (q, p) ← parseOr (fuelFor toks) toks
  if peek p = .eof then .ok q else .error (.unexpectedToken (peek p).text)

end CincServer.Search
