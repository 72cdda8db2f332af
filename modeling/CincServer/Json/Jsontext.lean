import CincServer.Go.Strconv
import CincServer.Lib.Lexer

/-!
# encoding/json/jsontext

A decoder reads the tokens of a stream of JSON values. It holds them to the grammar of RFC 8259, with
names that may repeat, and to valid UTF-8; the first place where the text fails ends the tokens with an
error.
-/

namespace CincServer.Json.Jsontext
open Go Lib

inductive Token
  | null
  | bool (b : Bool)
  | number (literal : GoString)
  | string (literal : GoString)
  | objectStart
  | objectEnd
  | arrayStart
  | arrayEnd

/-- One open container: whether it is an object, and how many tokens it has held so far. An object's
keys are its even-numbered ones. -/
structure Frame where
  object : Bool
  n : Nat

def hex4 : GoString → Option Nat
  | a :: b :: c :: d :: _ => do
      return (((← hexDigit? a) * 16 + (← hexDigit? b)) * 16 + (← hexDigit? c)) * 16 + (← hexDigit? d)
  | _ => none

/-- What an escape \uXXXX stands for, given what follows its "\u", and its width: a surrogate needs
the other half of its pair right after it. -/
def readEscapedRune (rest : GoString) : Option (GoString × Nat) :=
  match hex4 rest with
  | none => none
  | some r =>
    if 0xD800 ≤ r ∧ r ≤ 0xDFFF then
      match rest.drop 4 with
      | 0x5C :: 0x75 :: second =>
        match hex4 second with
        | some low =>
          if r < 0xDC00 ∧ 0xDC00 ≤ low ∧ low ≤ 0xDFFF then
            some (encodeRune (0x10000 + (r - 0xD800) * 0x400 + (low - 0xDC00)), 12)
          else none
        | none => none
      | _ => none
    else some (encodeRune r, 6)

def shortEscape (c : UInt8) : Option UInt8 :=
  if c == 0x22 || c == 0x5C || c == 0x2F then some c
  else if c == 0x62 then some 0x08
  else if c == 0x66 then some 0x0C
  else if c == 0x6E then some 0x0A
  else if c == 0x72 then some 0x0D
  else if c == 0x74 then some 0x09
  else none

def readChar : Reader Unit UInt8 GoString
  | _, 0x5C :: 0x75 :: rest => (readEscapedRune rest).map fun (char, width) => (char, width, ())
  | _, 0x5C :: c :: _ => (shortEscape c).map fun b => ([b], 2, ())
  | _, text =>
    let (r, width) := decodeRune text
    if width = 0 ∨ r = runeError ∧ width = 1 ∨ text.head?.any (fun b => b < 0x20 || b == 0x22 || b == 0x5C) then none
    else some (text.take width, width, ())

def unquote (literal : GoString) : Option GoString :=
  match lex readChar 0 () literal with
  | (chars, _, []) => some chars.flatten
  | _ => none

def stringBody : GoString → Option GoString
  | [] => none
  | 0x22 :: _ => some []
  | 0x5C :: c :: rest => (stringBody rest).map fun body => 0x5C :: c :: body
  | c :: rest => (stringBody rest).map (c :: ·)

def someDigits (s : GoString) : Option GoString :=
  if (s.takeWhile isDigit).isEmpty then none else some (s.takeWhile isDigit)

def signPart (signs : GoString) (s : GoString) : GoString := (s.take 1).filter (· ∈ signs)

def integerPart : GoString → Option GoString
  | 0x30 :: _ => some [0x30]
  | s => someDigits s

def fractionPart : GoString → Option GoString
  | 0x2E :: rest => (someDigits rest).map (0x2E :: ·)
  | _ => some []

def exponentPart : GoString → Option GoString
  | e :: rest =>
    if e == 0x65 || e == 0x45 then
      let sign := signPart (lit "+-") rest
      (someDigits (rest.drop sign.length)).map fun digits => e :: (sign ++ digits)
    else some []
  | [] => some []

def readNumber (s : GoString) : Option GoString := do
  let sign := signPart (lit "-") s
  let integer ← integerPart (s.drop sign.length)
  let fraction ← fractionPart (s.drop (sign ++ integer).length)
  let exponent ← exponentPart (s.drop (sign ++ integer ++ fraction).length)
  return sign ++ integer ++ fraction ++ exponent

def maxNestingDepth : Nat := 10000

def count : List Frame → List Frame
  | [] => []
  | top :: outer => { top with n := top.n + 1 } :: outer

def needsName : List Frame → Bool
  | ⟨true, n⟩ :: _ => n % 2 == 0
  | _ => false

def push (object : Bool) (frames : List Frame) : Option (List Frame) :=
  if needsName frames || frames.length == maxNestingDepth then none
  else some (⟨object, 0⟩ :: count frames)

def advance (frames : List Frame) : Token → Option (List Frame)
  | .objectEnd =>
    match frames with
    | ⟨true, n⟩ :: outer => if n % 2 == 0 then some outer else none
    | _ => none
  | .arrayEnd =>
    match frames with
    | ⟨false, _⟩ :: outer => some outer
    | _ => none
  | .objectStart => push true frames
  | .arrayStart => push false frames
  | .string _ => some (count frames)
  | .null | .bool _ | .number _ => if needsName frames then none else some (count frames)

def separator : List Frame → GoString
  | [] => []
  | top :: _ =>
    if top.object && top.n % 2 == 1 then lit ":"
    else if top.n > 0 then lit ","
    else []

def isWhite (b : UInt8) : Bool := b == 0x20 || b == 0x09 || b == 0x0A || b == 0x0D

def readValueToken : GoString → Option (Token × Nat)
  | 0x7B :: _ => some (.objectStart, 1)
  | 0x5B :: _ => some (.arrayStart, 1)
  | 0x22 :: rest =>
    match stringBody rest with
    | some literal => if (unquote literal).isSome then some (.string literal, literal.length + 2) else none
    | none => none
  | s =>
    if (lit "null").isPrefixOf s then some (.null, 4)
    else if (lit "true").isPrefixOf s then some (.bool true, 4)
    else if (lit "false").isPrefixOf s then some (.bool false, 5)
    else (readNumber s).map fun literal => (.number literal, literal.length)

def placed (frames : List Frame) (before : Nat) (tok : Token) (width : Nat) :
    Option (Token × Nat × List Frame) :=
  (advance frames tok).map fun frames' => (tok, before + width, frames')

def readToken : Reader (List Frame) UInt8 Token := fun frames s =>
  let text := s.dropWhile isWhite
  match text with
  | 0x7D :: _ => placed frames (s.length - text.length) .objectEnd 1
  | 0x5D :: _ => placed frames (s.length - text.length) .arrayEnd 1
  | _ =>
    if (separator frames).isPrefixOf text then
      let value := (text.drop (separator frames).length).dropWhile isWhite
      (readValueToken value).bind fun (tok, width) =>
        placed frames (s.length - value.length) tok width
    else none

structure Decoder where
  tokens : List Token
  eof : Bool

def newDecoder (s : GoString) : Decoder :=
  let (tokens, frames, rest) := lex readToken 0 [] s
  ⟨tokens, frames.isEmpty && rest.all isWhite⟩

end CincServer.Json.Jsontext
