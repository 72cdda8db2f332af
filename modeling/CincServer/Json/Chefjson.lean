import CincServer.Json.Jsontext
import CincServer.Json.Decode

/-!
# The form documents are stored in

`normalize` rewrites a text token by token; `parse` and `marshal` go through the tree. Every
`append` function is what it appends.
-/

namespace CincServer.Json.Chefjson
open Go Jsontext

def hexUpper (n : UInt8) : UInt8 := if n < 10 then 0x30 + n else 0x37 + n

def escapeByte (c : UInt8) : GoString :=
  if 0x20 ≤ c && c != 0x22 && c != 0x5C then [c]
  else if c == 0x22 || c == 0x5C then [0x5C, c]
  else if c == 0x08 then [0x5C, 0x62]
  else if c == 0x0C then [0x5C, 0x66]
  else if c == 0x0A then [0x5C, 0x6E]
  else if c == 0x0D then [0x5C, 0x72]
  else if c == 0x09 then [0x5C, 0x74]
  else [0x5C, 0x75, 0x30, 0x30, hexUpper (c >>> 4), hexUpper (c &&& 0xF)]

def quoted (body : GoString) : GoString := 0x22 :: (body ++ [0x22])

def appendString (s : GoString) : GoString := quoted (s.flatMap escapeByte)

def containsAny (s chars : GoString) : Bool := s.any (· ∈ chars)

def smallestNormal : Rat := 1 / 2 ^ 1022

def layout (digits : GoString) (n : Int) : GoString :=
  let k : Int := digits.length
  if k ≤ n ∧ n ≤ 21 then digits ++ List.replicate (n - k).toNat 0x30 ++ lit ".0"
  else if 0 < n ∧ n ≤ 21 then digits.take n.toNat ++ lit "." ++ digits.drop n.toNat
  else if -6 < n ∧ n ≤ 0 then lit "0." ++ List.replicate (-n).toNat 0x30 ++ digits
  else
    digits.take 1 ++ (if k > 1 then lit "." ++ digits.drop 1 else []) ++ lit "e" ++
      (if n - 1 > 0 then lit "+" else []) ++ formatInt (n - 1)

def appendFloat (f : Rat) : GoString :=
  if |f| < smallestNormal then lit "0.0"
  else
    let (digits, exp) := formatE |f|
    (if f < 0 then lit "-" else []) ++ layout digits (exp + 1)

/-- An integer is written exactly, anything with a fraction or an exponent as a double. A literal of
a token is neither an infinity nor a NaN. -/
def appendNumber (literal : GoString) : Option GoString :=
  if !containsAny literal (lit ".eE") then some (if literal = lit "-0" then lit "0" else literal)
  else
    match parseFloat literal with
    | some (.finite f) => some (appendFloat f)
    | _ => none

def rewrite : Token → Option GoString
  | .string literal =>
    if 0x5C ∈ literal then (unquote literal).map appendString else some (quoted literal)
  | .number literal => appendNumber literal
  | .null => some (lit "null")
  | .bool true => some (lit "true")
  | .bool false => some (lit "false")
  | .objectStart => some (lit "\x7b")
  | .objectEnd => some (lit "\x7d")
  | .arrayStart => some (lit "[")
  | .arrayEnd => some (lit "]")

def opened : Token → List Frame
  | .objectStart => [⟨true, 0⟩]
  | .arrayStart => [⟨false, 0⟩]
  | _ => []

def isEnd : Token → Bool
  | .objectEnd | .arrayEnd => true
  | _ => false

def emit (tok : Token) (stack : List Frame) : Option (GoString × List Frame) :=
  if isEnd tok then (rewrite tok).map fun text => (text, stack.tail)
  else (rewrite tok).map fun text => (separator stack ++ text, opened tok ++ count stack)

def normalizeLoop : List Token → List Frame → GoString → Option (GoString × List Token)
  | [], _, _ => none
  | tok :: rest, stack, out =>
    match emit tok stack with
    | none => none
    | some (text, stack') =>
      if stack'.isEmpty then some (out ++ text, rest) else normalizeLoop rest stack' (out ++ text)

def normalize (s : GoString) : Option GoString :=
  match normalizeLoop (newDecoder s).tokens [] [] with
  | some (out, []) => if (newDecoder s).eof then some out else none
  | _ => none

def tokenString : Token → GoString
  | .string literal => (unquote literal).getD []
  | .number literal => literal
  | tok => (rewrite tok).getD []

mutual

def decode : Nat → List Token → Option (Value × List Token)
  | 0, _ => none
  | _ + 1, [] => none
  | fuel + 1, tok :: rest =>
    match tok with
    | .objectStart => (decodeMembers fuel rest).map fun (members, rest) => (.object members, rest)
    | .arrayStart => (decodeElems fuel rest).map fun (elems, rest) => (.array elems, rest)
    | .string _ => some (.string (tokenString tok), rest)
    | .number literal => some (.number literal, rest)
    | .bool b => some (.bool b, rest)
    | .null => some (.null, rest)
    | .objectEnd | .arrayEnd => none

def decodeMembers : Nat → List Token → Option (Members × List Token)
  | 0, _ => none
  | _ + 1, [] => none
  | _ + 1, .objectEnd :: rest => some ([], rest)
  | fuel + 1, key :: rest => do
      let (v, rest) ← decode fuel rest
      let (members, rest) ← decodeMembers fuel rest
      return ((tokenString key, v) :: members, rest)

def decodeElems : Nat → List Token → Option (List Value × List Token)
  | 0, _ => none
  | _ + 1, [] => none
  | _ + 1, .arrayEnd :: rest => some ([], rest)
  | fuel + 1, tokens => do
      let (v, rest) ← decode fuel tokens
      let (elems, rest) ← decodeElems fuel rest
      return (v :: elems, rest)

end

def parse (s : GoString) : Option Value :=
  match decode (2 * (newDecoder s).tokens.length + 1) (newDecoder s).tokens with
  | some (v, []) => if (newDecoder s).eof then some v else none
  | _ => none

mutual

def appendValue : Value → GoString
  | .object members => lit "\x7b" ++ appendMembers true members ++ lit "\x7d"
  | .array elems => lit "[" ++ appendElems true elems ++ lit "]"
  | .string s => appendString s
  | .number literal => (appendNumber literal).getD literal
  | .bool true => lit "true"
  | .bool false => lit "false"
  | .null => lit "null"

def appendMembers (first : Bool) : List (GoString × Value) → GoString
  | [] => []
  | (name, v) :: rest =>
    (if first then [] else lit ",") ++ appendString name ++ lit ":" ++ appendValue v ++ appendMembers false rest

def appendElems (first : Bool) : List Value → GoString
  | [] => []
  | v :: rest => (if first then [] else lit ",") ++ appendValue v ++ appendElems false rest

end

def marshal (v : Value) : GoString := appendValue v

end CincServer.Json.Chefjson
