import CincServer.Json.Stored

/-!
# Readers of repeated names

The first member of a name wins. One reader passes over the tokens of a later one, one refuses the
document, and one stops at the first.
-/

namespace CincServer.Json.Chefjson
open Go Jsontext

def skipTokens : Nat → List Token → Option (List Token)
  | _, [] => none
  | depth, .objectStart :: rest => skipTokens (depth + 1) rest
  | depth, .arrayStart :: rest => skipTokens (depth + 1) rest
  | 0, .objectEnd :: _ => none
  | 0, .arrayEnd :: _ => none
  | 0, _ :: rest => some rest
  | depth + 1, .objectEnd :: rest => if depth = 0 then some rest else skipTokens depth rest
  | depth + 1, .arrayEnd :: rest => if depth = 0 then some rest else skipTokens depth rest
  | depth + 1, _ :: rest => skipTokens (depth + 1) rest

def skipValue (tokens : List Token) : Option (List Token) := skipTokens 0 tokens

mutual

def decodeFirst : Nat → List Token → Option (Value × List Token)
  | 0, _ => none
  | _ + 1, [] => none
  | fuel + 1, tok :: rest =>
    match tok with
    | .objectStart => (decodeMap fuel ∅ rest).map fun (m, rest) => (.object m.toList, rest)
    | .arrayStart => (decodeFirstElems fuel rest).map fun (elems, rest) => (.array elems, rest)
    | .string _ => some (.string (tokenString tok), rest)
    | .number literal => some (.number literal, rest)
    | .bool b => some (.bool b, rest)
    | .null => some (.null, rest)
    | .objectEnd | .arrayEnd => none

def decodeMap : Nat → Object → List Token → Option (Object × List Token)
  | 0, _, _ => none
  | _ + 1, _, [] => none
  | _ + 1, m, .objectEnd :: rest => some (m, rest)
  | fuel + 1, m, key :: rest =>
    if tokenString key ∈ m then (skipValue rest).bind (decodeMap fuel m)
    else (decodeFirst fuel rest).bind fun (v, rest) =>
      decodeMap fuel (m.insert (tokenString key) v) rest

def decodeFirstElems : Nat → List Token → Option (List Value × List Token)
  | 0, _ => none
  | _ + 1, [] => none
  | _ + 1, .arrayEnd :: rest => some ([], rest)
  | fuel + 1, tokens => do
      let (v, rest) ← decodeFirst fuel tokens
      let (elems, rest) ← decodeFirstElems fuel rest
      return (v :: elems, rest)

end

def decodeObject (s : GoString) : Option Object :=
  match decodeFirst (2 * (newDecoder s).tokens.length + 1) (newDecoder s).tokens with
  | some (v, []) => if (newDecoder s).eof then asMap v else none
  | _ => none

mutual

def readUnique : Nat → List Token → Option (List Token)
  | 0, _ => none
  | _ + 1, [] => none
  | fuel + 1, tok :: rest =>
    match tok with
    | .objectStart => readUniqueMembers fuel [] rest
    | .arrayStart => readUniqueElems fuel rest
    | .objectEnd | .arrayEnd => none
    | _ => some rest

def readUniqueMembers : Nat → List GoString → List Token → Option (List Token)
  | 0, _, _ => none
  | _ + 1, _, [] => none
  | _ + 1, _, .objectEnd :: rest => some rest
  | fuel + 1, names, key :: rest =>
    if tokenString key ∈ names then none
    else (readUnique fuel rest).bind (readUniqueMembers fuel (tokenString key :: names))

def readUniqueElems : Nat → List Token → Option (List Token)
  | 0, _ => none
  | _ + 1, [] => none
  | _ + 1, .arrayEnd :: rest => some rest
  | fuel + 1, tokens => (readUnique fuel tokens).bind (readUniqueElems fuel)

end

def isValidUnique (s : GoString) : Bool :=
  match readUnique (2 * (newDecoder s).tokens.length + 1) (newDecoder s).tokens with
  | some [] => (newDecoder s).eof
  | _ => false

def hasRepeatedNames (s : GoString) : Bool := !isValidUnique s

def stringLoop (name : GoString) : Nat → List Token → Option GoString
  | fuel + 1, .string literal :: rest =>
    if tokenString (.string literal) ≠ name then (skipValue rest).bind (stringLoop name fuel)
    else match rest with
      | .string value :: _ => some (tokenString (.string value))
      | _ => none
  | _, _ => none

def string (s name : GoString) : Option GoString :=
  match (newDecoder s).tokens with
  | .objectStart :: rest => stringLoop name rest.length rest
  | _ => none

end CincServer.Json.Chefjson
