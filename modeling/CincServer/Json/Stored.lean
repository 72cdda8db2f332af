import CincServer.Json.Chefjson

/-!
# Documents in stored form

What `chefjson` does to the tree of a document: a stored document keeps its members in order and
its integers as they were sent.
-/

namespace CincServer.Json
open Go

mutual

def normalizeValue : Value → Option Value
  | .number literal => (Chefjson.appendNumber literal).map .number
  | .array elems => (normalizeElems elems).map .array
  | .object members => (normalizeMembers members).map .object
  | v => some v

def normalizeElems : List Value → Option (List Value)
  | [] => some []
  | v :: rest => do return (← normalizeValue v) :: (← normalizeElems rest)

def normalizeMembers : List (GoString × Value) → Option (List (GoString × Value))
  | [] => some []
  | (name, v) :: rest => do return (name, ← normalizeValue v) :: (← normalizeMembers rest)

end

mutual

def hasRepeatedNames : Value → Bool
  | .object members => membersRepeat members
  | .array elems => elemsRepeat elems
  | _ => false

def elemsRepeat : List Value → Bool
  | [] => false
  | v :: rest => hasRepeatedNames v || elemsRepeat rest

def membersRepeat : List (GoString × Value) → Bool
  | [] => false
  | (name, v) :: rest => (rest.map Prod.fst).contains name || hasRepeatedNames v || membersRepeat rest

end

def set : Members → GoString → Value → Members
  | [], name, v => [(name, v)]
  | (found, old) :: rest, name, v =>
    if found = name then (found, v) :: rest else (found, old) :: set rest name v

def stringMember (members : Members) (name : GoString) : GoString :=
  match get members name with
  | some (.string s) => s
  | _ => []

def isString (v : Value) (s : GoString) : Bool :=
  match v with
  | .string t => t = s
  | _ => false

def hexLower (n : UInt8) : UInt8 := if n < 10 then 0x30 + n else 0x57 + n

def unicodeEscape (c : UInt8) : GoString :=
  lit "\\u00" ++ [hexLower (c >>> 4), hexLower (c &&& 0xF)]

def escapeHTML : GoString → GoString
  | 0xE2 :: 0x80 :: 0xA8 :: rest => lit "\\u2028" ++ escapeHTML rest
  | 0xE2 :: 0x80 :: 0xA9 :: rest => lit "\\u2029" ++ escapeHTML rest
  | c :: rest =>
    (if c == 0x22 || c == 0x5C then [0x5C, c]
     else if c == 0x08 then lit "\\b"
     else if c == 0x0C then lit "\\f"
     else if c == 0x0A then lit "\\n"
     else if c == 0x0D then lit "\\r"
     else if c == 0x09 then lit "\\t"
     else if c < 0x20 || c == 0x3C || c == 0x3E || c == 0x26 then unicodeEscape c
     else [c]) ++ escapeHTML rest
  | [] => []

mutual

def marshalJSON : Value → GoString
  | .object members => lit "\x7b" ++ marshalMembers true members ++ lit "\x7d"
  | .array elems => lit "[" ++ marshalElems true elems ++ lit "]"
  | .string s => Chefjson.quoted (escapeHTML s)
  | .number literal => literal
  | .bool true => lit "true"
  | .bool false => lit "false"
  | .null => lit "null"

def marshalMembers (first : Bool) : List (GoString × Value) → GoString
  | [] => []
  | (name, v) :: rest =>
    (if first then [] else lit ",") ++ Chefjson.quoted (escapeHTML name) ++ lit ":" ++ marshalJSON v ++
      marshalMembers false rest

def marshalElems (first : Bool) : List Value → GoString
  | [] => []
  | v :: rest => (if first then [] else lit ",") ++ marshalJSON v ++ marshalElems false rest

end

end CincServer.Json
