import CincServer.Go.Strconv

/-!
# JSON documents and encoding/json
-/

namespace CincServer.Json
open Go

inductive Value
  | null
  | bool (b : Bool)
  | number (literal : GoString)
  | string (s : GoString)
  | array (elems : List Value)
  | object (members : List (GoString × Value))

abbrev Members := List (GoString × Value)

inductive Raw
  | document (doc : Value)
  | malformed (bytes : GoString)

def get (members : Members) (name : GoString) : Option Value := members.lookup name

mutual

def firstMembers : Value → Value
  | .object members => .object (firstOf [] members)
  | .array elems => .array (firstElems elems)
  | v => v

def firstElems : List Value → List Value
  | [] => []
  | v :: rest => firstMembers v :: firstElems rest

def firstOf (seen : List GoString) : List (GoString × Value) → List (GoString × Value)
  | [] => []
  | (name, v) :: rest =>
    if name ∈ seen then firstOf seen rest
    else (name, firstMembers v) :: firstOf (name :: seen) rest

end

def decodeObject : Raw → Option Members
  | .document (.object members) => some (firstOf [] members)
  | _ => none

/-!
## encoding/json

Decoding into `map[string]any` keeps the last member of a name; decoding into a struct takes a
member for a field when the names are equal up to case, each later one over the earlier. A number
keeps its literal: nothing here reads its digits, but one outside float64 fails the decoding into
`any`.
-/

abbrev Object := GoMap Value

mutual

def inRange : Value → Bool
  | .number literal => (parseFloat literal).isSome
  | .array elems => allInRange elems
  | .object members => membersInRange members
  | _ => true

def allInRange : List Value → Bool
  | [] => true
  | v :: rest => inRange v && allInRange rest

def membersInRange : List (GoString × Value) → Bool
  | [] => true
  | (_, v) :: rest => inRange v && membersInRange rest

end

mutual

/-- A value decoded into `any`, in the form it is encoded again: the last member of each name, in
byte order of the names. -/
def canonical : Value → Value
  | .array elems => .array (canonicalElems elems)
  | .object members => .object (canonicalMembers ∅ members).toList
  | v => v

def canonicalElems : List Value → List Value
  | [] => []
  | v :: rest => canonical v :: canonicalElems rest

def canonicalMembers (read : Object) : List (GoString × Value) → Object
  | [] => read
  | (name, v) :: rest => canonicalMembers (read.insert name (canonical v)) rest

end

def unmarshalMap : Raw → Option (Option Object)
  | .document (.object members) =>
    if membersInRange members then some (some (canonicalMembers ∅ members)) else none
  | .document .null => some none
  | _ => none

def mustEncode : Option Object → Raw
  | some obj => .document (.object obj.toList)
  | none => .document .null

def field (obj : Object) (name : GoString) : Value := obj.getD name .null

def contents (obj : Option Object) : Object := obj.getD ∅

def deleteField (name : GoString) (obj : Option Object) : Option Object := obj.map (·.erase name)

def isTrue : Value → Bool
  | .bool b => b
  | _ => false

def str : Value → GoString
  | .string s => s
  | _ => []

def asMap : Value → Option Object
  | .object members => some (canonicalMembers ∅ members)
  | _ => none

/-- The name under which `encoding/json` looks a member's field up when no field has its exact
name: the letters of ASCII in lower case, with the two other runes whose case folds to one, U+017F
and U+212A. -/
def foldName : GoString → GoString
  | 0xC5 :: 0xBF :: rest => 0x73 :: foldName rest
  | 0xE2 :: 0x84 :: 0xAA :: rest => 0x6B :: foldName rest
  | b :: rest => lowerByte b :: foldName rest
  | [] => []

structure StructField (S : Type) where
  name : GoString
  store : Value → S → Option S

variable {S : Type}

def StructField.string (name : GoString) (set : GoString → S → S) : StructField S where
  name := name
  store
    | .string s, target => some (set s target)
    | .null, target => some target
    | _, _ => none

def StructField.bool (name : GoString) (set : Bool → S → S) : StructField S where
  name := name
  store
    | .bool b, target => some (set b target)
    | .null, target => some target
    | _, _ => none

structure Slice where
  elems : List GoString
  spare : List GoString

def Slice.empty : Slice := ⟨[], []⟩

def stringElems : (behind : List GoString) → List Value → Option (List GoString)
  | _, [] => some []
  | behind, .string s :: rest => (stringElems behind.tail rest).map (s :: ·)
  | behind, .null :: rest => (stringElems behind.tail rest).map (behind.headD [] :: ·)
  | _, _ :: _ => none

def Slice.decode (old : Slice) : List Value → Option Slice
  | [] => some .empty
  | elems => (stringElems (old.elems ++ old.spare) elems).map fun new =>
    ⟨new, (old.elems ++ old.spare).drop new.length⟩

def StructField.strings (name : GoString) (get : S → Slice)
    (set : Slice → S → S) : StructField S where
  name := name
  store
    | .array elems, target => ((get target).decode elems).map (set · target)
    | .null, target => some (set .empty target)
    | _, _ => none

def storeMember (fields : List (StructField S)) (target : S)
    (member : GoString × Value) : Option S :=
  match fields.find? fun f => foldName member.1 = f.name with
  | some f => f.store member.2 target
  | none => some target

def storeMembers (fields : List (StructField S)) : Members → S → Option S
  | [], target => some target
  | member :: rest, target => (storeMember fields target member).bind (storeMembers fields rest)

def StructField.struct {T : Type} (name : GoString) (fields : List (StructField T)) (get : S → T)
    (set : T → S → S) : StructField S where
  name := name
  store
    | .object members, target => (storeMembers fields members (get target)).map (set · target)
    | .null, target => some target
    | _, _ => none

def unmarshalStruct (fields : List (StructField S)) (zero : S) : Raw → Option S
  | .document (.object members) => storeMembers fields members zero
  | .document .null => some zero
  | _ => none

def unmarshalAnyway (fields : List (StructField S)) (zero : S) : Raw → S
  | .document (.object members) => members.foldl (fun target member => (storeMember fields target member).getD target) zero
  | _ => zero

end CincServer.Json
