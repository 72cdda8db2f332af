import Mathlib.Data.List.Sort
import Std.Data.ExtTreeMap

/-!
# Go strings and string-keyed maps

A Go string is a sequence of bytes. A Go map is modelled by its bindings; a read of a nil map is a read
of the empty one.
-/

namespace CincServer.Go

abbrev GoString := List UInt8

instance : LawfulBEq GoString := inferInstance

def lit (s : String) : GoString := s.toList.map fun c => UInt8.ofNat c.toNat

abbrev GoMap (V : Type) := Std.ExtTreeMap GoString V

theorem mem_iff_exists {V : Type} {m : GoMap V} {key : GoString} :
    key ∈ m ↔ ∃ value, m[key]? = some value := by
  rw [Std.ExtTreeMap.mem_iff_isSome_getElem?, Option.isSome_iff_exists]

def byteLe (a b : GoString) : Prop := (compare a b).isLE

instance : DecidableRel byteLe := fun a b => inferInstanceAs (Decidable ((compare a b).isLE = true))

instance : Std.Total byteLe where
  total a b := by
    unfold byteLe
    rw [Std.OrientedOrd.eq_swap (a := b)]
    cases compare a b <;> simp

instance : IsTrans GoString byteLe where
  trans _ _ _ := Std.TransOrd.isLE_trans

theorem byteLe_antisymm {a b : GoString} (le : byteLe a b) (ge : byteLe b a) : a = b := by
  unfold byteLe at le ge
  rw [Std.OrientedOrd.eq_swap (a := b)] at ge
  apply Std.LawfulEqOrd.eq_of_compare
  revert le ge
  cases compare a b <;> simp

def sortStrings (strings : List GoString) : List GoString := strings.insertionSort byteLe

theorem perm_sortStrings (strings : List GoString) : (sortStrings strings).Perm strings :=
  List.perm_insertionSort byteLe strings

theorem sortStrings_eq_of_perm {xs ys : List GoString} (perm : xs.Perm ys) :
    sortStrings xs = sortStrings ys := by
  have left := List.pairwise_insertionSort byteLe xs
  have right := List.pairwise_insertionSort byteLe ys
  exact List.Perm.eq_of_pairwise (fun _ _ _ _ => byteLe_antisymm) left right
    ((perm_sortStrings xs).trans (perm.trans (perm_sortStrings ys).symm))

theorem sortStrings_eq_of_mem {xs ys : List GoString} (left : xs.Nodup) (right : ys.Nodup)
    (same : ∀ s, s ∈ xs ↔ s ∈ ys) : sortStrings xs = sortStrings ys :=
  sortStrings_eq_of_perm ((List.perm_ext_iff_of_nodup left right).mpr same)

theorem not_mem_of_mem_splitOn {sep : UInt8} {part key : GoString} (mem : part ∈ key.splitOn sep) :
    sep ∉ part := by
  induction key generalizing part with
  | nil => simp_all
  | cons b rest ih =>
    rw [List.splitOn_cons_eq_if_modifyHead] at mem
    obtain ⟨head, tail, split⟩ := List.exists_cons_of_ne_nil (List.splitOn_ne_nil sep rest)
    rw [split] at ih mem
    by_cases separator : b = sep
    · simp only [separator, beq_self_eq_true, if_true, List.mem_cons] at mem ih
      rcases mem with rfl | mem
      · simp
      · exact ih mem
    · simp only [beq_iff_eq, separator, if_false, List.modifyHead_cons, List.mem_cons] at mem
      rcases mem with rfl | mem
      · simp [Ne.symm separator, ih List.mem_cons_self]
      · exact ih (List.mem_cons_of_mem head mem)

/-!
## UTF-8, letter case and white space

`unicode.ToLower` is a table of the Unicode standard, so it is a parameter; the rest follows the
documentation of the packages `unicode/utf8` and `strings`.
-/

abbrev Rune := Nat

class Unicode where
  toLower : Rune → Rune

def runeError : Rune := 0xFFFD

def isContinuation (b : UInt8) : Bool := 0x80 ≤ b && b ≤ 0xBF

def secondAllowed (first second : UInt8) : Bool :=
  isContinuation second && (first != 0xE0 || 0xA0 ≤ second) && (first != 0xED || second ≤ 0x9F) &&
    (first != 0xF0 || 0x90 ≤ second) && (first != 0xF4 || second ≤ 0x8F)

/-- `utf8.DecodeRuneInString`: the first rune and its width, `(RuneError, 1)` on invalid UTF-8 and
`(RuneError, 0)` on the empty string. -/
def decodeRune : GoString → Rune × Nat
  | [] => (runeError, 0)
  | b0 :: rest =>
    if b0 < 0x80 then (b0.toNat, 1)
    else if 0xC2 ≤ b0 && b0 ≤ 0xDF then
      match rest with
      | b1 :: _ =>
        if isContinuation b1 then ((b0.toNat - 0xC0) * 64 + (b1.toNat - 0x80), 2)
        else (runeError, 1)
      | _ => (runeError, 1)
    else if 0xE0 ≤ b0 && b0 ≤ 0xEF then
      match rest with
      | b1 :: b2 :: _ =>
        if secondAllowed b0 b1 && isContinuation b2 then
          ((b0.toNat - 0xE0) * 4096 + (b1.toNat - 0x80) * 64 + (b2.toNat - 0x80), 3)
        else (runeError, 1)
      | _ => (runeError, 1)
    else if 0xF0 ≤ b0 && b0 ≤ 0xF4 then
      match rest with
      | b1 :: b2 :: b3 :: _ =>
        if secondAllowed b0 b1 && isContinuation b2 && isContinuation b3 then
          ((b0.toNat - 0xF0) * 262144 + (b1.toNat - 0x80) * 4096 + (b2.toNat - 0x80) * 64 + (b3.toNat - 0x80), 4)
        else (runeError, 1)
      | _ => (runeError, 1)
    else (runeError, 1)

def encodeRune (r : Rune) : GoString :=
  let byte (n : Nat) : UInt8 := UInt8.ofNat n
  let three (r : Rune) := [byte (0xE0 + r / 4096), byte (0x80 + r / 64 % 64), byte (0x80 + r % 64)]
  if r < 0x80 then [byte r]
  else if r < 0x800 then [byte (0xC0 + r / 64), byte (0x80 + r % 64)]
  else if r > 0x10FFFF || (0xD800 ≤ r && r ≤ 0xDFFF) then three runeError
  else if r < 0x10000 then three r
  else [byte (0xF0 + r / 262144), byte (0x80 + r / 4096 % 64), byte (0x80 + r / 64 % 64), byte (0x80 + r % 64)]

def segmentsFrom : Nat → GoString → List (Rune × GoString)
  | _, [] => []
  | skip + 1, _ :: rest => segmentsFrom skip rest
  | 0, b :: rest =>
    let (r, width) := decodeRune (b :: rest)
    (r, (b :: rest).take width) :: segmentsFrom (width - 1) rest

def segments (s : GoString) : List (Rune × GoString) := segmentsFrom 0 s

def runes (s : GoString) : List Rune := (segments s).map Prod.fst

def isASCII (s : GoString) : Bool := s.all (· < 0x80)

def lowerByte (b : UInt8) : UInt8 := if 0x41 ≤ b && b ≤ 0x5A then b + 0x20 else b

def toLower [Unicode] (s : GoString) : GoString :=
  if isASCII s then s.map lowerByte else (runes s).flatMap fun r => encodeRune (Unicode.toLower r)

def isSpace (r : Rune) : Bool :=
  (0x09 ≤ r && r ≤ 0x0D) || r == 0x20 || r == 0x85 || r == 0xA0 || r == 0x1680 ||
    (0x2000 ≤ r && r ≤ 0x200A) || r == 0x2028 || r == 0x2029 || r == 0x202F || r == 0x205F ||
    r == 0x3000

def trimSpace (s : GoString) : GoString :=
  let blank (segment : Rune × GoString) := isSpace segment.1
  ((((segments s).dropWhile blank).reverse.dropWhile blank).reverse).flatMap Prod.snd

def cut (sep : GoString) : GoString → Option (GoString × GoString)
  | [] => if sep.isEmpty then some ([], []) else none
  | b :: rest =>
    if sep.isPrefixOf (b :: rest) then some ([], (b :: rest).drop sep.length)
    else (cut sep rest).map fun (before, after) => (b :: before, after)

def indexByte (s : GoString) (b : UInt8) : Option Nat := s.findIdx? (· == b)

end CincServer.Go
