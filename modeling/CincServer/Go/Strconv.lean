import CincServer.Go.Strings
import Mathlib.Data.Rat.Defs
import Mathlib.Algebra.Order.Ring.Rat
import Mathlib.Data.Int.Log
import Mathlib.Data.Nat.Digits.Defs
import Mathlib.Data.Rat.Floor

/-!
# `strconv.ParseFloat`

A double is its exact value. Only comparisons look at one, so the two zeros are not told apart.
-/

namespace CincServer.Go

inductive Float64
  | nan
  | infinity (negative : Bool)
  | finite (value : Rat)
deriving DecidableEq

namespace Float64

def lt : Float64 → Float64 → Bool
  | .nan, _ => false
  | _, .nan => false
  | .infinity negative, .infinity negative' => negative && !negative'
  | .infinity negative, .finite _ => negative
  | .finite _, .infinity negative => !negative
  | .finite a, .finite b => decide (a < b)

def eq : Float64 → Float64 → Bool
  | .nan, _ => false
  | _, .nan => false
  | a, b => decide (a = b)

end Float64

def floorLog2 (n d : Nat) : Int :=
  let guess : Int := (Nat.log2 n : Int) - Nat.log2 d
  let below := if 0 ≤ guess then d * 2 ^ guess.toNat ≤ n else d ≤ n * 2 ^ (-guess).toNat
  if below then guess else guess - 1

def roundHalfEven (n d : Nat) : Nat :=
  let q := n / d
  let twice := 2 * (n % d)
  if twice < d then q else if d < twice then q + 1 else if q % 2 = 0 then q else q + 1

def nearestDouble (n d : Nat) : Option Rat :=
  if n = 0 then some 0
  else
    -- the exponent of the last place, bounded below by that of the subnormals
    let place := max (floorLog2 n d) (-1022) - 52
    let mantissa :=
      if 0 ≤ place then roundHalfEven n (d * 2 ^ place.toNat) else roundHalfEven (n * 2 ^ (-place).toNat) d
    let value : Rat := (mantissa : Rat) * (2 : Rat) ^ place
    if value < (2 : Rat) ^ (1024 : Int) then some value else none

def isDigit (b : UInt8) : Bool := 0x30 ≤ b && b ≤ 0x39

def asciiLower (b : UInt8) : UInt8 := b ||| 0x20

def hexDigit? (b : UInt8) : Option Nat :=
  if isDigit b then some (b.toNat - 0x30)
  else if 0x61 ≤ asciiLower b && asciiLower b ≤ 0x66 then some ((asciiLower b).toNat - 0x57)
  else none

def decDigit? (b : UInt8) : Option Nat := if isDigit b then some (b.toNat - 0x30) else none

structure Mantissa where
  value : Nat
  fraction : Nat
  sawDot : Bool
  sawDigits : Bool
  underscores : Bool

def readMantissa (base : Nat)
    (digit? : UInt8 → Option Nat) : Mantissa → GoString → Mantissa × GoString
  | m, [] => (m, [])
  | m, b :: rest =>
    if b == 0x5F then readMantissa base digit? { m with underscores := true } rest
    else if b == 0x2E then
      if m.sawDot then (m, b :: rest) else readMantissa base digit? { m with sawDot := true } rest
    else
      match digit? b with
      | some d =>
        readMantissa base digit? { m with
            value := m.value * base + d
            fraction := if m.sawDot then m.fraction + 1 else m.fraction
            sawDigits := true } rest
      | none => (m, b :: rest)

def readExponent : Nat → Bool → GoString → Nat × Bool × GoString
  | e, underscores, [] => (e, underscores, [])
  | e, underscores, b :: rest =>
    if b == 0x5F then readExponent e true rest
    else
      match decDigit? b with
      | some d => readExponent (if e < 10000 then e * 10 + d else e) underscores rest
      | none => (e, underscores, b :: rest)

def underscoresSeparate (hex : Bool) : (afterDigit afterUnderscore : Bool) → GoString → Bool
  | _, afterUnderscore, [] => !afterUnderscore
  | afterDigit, afterUnderscore, b :: rest =>
    if isDigit b || (hex && (hexDigit? b).isSome) then underscoresSeparate hex true false rest
    else if b == 0x5F then afterDigit && underscoresSeparate hex false true rest
    else !afterUnderscore && underscoresSeparate hex false false rest

def splitSign : GoString → Bool × GoString
  | 0x2B :: rest => (false, rest)
  | 0x2D :: rest => (true, rest)
  | s => (false, s)

def special (s : GoString) : Option Float64 :=
  let (negative, rest) := splitSign s
  let lowered := rest.map asciiLower
  if lowered = lit "inf" || lowered = lit "infinity" then some (.infinity negative)
  else if s.map asciiLower = lit "nan" then some .nan
  else none

def readFloat (s : GoString) : Option (Bool × Nat × Nat) :=
  let (negative, unsigned) := splitSign s
  let (hex, body) := match unsigned with
    | 0x30 :: x :: b :: rest => if asciiLower x == 0x78 then (true, b :: rest) else (false, unsigned)
    | _ => (false, unsigned)
  let (m, rest) := readMantissa (if hex then 16 else 10) (if hex then hexDigit? else decDigit?)
    ⟨0, 0, false, false, false⟩ body
  if !m.sawDigits then none
  else
    let exponent : Option (Int × Bool × GoString) := match rest with
      | [] => if hex then none else some (0, false, [])
      | b :: rest' =>
        if asciiLower b == (if hex then 0x70 else 0x65) then
          let (down, digits) := splitSign rest'
          match digits with
          | d :: _ =>
            if isDigit d then
              let (e, underscores, after) := readExponent 0 false digits
              some (if down then -(e : Int) else e, underscores, after)
            else none
          | [] => none
        else if hex then none
        else some (0, false, b :: rest')
    match exponent with
    | some (e, underscores, []) =>
      if (m.underscores || underscores) && !underscoresSeparate hex hex false body then none
      else
        let place : Int := if hex then e - 4 * m.fraction else e - m.fraction
        let radix := if hex then 2 else 10
        if 0 ≤ place then some (negative, m.value * radix ^ place.toNat, 1)
        else some (negative, m.value, radix ^ (-place).toNat)
    | _ => none

def parseFloat (s : GoString) : Option Float64 :=
  match special s with
  | some value => some value
  | none =>
    match readFloat s with
    | none => none
    | some (negative, n, d) =>
      (nearestDouble n d).map fun value => .finite (if negative then -value else value)

def readDigits : Nat → GoString → Option Nat
  | n, [] => some n
  | n, b :: rest => (decDigit? b).bind fun d => readDigits (n * 10 + d) rest

def parseInt (s : GoString) : Option Int :=
  let (negative, digits) := splitSign s
  if digits.isEmpty then none
  else
    (readDigits 0 digits).bind fun n =>
      if negative then (if n ≤ 2 ^ 63 then some (-(n : Int)) else none)
      else if n < 2 ^ 63 then some n
      else none

/-!
## `strconv.AppendFloat` and `strconv.AppendInt`

The shortest form of a double has the smallest number of digits that `ParseFloat` reads back as the
double, and of the decimals with that many digits it is the nearest.
-/

def parseDecimal (c : Nat) (p : Int) : Option Rat :=
  if 0 ≤ p then nearestDouble (c * 10 ^ p.toNat) 1 else nearestDouble c (10 ^ (-p).toNat)

def nearestDecimal (f : Rat) (more : Nat) : Option (Nat × Int) :=
  let p := Int.log 10 f - more
  let scaled := f / (10 : Rat) ^ p
  let down := ⌊scaled⌋₊
  let readsDown := parseDecimal down p == some f
  let readsUp := parseDecimal (down + 1) p == some f
  if readsDown && readsUp then some (roundHalfEven scaled.num.toNat scaled.den, p)
  else if readsDown then some (down, p)
  else if readsUp then some (down + 1, p)
  else none

def exactDecimal (f : Rat) : Nat × Int :=
  (f.num.toNat * 5 ^ Nat.log2 f.den, -(Nat.log2 f.den : Int))

def shortest (f : Rat) : Nat × Int :=
  ((List.range 17).findSome? (nearestDecimal f)).getD (exactDecimal f)

def digitByte (d : Nat) : UInt8 := UInt8.ofNat (0x30 + d)

def formatNat (n : Nat) : GoString :=
  if n = 0 then [0x30] else ((Nat.digits 10 n).reverse).map digitByte

def formatInt (i : Int) : GoString := if i < 0 then 0x2D :: formatNat i.natAbs else formatNat i.natAbs

def formatE (f : Rat) : GoString × Int :=
  let digits := formatNat (shortest f).1
  ((digits.reverse.dropWhile (· == 0x30)).reverse, (shortest f).2 + digits.length - 1)

end CincServer.Go
