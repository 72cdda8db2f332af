import CincServer.Json.Chefjson
import CincServer.Proof.Decimal
import CincServer.Proof.Runes
import Mathlib.Tactic.IntervalCases

/-!
# Number literals
-/

namespace CincServer.Proof.Json
open CincServer.Json CincServer.Json.Jsontext CincServer.Json.Chefjson Proof.Decimal
  CincServer.Proof.Rounding Go
open Option (map_some bind_eq_bind bind_some pure_def getD_none getD_some map_map map_eq_some_iff)
open List (cons_append nil_append append_assoc drop_left take_append_drop mem_cons)

variable {s literal : GoString} {f : ℚ}

structure IsNumber (sign integer fraction exponent : GoString) : Prop where
  sign : sign = [] ∨ sign = [0x2D]
  integer : integer = [0x30] ∨ Leading integer
  fraction : fraction = [] ∨ ∃ digits, digits ≠ [] ∧ Digits digits ∧ fraction = 0x2E :: digits
  exponent : exponent = [] ∨ ∃ e signs digits, (e = 0x65 ∨ e = 0x45) ∧ (signs = [] ∨ signs = [0x2B] ∨ signs = [0x2D]) ∧
    digits ≠ [] ∧ Digits digits ∧ exponent = e :: (signs ++ digits)

def Ends (rest : GoString) : Prop := ∀ b ∈ rest.head?, ¬ isDigit b ∧ b ≠ 0x2E ∧ b ≠ 0x65 ∧ b ≠ 0x45

theorem takeWhile_digits {digits rest : GoString} (all : Digits digits)
    (stops : ∀ b ∈ rest.head?, ¬ isDigit b) :
    (digits ++ rest).takeWhile isDigit = digits := by
  rw [List.takeWhile_append_of_pos all]
  cases rest with
  | nil => simp
  | cons b rest => simp [stops b (by simp)]

theorem someDigits_append {digits rest : GoString} (more : digits ≠ []) (all : Digits digits)
    (stops : ∀ b ∈ rest.head?, ¬ isDigit b) : someDigits (digits ++ rest) = some digits := by
  rw [someDigits, takeWhile_digits all stops, if_neg (by simpa using more)]

theorem someDigits_sound {digits : GoString} (reads : someDigits s = some digits) :
    digits ≠ [] ∧ Digits digits := by
  unfold someDigits at reads
  split_ifs at reads with none
  obtain rfl := Option.some.inj reads
  exact ⟨by simpa using none, List.all_eq_true.mp List.all_takeWhile⟩

variable {sign integer fraction exponent rest : GoString}

theorem IsNumber.exponent_stops (number : IsNumber sign integer fraction exponent)
    (ends : Ends rest) :
    ∀ b ∈ (exponent ++ rest).head?, ¬ isDigit b ∧ b ≠ 0x2E := by
  rcases number.exponent with rfl | ⟨e, signs, digits, letter, -, -, -, rfl⟩
  · intro b head
    exact ⟨(ends b head).1, (ends b head).2.1⟩
  · rcases letter with rfl | rfl <;> simp <;> decide

theorem IsNumber.fraction_stops (number : IsNumber sign integer fraction exponent)
    (ends : Ends rest) :
    ∀ b ∈ (fraction ++ (exponent ++ rest)).head?, ¬ isDigit b := by
  rcases number.fraction with rfl | ⟨digits, -, -, rfl⟩
  · exact fun b head => (number.exponent_stops ends b head).1
  · simp
    decide

theorem signPart_digit {signs : GoString} (noDigit : signs.any isDigit = false) {b : UInt8}
    (digit : isDigit b)
    (text : GoString) : signPart signs (b :: text) = [] := by
  have other : b ∉ signs := fun mem => List.any_eq_false.mp noDigit b mem digit
  simp [signPart, other]

theorem signPart_cases (signs s : GoString) :
    signPart signs s = [] ∨ ∃ b ∈ signs, signPart signs s = [b] := by
  cases s with
  | nil => exact .inl rfl
  | cons b rest =>
    by_cases mem : b ∈ signs
    · exact .inr ⟨b, mem, by simp [signPart, mem]⟩
    · exact .inl (by simp [signPart, mem])

theorem signPart_append (number : IsNumber sign integer fraction exponent) (text : GoString) :
    signPart (lit "-") (sign ++ (integer ++ text)) = sign := by
  rcases number.sign with rfl | rfl
  · rcases number.integer with rfl | ⟨all, b, more, rfl, -⟩
    · rfl
    · exact signPart_digit (by decide) (all b (by simp)) _
  · rfl

theorem integerPart_append (number : IsNumber sign integer fraction exponent) (ends : Ends rest) :
    integerPart (integer ++ (fraction ++ (exponent ++ rest))) = some integer := by
  rcases number.integer with rfl | ⟨all, b, more, rfl, notZero⟩
  · rfl
  · rw [cons_append, integerPart.eq_2]
    · exact someDigits_append (by simp) all (number.fraction_stops ends)
    · rintro _ same
      exact notZero (List.cons.inj same).1

theorem fractionPart_append (number : IsNumber sign integer fraction exponent) (ends : Ends rest) :
    fractionPart (fraction ++ (exponent ++ rest)) = some fraction := by
  rcases number.fraction with rfl | ⟨digits, more, all, rfl⟩
  · rw [nil_append]
    have stops := number.exponent_stops ends
    cases follow : exponent ++ rest with
    | nil => rfl
    | cons b after =>
      rw [follow] at stops
      rw [fractionPart.eq_2]
      rintro _ same
      exact (stops b rfl).2 (List.cons.inj same).1
  · rw [cons_append, fractionPart,
      someDigits_append more all fun b head => (number.exponent_stops ends b head).1]
    rfl

theorem exponentPart_append (number : IsNumber sign integer fraction exponent) (ends : Ends rest) :
    exponentPart (exponent ++ rest) = some exponent := by
  rcases number.exponent with rfl | ⟨e, signs, digits, letter, sign, more, all, rfl⟩
  · rw [nil_append]
    cases rest with
    | nil => rfl
    | cons b after =>
      obtain ⟨-, -, notLower, notUpper⟩ := ends b rfl
      simp [exponentPart, notLower, notUpper]
  · have letter' : (e == 0x65 || e == 0x45) = true := by simpa using letter
    have signs' : signPart (lit "+-") (signs ++ (digits ++ rest)) = signs := by
      rcases sign with rfl | rfl | rfl
      · obtain ⟨b, others, rfl⟩ := List.exists_cons_of_ne_nil more
        exact signPart_digit (by decide) (all b (by simp)) _
      · rfl
      · rfl
    have read := someDigits_append more all fun b head => (ends b head).1
    simp only [cons_append, append_assoc, exponentPart, letter', if_true, signs', drop_left, read,
      map_some]

theorem readNumber_append (number : IsNumber sign integer fraction exponent) (ends : Ends rest) :
    readNumber (sign ++ integer ++ fraction ++ exponent ++ rest) =
      some (sign ++ integer ++ fraction ++ exponent) := by
  have afterSign : (sign ++ (integer ++ (fraction ++ (exponent ++ rest)))).drop sign.length =
      integer ++ (fraction ++ (exponent ++ rest)) := drop_left
  have afterInteger : (sign ++ (integer ++ (fraction ++ (exponent ++ rest)))).drop (sign ++ integer).length =
      fraction ++ (exponent ++ rest) := by
    rw [← append_assoc, drop_left]
  have afterFraction :
      (sign ++ (integer ++ (fraction ++ (exponent ++ rest)))).drop (sign ++ (integer ++ fraction)).length =
        exponent ++ rest := by
    rw [← append_assoc integer, ← append_assoc sign (integer ++ fraction), drop_left]
  simp only [readNumber, append_assoc, signPart_append number, afterSign,
    integerPart_append number ends, bind_eq_bind, bind_some, afterInteger,
    fractionPart_append number ends, afterFraction, exponentPart_append number ends]
  rfl

theorem readNumber_sound (reads : readNumber s = some literal) :
    ∃ sign integer fraction exponent, IsNumber sign integer fraction exponent ∧
      literal = sign ++ integer ++ fraction ++ exponent := by
  simp only [readNumber, bind_eq_bind, Option.bind_eq_some_iff, pure_def,
    Option.some.injEq] at reads
  obtain ⟨integer, readInteger, fraction, readFraction, exponent, readExponent, rfl⟩ := reads
  refine ⟨_, integer, fraction, exponent, ⟨?_, ?_, ?_, ?_⟩, rfl⟩
  · rcases signPart_cases (lit "-") s with none | ⟨b, mem, one⟩
    · exact .inl none
    · have minus : lit "-" = [0x2D] := by decide
      rw [minus, List.mem_singleton] at mem
      exact .inr (mem ▸ one)
  · unfold integerPart at readInteger
    split at readInteger
    · exact .inl (Option.some.inj readInteger).symm
    · next other =>
      obtain ⟨more, all⟩ := someDigits_sound readInteger
      refine .inr ⟨all, ?_⟩
      cases text : s.drop (signPart (lit "-") s).length with
      | nil => simp [text, someDigits] at readInteger
      | cons b rest =>
        have notZero : b ≠ 0x30 := fun same => other rest (same ▸ text)
        simp only [text, someDigits] at readInteger
        split_ifs at readInteger with none
        by_cases digit : isDigit b
        · rw [List.takeWhile_cons_of_pos digit] at readInteger
          exact ⟨b, _, (Option.some.inj readInteger).symm, notZero⟩
        · simp [digit] at none
  · unfold fractionPart at readFraction
    split at readFraction
    · obtain ⟨digits, read, rfl⟩ := Option.map_eq_some_iff.mp readFraction
      obtain ⟨more, all⟩ := someDigits_sound read
      exact .inr ⟨digits, more, all, rfl⟩
    · exact .inl (Option.some.inj readFraction).symm
  · unfold exponentPart at readExponent
    split at readExponent
    · next e after _ =>
      split_ifs at readExponent with letter
      · obtain ⟨digits, read, rfl⟩ := Option.map_eq_some_iff.mp readExponent
        obtain ⟨more, all⟩ := someDigits_sound read
        refine .inr ⟨e, _, digits, by simpa using letter, ?_, more, all, rfl⟩
        rcases signPart_cases (lit "+-") after with none | ⟨b, mem, one⟩
        · exact .inl none
        · have signs : lit "+-" = [0x2B, 0x2D] := by decide
          rw [signs, List.mem_pair] at mem
          rcases mem with rfl | rfl
          · exact .inr (.inl one)
          · exact .inr (.inr one)
      · exact .inl (Option.some.inj readExponent).symm
    · exact .inl (Option.some.inj readExponent).symm

structure Lays (digits : GoString) (n : ℤ) (integer fraction : GoString) (e : Option ℤ) : Prop where
  text : layout digits n = integer ++ (pointed fraction ++ exponentText e)
  whole : integer = [0x30] ∨ Leading integer
  places : Digits fraction
  double : fraction ≠ [] ∨ e.isSome
  exponent : ∀ v ∈ e, v = n - 1
  plain : e = none ↔ -6 < n ∧ n ≤ 21
  value : (valueOf (integer ++ fraction) : ℚ) * (10 : ℚ) ^ (e.getD 0 - fraction.length) =
    (valueOf digits : ℚ) * (10 : ℚ) ^ (n - digits.length)

theorem lays_layout {digits : GoString} (leading : Leading digits) (n : ℤ) :
    ∃ integer fraction e, Lays digits n integer fraction e := by
  have all : Digits digits := leading.1
  obtain ⟨b, rest, split, notZero⟩ := leading.2
  have nonempty : 1 ≤ digits.length := by simp [split]
  have places (m : ℕ) : Digits (digits.drop m) := fun b mem => all b (List.mem_of_mem_drop mem)
  by_cases large : (digits.length : ℤ) ≤ n ∧ n ≤ 21
  · refine ⟨digits ++ List.replicate (n - digits.length).toNat 0x30, [0x30], none, ?_, ?_, ?_,
      by simp, by simp, by simp; omega, ?_⟩
    · rw [layout, if_pos large]
      rfl
    · exact .inr ⟨digits_append.mpr ⟨all, digits_replicate_zero _⟩, b, _, by rw [split]; rfl, notZero⟩
    · exact digits_replicate_zero 1
    · have zeros : (10 : ℚ) ^ (n - digits.length) = (10 : ℚ) ^ (n - digits.length).toNat :=
        zpow_toNat (by omega)
      rw [valueOf_append, valueOf_append, valueOf_replicate_zero, zeros]
      simp [valueOf]
  · by_cases inside : 0 < n ∧ n ≤ 21
    · have more : digits.drop n.toNat ≠ [] := by
        rw [Ne, List.drop_eq_nil_iff]
        omega
      refine ⟨digits.take n.toNat, digits.drop n.toNat, none, ?_, .inr (leading.take (by omega)),
        places _, .inl more,
        by simp, by simp; omega, ?_⟩
      · rw [layout, if_neg large, if_pos inside, pointed, if_neg more, exponentText,
          List.append_nil, append_assoc]
        rfl
      · rw [take_append_drop, List.length_drop]
        congr 2
        simp only [getD_none]
        omega
    · by_cases small : -6 < n ∧ n ≤ 0
      · have more : List.replicate (-n).toNat 0x30 ++ digits ≠ [] := by simp [split]
        refine ⟨[0x30], List.replicate (-n).toNat 0x30 ++ digits, none, ?_, .inl rfl,
          digits_append.mpr ⟨digits_replicate_zero _, all⟩, .inl more, by simp, by simp; omega, ?_⟩
        · rw [layout, if_neg large, if_neg inside, if_pos small, pointed, if_neg more, exponentText,
            List.append_nil, append_assoc]
          rfl
        · rw [valueOf_append, valueOf_append, valueOf_replicate_zero, List.length_append,
            List.length_replicate]
          have exponent : ((none : Option ℤ).getD 0 - ((-n).toNat + digits.length : ℕ) : ℤ) = n - digits.length := by
            simp only [getD_none]
            omega
          rw [exponent]
          simp [valueOf]
      · refine ⟨digits.take 1, digits.drop 1, some (n - 1), ?_, .inr (leading.take (by simp)),
          places 1, by simp,
          by simp, by simp; omega, ?_⟩
        · have point : (if (digits.length : ℤ) > 1 then lit "." ++ digits.drop 1 else []) = pointed (digits.drop 1) := by
            rw [split, pointed]
            cases rest with
            | nil => simp
            | cons c rest => simp [lit]
          simp only [layout, if_neg large, if_neg inside, if_neg small, point, exponentText,
            append_assoc]
        · rw [take_append_drop, List.length_drop]
          congr 2
          simp only [getD_some, split, List.length_cons]
          omega

def Numeral (literal : GoString) : Prop :=
  ∃ sign integer fraction exponent, IsNumber sign integer fraction exponent ∧
    literal = sign ++ integer ++ fraction ++ exponent

def signText (negative : Bool) : GoString := if negative then [0x2D] else []

variable {digits integer fraction : GoString} {n : ℤ} {e : Option ℤ}

section

variable (lays : Lays digits n integer fraction e) (negative : Bool)
include lays

theorem Lays.isNumber :
    IsNumber (signText negative) integer (pointed fraction) (exponentText e) := by
  refine ⟨?_, lays.whole, ?_, ?_⟩
  · cases negative <;> simp [signText]
  · unfold pointed
    split_ifs with none
    · exact .inl rfl
    · exact .inr ⟨fraction, none, lays.places, rfl⟩
  · cases e with
    | none => exact .inl rfl
    | some e =>
      right
      rcases lt_trichotomy e 0 with below | rfl | above
      · refine ⟨0x65, [0x2D], formatNat e.natAbs, .inl rfl,
          by simp, formatNat_ne_nil _, digits_formatNat _, ?_⟩
        simp [exponentText, formatInt, below, not_lt_of_gt below]
        rfl
      · exact ⟨0x65, [], [0x30], .inl rfl, by simp, by simp, digits_replicate_zero 1, rfl⟩
      · refine ⟨0x65, [0x2B], formatNat e.natAbs, .inl rfl,
          by simp, formatNat_ne_nil _, digits_formatNat _, ?_⟩
        simp [exponentText, formatInt, above, not_lt_of_gt above]
        rfl

theorem Lays.numeral :
    Numeral (signText negative ++ layout digits n) :=
  ⟨_, _, _, _, lays.isNumber negative, by simp only [lays.text, append_assoc]⟩

theorem Lays.marked :
    ∃ b ∈ signText negative ++ layout digits n, b = 0x2E ∨ b = 0x65 := by
  rw [lays.text]
  rcases lays.double with more | some
  · exact ⟨0x2E, by simp [pointed, more], .inl rfl⟩
  · obtain ⟨e, rfl⟩ := Option.isSome_iff_exists.mp some
    have letter : lit "e" = [0x65] := by decide
    exact ⟨0x65, by simp [exponentText, letter], .inr rfl⟩

theorem Lays.isDouble :
    containsAny (signText negative ++ layout digits n) (lit ".eE") = true := by
  obtain ⟨b, mem, mark⟩ := lays.marked negative
  refine List.any_eq_true.mpr ⟨b, mem, ?_⟩
  rcases mark with rfl | rfl <;> decide

end

theorem leading_bounds (leading : Leading digits) (n : ℤ) :
    (10 : ℚ) ^ (n - 1) ≤ valueOf digits * (10 : ℚ) ^ (n - digits.length) ∧
      valueOf digits * (10 : ℚ) ^ (n - digits.length) < (10 : ℚ) ^ n := by
  obtain ⟨b, rest, split, -⟩ := leading.2
  have nonempty : 1 ≤ digits.length := by simp [split]
  have low : (10 : ℚ) ^ (digits.length - 1) ≤ valueOf digits := by exact_mod_cast leading.le_valueOf
  have high : (valueOf digits : ℚ) < (10 : ℚ) ^ digits.length := by exact_mod_cast valueOf_lt leading.1
  have scale : (0 : ℚ) < (10 : ℚ) ^ (n - digits.length) := by positivity
  constructor
  · calc (10 : ℚ) ^ (n - 1) = (10 : ℚ) ^ (digits.length - 1) * (10 : ℚ) ^ (n - digits.length) := by
          rw [← zpow_natCast, ← zpow_add₀ (by norm_num)]
          congr 1
          omega
      _ ≤ _ := mul_le_mul_of_nonneg_right low scale.le
  · calc valueOf digits * (10 : ℚ) ^ (n - digits.length)
        < (10 : ℚ) ^ digits.length * (10 : ℚ) ^ (n - digits.length) := mul_lt_mul_of_pos_right high scale
      _ = (10 : ℚ) ^ n := by
          rw [← zpow_natCast, ← zpow_add₀ (by norm_num)]
          congr 1
          omega

theorem plain_iff (leading : Leading digits) (n : ℤ) :
    -6 < n ∧ n ≤ 21 ↔ (10 : ℚ) ^ (-6 : ℤ) ≤ valueOf digits * (10 : ℚ) ^ (n - digits.length) ∧
      valueOf digits * (10 : ℚ) ^ (n - digits.length) < (10 : ℚ) ^ (21 : ℤ) := by
  obtain ⟨low, high⟩ := leading_bounds leading n
  have grows {a b : ℤ} : (10 : ℚ) ^ a < (10 : ℚ) ^ b ↔ a < b :=
    zpow_lt_zpow_iff_right₀ (by norm_num)
  constructor
  · rintro ⟨above, below⟩
    exact ⟨(zpow_le_zpow_right₀ (by norm_num) (by omega)).trans low,
      high.trans_le (zpow_le_zpow_right₀ (by norm_num) below)⟩
  · rintro ⟨above, below⟩
    have lower := grows.mp (above.trans_lt high)
    have upper := grows.mp (low.trans_lt below)
    omega

/-- The text of digits and an exponent is a JSON number of just their value, in plain notation exactly
from 10^-6 on and below 10^21, and a double to `appendNumber`. -/
theorem layout_exact (leading : Leading digits) (exp : ℤ) (negative : Bool) :
    ∃ integer fraction e, IsNumber (signText negative) integer (pointed fraction) (exponentText e) ∧
      layout digits (exp + 1) = integer ++ (pointed fraction ++ exponentText e) ∧
      (valueOf (integer ++ fraction) : ℚ) * (10 : ℚ) ^ (e.getD 0 - fraction.length) =
        valueOf digits * (10 : ℚ) ^ (exp + 1 - digits.length) ∧
      (e = none ↔ (10 : ℚ) ^ (-6 : ℤ) ≤ valueOf digits * (10 : ℚ) ^ (exp + 1 - digits.length) ∧
        valueOf digits * (10 : ℚ) ^ (exp + 1 - digits.length) < (10 : ℚ) ^ (21 : ℤ)) ∧
      (∃ b ∈ layout digits (exp + 1), b = 0x2E ∨ b = 0x65) ∧
      appendNumber (signText negative ++ layout digits (exp + 1)) =
        match parseFloat (signText negative ++ layout digits (exp + 1)) with
        | some (.finite f) => some (appendFloat f)
        | _ => none := by
  obtain ⟨integer, fraction, e, lays⟩ := lays_layout leading (exp + 1)
  refine ⟨integer, fraction, e, lays.isNumber negative, lays.text, lays.value,
    lays.plain.trans (plain_iff leading _), lays.marked false, ?_⟩
  rw [appendNumber, lays.isDouble negative]
  rfl

theorem layout_exact_fifteen : ∃ integer fraction e,
    layout (lit "15") 1 = integer ++ (pointed fraction ++ exponentText e) ∧
      layout (lit "15") 1 = lit "1.5" ∧
      (valueOf (integer ++ fraction) : ℚ) * (10 : ℚ) ^ (e.getD 0 - fraction.length) = 3 / 2 := by
  have leading : Leading (lit "15") := ⟨digits_formatNat 15, 0x31, [0x35], by decide, by decide⟩
  obtain ⟨integer, fraction, e, -, text, value, -⟩ := layout_exact leading 0 false
  refine ⟨integer, fraction, e, text, by decide, value.trans ?_⟩
  have fifteen : valueOf (lit "15") = 15 := by decide
  have two : (lit "15").length = 2 := by decide
  rw [fifteen, two]
  norm_num

theorem Lays.reads (lays : Lays digits n integer fraction e) (negative : Bool)
    (small : (n - 1).natAbs < 100000) :
    parseFloat (signText negative ++ layout digits n) =
      (rounded ((valueOf digits : ℚ) * (10 : ℚ) ^ (n - digits.length))).map fun v =>
        .finite (if negative then -v else v) := by
  have whole : Digits integer ∧ integer ≠ [] := by
    rcases lays.whole with rfl | ⟨all, b, rest, rfl, -⟩
    · exact ⟨digits_replicate_zero 1, by simp⟩
    · exact ⟨all, by simp⟩
  rw [lays.text, ← lays.value, signText]
  exact parseFloat_literal negative whole.1 whole.2 lays.places fun v mem =>
    lays.exponent v mem ▸ small

structure Normal (v : ℚ) : Prop where
  double : ∃ x, 0 < x ∧ rounded x = some v
  least : (2 : ℚ) ^ (-1022 : ℤ) ≤ v

variable {v : ℚ}

theorem Normal.positive (normal : Normal v) : 0 < v := lt_of_lt_of_le (by positivity) normal.least

theorem Normal.shortest (normal : Normal v) :
    rounded (((shortest v).1 : ℚ) * (10 : ℚ) ^ (shortest v).2) = some v := by
  obtain ⟨x, positive, rounds⟩ := normal.double
  rw [← parseDecimal_eq]
  exact parseDecimal_shortest rounds positive normal.least

theorem Normal.formatted (normal : Normal v) : Leading (formatE v).1 ∧
      rounded ((valueOf (formatE v).1 : ℚ) * (10 : ℚ) ^ ((formatE v).2 + 1 - (formatE v).1.length)) = some v := by
  have notZero : (Go.shortest v).1 ≠ 0 := by
    intro zero
    have none := normal.shortest
    rw [zero, Nat.cast_zero, zero_mul, rounded, if_pos rfl] at none
    exact normal.positive.ne (Option.some.inj none)
  obtain ⟨leading, value⟩ := formatE_spec notZero
  exact ⟨leading, value ▸ normal.shortest⟩

theorem Normal.exponent_small (normal : Normal v) : ((formatE v).2 + 1 - 1).natAbs < 100000 := by
  obtain ⟨leading, rounds⟩ := normal.formatted
  obtain ⟨low, high⟩ := rounded_bounds (by positivity) rounds normal.positive
  set exp := (formatE v).2
  set x := (valueOf (formatE v).1 : ℚ) * (10 : ℚ) ^ (exp + 1 - (formatE v).1.length)
  have finite : v < (2 : ℚ) ^ (1024 : ℤ) := by
    obtain ⟨y, positive, rounds⟩ := normal.double
    exact ((rounded_eq_some positive.ne').mp rounds).2
  obtain ⟨above, below⟩ := leading_bounds leading (exp + 1)
  rw [add_sub_cancel_right] at above
  have upper : (10 : ℚ) ^ exp < (10 : ℚ) ^ (1025 : ℤ) := by
    calc (10 : ℚ) ^ exp ≤ 2 * v := above.trans high
      _ < 2 * (2 : ℚ) ^ (1024 : ℤ) := by linarith
      _ = (2 : ℚ) ^ (1025 : ℤ) := by
          rw [show (1025 : ℤ) = 1024 + 1 by norm_num, zpow_add_one₀ (by norm_num), mul_comm]
      _ ≤ (10 : ℚ) ^ (1025 : ℤ) := zpow_le_zpow_left₀ (by norm_num) (by norm_num) (by norm_num)
  have lower : (10 : ℚ) ^ (-1023 : ℤ) < (10 : ℚ) ^ (exp + 1) := by
    calc (10 : ℚ) ^ (-1023 : ℤ) ≤ (2 : ℚ) ^ (-1023 : ℤ) := by
          rw [zpow_neg, zpow_neg]
          exact inv_anti₀ (by positivity) (zpow_le_zpow_left₀ (by norm_num) (by norm_num) (by norm_num))
      _ = (2 : ℚ) ^ (-1022 : ℤ) / 2 := by
          rw [show (-1023 : ℤ) = -1022 - 1 by norm_num, zpow_sub_one₀ (by norm_num), div_eq_mul_inv]
      _ ≤ x := by linarith [normal.least]
      _ < (10 : ℚ) ^ (exp + 1) := below
  have := (zpow_lt_zpow_iff_right₀ (by norm_num : (1 : ℚ) < 10)).mp upper
  have := (zpow_lt_zpow_iff_right₀ (by norm_num : (1 : ℚ) < 10)).mp lower
  omega

theorem parseFloat_finite (reads : parseFloat literal = some (.finite f)) :
    ∃ x, 0 ≤ x ∧ rounded x = some |f| := by
  unfold parseFloat at reads
  split at reads
  · next value isSpecial =>
    obtain rfl := Option.some.inj reads
    simp only [special] at isSpecial
    split_ifs at isSpecial <;> cases isSpecial
  · split at reads
    · cases reads
    · next negative n d read =>
      obtain ⟨v, rounds, same⟩ := Option.map_eq_some_iff.mp reads
      rw [nearestDouble_eq n (readFloat_den read)] at rounds
      have nonneg : 0 ≤ v := rounded_nonneg rounds
      refine ⟨n / d, by positivity, ?_⟩
      have size : |f| = v := by
        obtain rfl := Float64.finite.inj same
        split_ifs
        · rw [abs_neg, abs_of_nonneg nonneg]
        · exact abs_of_nonneg nonneg
      rw [size, rounds]

theorem smallestNormal_eq : smallestNormal = (2 : ℚ) ^ (-1022 : ℤ) := by
  rw [smallestNormal, zpow_neg, one_div, show (1022 : ℤ) = (1022 : ℕ) by rfl, zpow_natCast]

theorem normal_of_parseFloat (reads : parseFloat literal = some (.finite f))
    (least : ¬ |f| < smallestNormal) : Normal |f| := by
  rw [smallestNormal_eq, not_lt] at least
  obtain ⟨x, nonneg, rounds⟩ := parseFloat_finite reads
  refine ⟨⟨x, lt_of_le_of_ne nonneg ?_, rounds⟩, least⟩
  rintro rfl
  rw [rounded, if_pos rfl, Option.some.injEq] at rounds
  rw [← rounds] at least
  exact absurd least (not_le.mpr (by positivity))

theorem reads_appendFloat (reads : parseFloat literal = some (.finite f)) :
    containsAny (appendFloat f) (lit ".eE") ∧ Numeral (appendFloat f) ∧
      ∃ g, parseFloat (appendFloat f) = some (.finite g) ∧ appendFloat g = appendFloat f := by
  by_cases zero : |f| < smallestNormal
  · have text : appendFloat f = lit "0.0" := if_pos zero
    have none : appendFloat 0 = lit "0.0" := if_pos (by norm_num [smallestNormal])
    have again : parseFloat (lit "0.0") = some (.finite 0) := by decide +kernel
    rw [text]
    refine ⟨by decide, ?_, 0, again, none⟩
    exact ⟨[], [0x30], [0x2E, 0x30], [],
      ⟨.inl rfl, .inl rfl, .inr ⟨[0x30], by simp, digits_replicate_zero 1, rfl⟩,
      .inl rfl⟩, by decide⟩
  · have normal := normal_of_parseFloat reads zero
    obtain ⟨leading, rounds⟩ := normal.formatted
    obtain ⟨integer, fraction, e, lays⟩ := lays_layout leading ((formatE |f|).2 + 1)
    have text : appendFloat f = signText (f < 0) ++ layout (formatE |f|).1 ((formatE |f|).2 + 1) := by
      rw [appendFloat, if_neg zero, signText]
      simp only [decide_eq_true_eq]
      rfl
    have again : parseFloat (appendFloat f) = some (.finite f) := by
      rw [text, lays.reads _ normal.exponent_small, rounds, map_some]
      rcases lt_or_ge f 0 with negative | nonneg
      · simp [negative, abs_of_neg negative]
      · simp [not_lt.mpr nonneg, abs_of_nonneg nonneg]
    refine ⟨?_, ?_, f, again, rfl⟩
    · rw [text]
      exact lays.isDouble _
    · rw [text]
      exact lays.numeral _

theorem appendNumber_idem {out : GoString} (numeral : Numeral literal)
    (writes : appendNumber literal = some out) :
    appendNumber out = some out ∧ Numeral out := by
  unfold appendNumber at writes
  split_ifs at writes with integer zero
  · obtain rfl := Option.some.inj writes
    exact ⟨by decide, [], [0x30], [], [], ⟨.inl rfl, .inl rfl, .inl rfl, .inl rfl⟩, by decide⟩
  · obtain rfl := Option.some.inj writes
    exact ⟨by rw [appendNumber, if_pos integer, if_neg zero], numeral⟩
  · split at writes
    · next f reads =>
      obtain rfl := Option.some.inj writes
      obtain ⟨double, numeral, g, again, same⟩ := reads_appendFloat reads
      refine ⟨?_, numeral⟩
      rw [appendNumber, if_neg (by simp [double]), again]
      simp only [same]
    · cases writes

/-! ## String literals -/

open Lib

variable {b : UInt8} {s char q literal : GoString} {width : Nat}

def Plain (b : UInt8) : Prop := 0x20 ≤ b ∧ b ≠ 0x22 ∧ b ≠ 0x5C

instance (b : UInt8) : Decidable (Plain b) := inferInstanceAs (Decidable (_ ∧ _))

theorem not_plain (special : ¬ Plain b) : b < 0x20 ∨ b = 0x22 ∨ b = 0x5C := by
  unfold Plain at special
  grind

theorem escapeByte_plain (plain : Plain b) : escapeByte b = [b] := by
  obtain ⟨high, notQuote, notEscape⟩ := plain
  simp [escapeByte, high, notQuote, notEscape]

theorem flatMap_escapeByte (plain : ∀ b ∈ s, Plain b) : s.flatMap escapeByte = s := by
  induction s with
  | nil => rfl
  | cons b rest ih =>
    obtain ⟨first, others⟩ := List.forall_mem_cons.mp plain
    rw [List.flatMap_cons, escapeByte_plain first, ih others]
    rfl

theorem readChar_iff (other : b ≠ 0x5C) {rest : GoString} :
    readChar () (b :: rest) = some (char, width, ()) ↔
      Plain b ∧ char = (b :: rest).take width ∧ ∃ r, decodeRune (b :: rest) = (r, width) ∧
        Decoded r width := by
  have eq : readChar () (b :: rest) =
      if (decodeRune (b :: rest)).2 = 0 ∨ (decodeRune (b :: rest)).1 = runeError ∧ (decodeRune (b :: rest)).2 = 1 ∨
          (b < 0x20 || b == 0x22 || b == 0x5C) then none
      else some ((b :: rest).take (decodeRune (b :: rest)).2, (decodeRune (b :: rest)).2, ()) := by
    rw [readChar]
    · simp
    · grind
    · grind
  rw [eq]
  constructor
  · intro reads
    split_ifs at reads with refused
    simp only [Option.some.injEq, Prod.mk.injEq, and_true] at reads
    obtain ⟨rfl, rfl⟩ := reads
    simp only [not_or, Bool.or_eq_true, decide_eq_true_eq, beq_iff_eq] at refused
    exact ⟨⟨UInt8.not_lt.mp refused.2.2.1.1, refused.2.2.1.2, other⟩, rfl, _, rfl, refused.1,
      refused.2.1⟩
  · rintro ⟨⟨high, notQuote, -⟩, rfl, r, decodes, notEmpty, notError⟩
    rw [decodes, if_neg]
    simpa [notEmpty, notQuote, other, high] using notError

theorem singleton_or_plain (seq : Sequence q) : (∃ b, q = [b]) ∨ ∀ b ∈ q, Plain b := by
  cases seq with
  | @one b ascii => exact .inl ⟨b, rfl⟩
  | two first second =>
    right
    simp only [isContinuation] at second
    simp only [mem_cons, List.not_mem_nil, or_false, Plain]
    grind
  | three first others | four first others =>
    right
    simp only [secondAllowed, isContinuation] at others
    simp only [mem_cons, List.not_mem_nil, or_false, Plain]
    grind

theorem stringBody_plain (plain : Plain b) (text : GoString) :
    stringBody (b :: text) = (stringBody text).map (b :: ·) := by
  obtain ⟨-, notQuote, notEscape⟩ := plain
  rw [stringBody.eq_4]
  · rintro rfl
    exact notQuote rfl
  · rintro _ _ rfl
    exact fun _ => notEscape rfl

theorem stringBody_append (plain : ∀ b ∈ q, Plain b) (rest : GoString) :
    stringBody (q ++ rest) = (stringBody rest).map (q ++ ·) := by
  induction q with
  | nil => simp
  | cons b q ih =>
    obtain ⟨first, others⟩ := List.forall_mem_cons.mp plain
    rw [cons_append, stringBody_plain first, ih others, map_map]
    rfl

/-- The text `q` stands for `char` in a literal, whatever follows it. -/
def Piece (q char : GoString) : Prop :=
  ∀ rest, readChar () (q ++ rest) = some (char, q.length, ()) ∧ stringBody (q ++ rest) = (stringBody rest).map (q ++ ·)

theorem piece_sequence (seq : Sequence q) (plain : ∀ b ∈ q, Plain b) : Piece q q := by
  intro rest
  refine ⟨?_, stringBody_append plain rest⟩
  obtain ⟨r, decodes, decoded⟩ := decodeRune_append seq rest
  obtain ⟨b, others, rfl⟩ := List.exists_cons_of_length_pos (Nat.pos_of_ne_zero decoded.1)
  have first := plain b List.mem_cons_self
  exact (readChar_iff first.2.2).mpr ⟨first, List.take_left.symm, r, decodes, decoded⟩

theorem piece_escape {c : UInt8}
    (reads : ∀ rest, readChar () (0x5C :: c :: (q ++ rest)) = some (char, q.length + 2, ()))
    (plain : ∀ b ∈ q, Plain b) : Piece (0x5C :: c :: q) char := by
  refine fun rest => ⟨reads rest, ?_⟩
  rw [cons_append, cons_append, stringBody, stringBody_append plain, map_map]
  rfl

theorem special_cases {P : UInt8 → Prop} (control : ∀ n < 32, P (UInt8.ofNat n)) (quote : P 0x22)
    (escape : P 0x5C)
    (special : ¬ Plain b) : P b := by
  rcases not_plain special with low | rfl | rfl
  · simpa using control b.toNat (UInt8.lt_iff_toNat_lt.mp low)
  · exact quote
  · exact escape

theorem piece_escapeByte (special : ¬ Plain b) : Piece (escapeByte b) [b] := by
  refine special_cases (P := fun b => Piece (escapeByte b) [b]) ?_ ?_ ?_ special
  · intro n small
    interval_cases n <;> exact piece_escape (fun _ => rfl) (by decide +kernel)
  all_goals exact piece_escape (fun _ => rfl) (by decide +kernel)

theorem piece_flatMap (seq : Sequence q) : Piece (q.flatMap escapeByte) q := by
  by_cases plain : ∀ b ∈ q, Plain b
  · rw [flatMap_escapeByte plain]
    exact piece_sequence seq plain
  · obtain ⟨b, rfl⟩ := (singleton_or_plain seq).resolve_right plain
    have special : ¬ Plain b := by simpa using plain
    simpa using piece_escapeByte special

theorem hex4_lt {r : Nat} (reads : hex4 s = some r) : r < 0x10000 := by
  have digit {b : UInt8} {d : Nat} (reads : hexDigit? b = some d) : d < 16 := by
    unfold hexDigit? isDigit at reads
    simp only [Bool.and_eq_true, decide_eq_true_eq, UInt8.le_iff_toNat_le,
      UInt8.reduceToNat] at reads
    split_ifs at reads <;> simp only [Option.some.injEq] at reads <;> omega
  unfold hex4 at reads
  split at reads
  · next a b c d _ =>
    simp only [pure_def, bind_eq_bind, Option.bind_eq_some_iff, Option.some.injEq] at reads
    obtain ⟨a', first, b', second, c', third, d', fourth, rfl⟩ := reads
    have := digit first
    have := digit second
    have := digit third
    have := digit fourth
    omega
  · cases reads

theorem readEscapedRune_sound {rest : GoString}
    (reads : readEscapedRune rest = some (char, width)) :
    Sequence char ∧ 0 < width := by
  unfold readEscapedRune at reads
  split at reads
  · cases reads
  · next r four =>
    have small := hex4_lt four
    split_ifs at reads with surrogate
    · split at reads
      · split at reads
        · next low _ =>
          split_ifs at reads with pair
          simp only [Option.some.injEq, Prod.mk.injEq] at reads
          obtain ⟨rfl, rfl⟩ := reads
          exact ⟨(encodeRune_spec (by omega) (by omega)).1, by simp⟩
        · cases reads
      · cases reads
    · simp only [Option.some.injEq, Prod.mk.injEq] at reads
      obtain ⟨rfl, rfl⟩ := reads
      exact ⟨(encodeRune_spec (by omega) surrogate).1, by simp⟩

theorem shortEscape_ascii {c : UInt8} (reads : shortEscape c = some b) : b < 0x80 := by
  unfold shortEscape at reads
  grind

theorem readChar_sound {text : GoString} (reads : readChar () text = some (char, width, ())) :
    Sequence char ∧ 0 < width := by
  unfold readChar at reads
  split at reads
  · next rest =>
    simp only [map_eq_some_iff, Prod.mk.injEq, and_true, Prod.exists] at reads
    obtain ⟨_, _, escape, rfl, rfl⟩ := reads
    exact readEscapedRune_sound escape
  · next c _ _ =>
    simp only [map_eq_some_iff, Prod.mk.injEq, and_true] at reads
    obtain ⟨b, escape, rfl, rfl⟩ := reads
    exact ⟨.one (shortEscape_ascii escape), by simp⟩
  · dsimp only at reads
    split_ifs at reads with refused
    simp only [Option.some.injEq, Prod.mk.injEq, and_true] at reads
    obtain ⟨rfl, rfl⟩ := reads
    simp only [not_or] at refused
    have decoded : Decoded _ _ := ⟨refused.1, refused.2.1⟩
    exact ⟨(sequence_of_decodeRune rfl decoded).1, Nat.pos_of_ne_zero refused.1⟩

def Text (s : GoString) : Prop := ∃ chars :
    List GoString, (∀ q ∈ chars, Sequence q) ∧ s = chars.flatten

theorem unquote_eq_some :
    unquote literal = some s ↔ ∃ chars, lex readChar 0 () literal = (chars, (), []) ∧
      chars.flatten = s := by
  unfold unquote
  split
  · next chars _ read => simp [read]
  · next other =>
    simp only [reduceCtorEq, false_iff, not_exists, not_and]
    intro chars read
    exact (other chars () read).elim

inductive Spells : GoString → GoString → Prop
  | nil : Spells [] []
  | append {q char text s : GoString} (piece : Piece q char) (more : Spells text s) : Spells (q ++ text) (char ++ s)

theorem Spells.trans {text text' s' : GoString} (first : Spells text s) (second : Spells text' s') :
    Spells (text ++ text') (s ++ s') := by
  induction first with
  | nil => exact second
  | append piece _ ih =>
    rw [append_assoc, append_assoc]
    exact .append piece ih

theorem Spells.unquote (spells : Spells literal s) : unquote literal = some s := by
  rw [unquote_eq_some]
  induction spells with
  | nil => exact ⟨[], rfl, rfl⟩
  | append piece _ ih =>
    obtain ⟨chars, read, rfl⟩ := ih
    have more := List.ne_nil_of_length_pos (readChar_sound (piece []).1).2
    exact ⟨_ :: chars, by rw [lex_append more (piece _).1, read], rfl⟩

theorem Spells.stringBody (spells : Spells literal s) (rest : GoString) :
    stringBody (literal ++ 0x22 :: rest) = some literal := by
  induction spells with
  | nil => rfl
  | append piece _ ih => rw [append_assoc, (piece _).2, ih, map_some]

theorem spells_escaped (text : Text s) : Spells (s.flatMap escapeByte) s := by
  obtain ⟨chars, sequences, rfl⟩ := text
  induction chars with
  | nil => exact .nil
  | cons q rest ih =>
    obtain ⟨first, others⟩ := List.forall_mem_cons.mp sequences
    rw [List.flatten_cons, List.flatMap_append]
    exact .append (piece_flatMap first) (ih others)

theorem text_of_unquote (read : unquote literal = some s) : Text s := by
  obtain ⟨chars, lexed, rfl⟩ := unquote_eq_some.mp read
  have sequences : ∀ q ∈ (lex readChar 0 () literal).1, Sequence q :=
    lex_forall (fun reads => (readChar_sound reads).1) 0 () literal
  rw [lexed] at sequences
  exact ⟨chars, sequences, rfl⟩

theorem unquote_plain (noEscape : 0x5C ∉ literal) (read : unquote literal = some s) :
    s = literal ∧ ∀ b ∈ literal, Plain b := by
  obtain ⟨chars, lexed, rfl⟩ := unquote_eq_some.mp read
  have whole (text : GoString) : 0x5C ∉ text → (lex readChar 0 () text).2.2 = [] →
      (lex readChar 0 () text).1.flatten = text ∧ ∀ b ∈ text, Plain b := by
    refine lex_induction (motive := fun _ text ending => 0x5C ∉ text → ending.2.2 = [] →
      ending.1.flatten = text ∧ ∀ b ∈ text, Plain b) (fun reads => (readChar_sound reads).2) ?_ ?_ () text
    · rintro - text - - (rfl : text = [])
      simp
    · rintro _ text char width _ chars ending more reads ih noEscape ended
      obtain ⟨b, rest, rfl⟩ := List.exists_cons_of_ne_nil more
      have other : b ≠ 0x5C := fun same => noEscape (by simp [same])
      obtain ⟨plain, rfl, r, decodes, decoded⟩ := (readChar_iff other).mp reads
      obtain ⟨flat, others⟩ := ih (fun mem => noEscape (List.mem_of_mem_drop mem)) ended
      have here : ∀ c ∈ (b :: rest).take width, Plain c := by
        rcases singleton_or_plain (sequence_of_decodeRune decodes decoded).1 with ⟨c, single⟩ | all
        · obtain ⟨more, rfl⟩ := Nat.exists_eq_succ_of_ne_zero decoded.1
          rw [List.take_succ_cons] at single ⊢
          obtain ⟨-, none⟩ := List.cons.inj single
          simpa [none] using plain
        · exact all
      constructor
      · rw [List.flatten_cons, flat, take_append_drop]
      · rw [← take_append_drop width (b :: rest), List.forall_mem_append]
        exact ⟨here, others⟩
  have := whole literal noEscape
  rw [lexed] at this
  exact this rfl

theorem rewrite_string (read : unquote literal = some s) :
    rewrite (.string literal) = some (appendString s) := by
  rw [rewrite]
  split_ifs with escapes
  · rw [read]
    rfl
  · obtain ⟨rfl, plain⟩ := unquote_plain escapes read
    rw [appendString, flatMap_escapeByte plain]

/-! ## Tokens read back -/

variable {text rest : GoString} {tok : Token} {width : Nat} {frames frames' : List Frame}

def Sound : Token → Prop
  | .string literal => (unquote literal).isSome
  | .number literal => Numeral literal
  | _ => True

theorem readValueToken_sound (reads : readValueToken text = some (tok, width)) :
    Sound tok ∧ isEnd tok = false := by
  unfold readValueToken at reads
  split at reads
  · cases reads
    exact ⟨trivial, rfl⟩
  · cases reads
    exact ⟨trivial, rfl⟩
  · split at reads
    · split_ifs at reads with valid
      cases reads
      exact ⟨valid, rfl⟩
    · cases reads
  · split_ifs at reads
    · cases reads
      exact ⟨trivial, rfl⟩
    · cases reads
      exact ⟨trivial, rfl⟩
    · cases reads
      exact ⟨trivial, rfl⟩
    · obtain ⟨literal, read, same⟩ := Option.map_eq_some_iff.mp reads
      cases same
      exact ⟨readNumber_sound read, rfl⟩

theorem placed_eq_some {before width' : Nat} {tok' : Token} :
    placed frames before tok width = some (tok', width', frames') ↔
      advance frames tok = some frames' ∧ tok = tok' ∧ before + width = width' := by
  simp only [placed, map_eq_some_iff, Prod.mk.injEq]
  constructor
  · rintro ⟨_, step, rfl, rfl, rfl⟩
    exact ⟨step, rfl, rfl⟩
  · rintro ⟨step, rfl, rfl⟩
    exact ⟨frames', step, rfl, rfl, rfl⟩

theorem readToken_sound (reads : readToken frames text = some (tok, width, frames')) :
    Sound tok ∧ advance frames tok = some frames' := by
  unfold readToken at reads
  dsimp only at reads
  split at reads
  · obtain ⟨step, rfl, -⟩ := placed_eq_some.mp reads
    exact ⟨trivial, step⟩
  · obtain ⟨step, rfl, -⟩ := placed_eq_some.mp reads
    exact ⟨trivial, step⟩
  · split_ifs at reads
    obtain ⟨⟨tok', width'⟩, read, placed⟩ := Option.bind_eq_some_iff.mp reads
    obtain ⟨step, rfl, -⟩ := placed_eq_some.mp placed
    exact ⟨(readValueToken_sound read).1, step⟩

theorem tokens_sound (s : GoString) : ∀ tok ∈ (newDecoder s).tokens, Sound tok := by
  refine lex_forall ?_ 0 [] s
  intro _ _ _ _ _ reads
  exact (readToken_sound reads).1

theorem tokens_follow (s : GoString) : Follows advance [] (newDecoder s).tokens := by
  refine lex_follows ?_ 0 [] s
  intro _ _ _ _ _ reads
  exact (readToken_sound reads).2

def tokenText : Token → GoString
  | .string literal => quoted literal
  | .number literal => literal
  | .null => lit "null"
  | .bool true => lit "true"
  | .bool false => lit "false"
  | .objectStart => lit "\x7b"
  | .objectEnd => lit "\x7d"
  | .arrayStart => lit "["
  | .arrayEnd => lit "]"

def settle : Token → Token
  | .string literal => .string (((unquote literal).getD []).flatMap escapeByte)
  | .number literal => .number ((appendNumber literal).getD literal)
  | tok => tok

def Settled (tok : Token) : Prop :=
  match tok with
  | .string literal => ∃ s, Text s ∧ literal = s.flatMap escapeByte
  | .number literal => Numeral literal ∧ appendNumber literal = some literal
  | _ => True

theorem rewrite_settle (sound : Sound tok) (writes : rewrite tok = some text) :
    text = tokenText (settle tok) ∧ Settled (settle tok) := by
  cases tok with
  | string literal =>
    obtain ⟨s, read⟩ := Option.isSome_iff_exists.mp sound
    rw [rewrite_string read, Option.some.injEq] at writes
    simp only [settle, read, getD_some]
    exact ⟨writes.symm, s, text_of_unquote read, rfl⟩
  | number literal =>
    rw [rewrite] at writes
    simp only [settle, writes, getD_some]
    exact ⟨rfl, (appendNumber_idem sound writes).2, (appendNumber_idem sound writes).1⟩
  | bool b => cases b <;> exact ⟨(Option.some.inj writes).symm, trivial⟩
  | _ => exact ⟨(Option.some.inj writes).symm, trivial⟩

theorem rewrite_settled (settled : Settled tok) :
    rewrite tok = some (tokenText tok) ∧ settle tok = tok := by
  cases tok with
  | string literal =>
    obtain ⟨s, text, rfl⟩ := settled
    have read := (spells_escaped text).unquote
    refine ⟨rewrite_string read, ?_⟩
    rw [settle, read, getD_some]
  | number literal => exact ⟨settled.2, by rw [settle, settled.2, getD_some]⟩
  | bool b => cases b <;> exact ⟨rfl, rfl⟩
  | _ => exact ⟨rfl, rfl⟩

def Legible : Token → Prop
  | .string literal => ∃ s, Spells literal s
  | .number literal => Numeral literal
  | _ => True

theorem Settled.legible (settled : Settled tok) : Legible tok := by
  cases tok with
  | string literal =>
    obtain ⟨s, text, rfl⟩ := settled
    exact ⟨s, spells_escaped text⟩
  | number literal => exact settled.1
  | _ => trivial

theorem Numeral.head {literal : GoString} (numeral : Numeral literal) :
    ∃ b rest, literal = b :: rest ∧ (b = 0x2D ∨ isDigit b) := by
  obtain ⟨sign, integer, fraction, exponent, number, rfl⟩ := numeral
  rcases number.sign with rfl | rfl
  · rcases number.integer with rfl | ⟨all, b, more, rfl, -⟩
    · exact ⟨0x30, _, rfl, .inr rfl⟩
    · exact ⟨b, _, rfl, .inr (all b (by simp))⟩
  · exact ⟨0x2D, _, rfl, .inl rfl⟩

theorem Numeral.append {literal : GoString} (numeral : Numeral literal) (ends : Ends rest) :
    readNumber (literal ++ rest) = some literal := by
  obtain ⟨sign, integer, fraction, exponent, number, rfl⟩ := numeral
  exact readNumber_append number ends

def Closed (tok : Token) (rest : GoString) : Prop :=
  match tok with
  | .number _ => Ends rest
  | _ => True

theorem readValueToken_text (legible : Legible tok) (value : isEnd tok = false)
    (closed : Closed tok rest) :
    readValueToken (tokenText tok ++ rest) = some (tok, (tokenText tok).length) := by
  cases tok with
  | string literal =>
    obtain ⟨s, spells⟩ := legible
    simp only [tokenText, quoted, cons_append, append_assoc, nil_append, readValueToken,
      spells.stringBody, spells.unquote]
    simp
  | number literal =>
    obtain ⟨b, more, rfl, first⟩ := legible.head
    have others : b ≠ 0x7B ∧ b ≠ 0x5B ∧ b ≠ 0x22 ∧ b ≠ 0x6E ∧ b ≠ 0x74 ∧ b ≠ 0x66 := by
      simp only [isDigit] at first
      grind
    obtain ⟨notObject, notArray, notString, notNull, notTrue, notFalse⟩ := others
    rw [tokenText, cons_append, readValueToken.eq_4]
    · have n : lit "null" = 0x6E :: lit "ull" := by decide
      have t : lit "true" = 0x74 :: lit "rue" := by decide
      have f : lit "false" = 0x66 :: lit "alse" := by decide
      have number := legible.append closed
      rw [cons_append] at number
      simp [n, t, f, notNull.symm, notTrue.symm, notFalse.symm, List.isPrefixOf_cons_cons, number]
    · rintro _ same
      exact notObject (List.cons.inj same).1
    · rintro _ same
      exact notArray (List.cons.inj same).1
    · rintro _ same
      exact notString (List.cons.inj same).1
  | bool b => cases b <;> rfl
  | null | objectStart | arrayStart => rfl
  | _ => cases value

def tokenChunk (frames : List Frame) (tok : Token) : GoString :=
  if isEnd tok then tokenText tok else separator frames ++ tokenText tok

theorem separator_cases (frames : List Frame) :
    separator frames = [] ∨ separator frames = [0x3A] ∨ separator frames = [0x2C] := by
  cases frames with
  | nil => exact .inl rfl
  | cons top outer =>
    rw [separator]
    split_ifs
    · exact .inr (.inl (by decide))
    · exact .inr (.inr (by decide))
    · exact .inl rfl

theorem tokenText_head (legible : Legible tok) (value : isEnd tok = false) :
    ∃ b rest, tokenText tok = b :: rest ∧ isWhite b = false ∧ b ≠ 0x7D ∧ b ≠ 0x5D := by
  cases tok with
  | number literal =>
    obtain ⟨b, more, rfl, first⟩ := legible.head
    refine ⟨b, more, rfl, ?_⟩
    simp only [isDigit] at first
    simp only [isWhite]
    grind
  | string literal => exact ⟨0x22, _, rfl, by decide⟩
  | bool b => cases b <;> exact ⟨_, _, rfl, by decide⟩
  | null | objectStart | arrayStart => exact ⟨_, _, rfl, by decide⟩
  | _ => cases value

theorem readToken_value {b : UInt8} (black : isWhite b = false) (notObjectEnd : b ≠ 0x7D)
    (notArrayEnd : b ≠ 0x5D) (more : GoString) :
    readToken frames (b :: more) =
      if (separator frames).isPrefixOf (b :: more) then
        let value := ((b :: more).drop (separator frames).length).dropWhile isWhite
        (readValueToken value).bind fun (tok, width) =>
          placed frames ((b :: more).length - value.length) tok width
      else none := by
  have here : (b :: more).dropWhile isWhite = b :: more :=
    List.dropWhile_cons_of_neg (by simp [black])
  unfold readToken
  rw [here]
  dsimp only
  split
  · next same => exact absurd (List.cons.inj same).1 notObjectEnd
  · next same => exact absurd (List.cons.inj same).1 notArrayEnd
  · rfl

theorem readToken_chunk (legible : Legible tok) (step : advance frames tok = some frames')
    (closed : Closed tok rest) :
    readToken frames (tokenChunk frames tok ++ rest) =
      some (tok, (tokenChunk frames tok).length, frames') := by
  cases value : isEnd tok with
  | true =>
    have text : tokenChunk frames tok = tokenText tok := if_pos value
    have closing : readToken frames (tokenText tok ++ rest) = placed frames 0 tok (tokenText tok).length := by
      cases tok with
      | objectEnd | arrayEnd => exact congrArg (placed frames · _ _) (Nat.sub_self _)
      | _ => cases value
    rw [text, closing, placed, step, map_some, Nat.zero_add]
  | false =>
    have text : tokenChunk frames tok = separator frames ++ tokenText tok :=
      if_neg (by simp [value])
    obtain ⟨b, more, head, black, notEnd⟩ := tokenText_head legible value
    have start : ∃ c more', separator frames ++ (tokenText tok ++ rest) = c :: more' ∧ isWhite c = false ∧
        c ≠ 0x7D ∧ c ≠ 0x5D := by
      rcases separator_cases frames with none | colon | comma
      · exact ⟨b, more ++ rest, by rw [none, head]; rfl, black, notEnd⟩
      · exact ⟨0x3A, tokenText tok ++ rest, by rw [colon]; rfl, by decide⟩
      · exact ⟨0x2C, tokenText tok ++ rest, by rw [comma]; rfl, by decide⟩
    obtain ⟨c, more', whole, black', notObjectEnd, notArrayEnd⟩ := start
    have behind : ((c :: more').drop (separator frames).length).dropWhile isWhite = tokenText tok ++ rest := by
      rw [← whole, drop_left, head, cons_append, List.dropWhile_cons_of_neg (by simp [black])]
    have fits : (separator frames).isPrefixOf (c :: more') = true := by
      rw [← whole]
      simp
    have width : (c :: more').length - (tokenText tok ++ rest).length + (tokenText tok).length =
        (separator frames ++ tokenText tok).length := by
      rw [← whole]
      simp only [List.length_append]
      omega
    rw [text, append_assoc, whole, readToken_value black' notObjectEnd notArrayEnd, if_pos fits]
    dsimp only
    rw [behind, readValueToken_text legible value closed, bind_some, placed, step, map_some, width]

end CincServer.Proof.Json
