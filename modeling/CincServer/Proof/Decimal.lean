import CincServer.Proof.Rounding
import Mathlib.Data.Nat.Digits.Lemmas
import Mathlib.Tactic.IntervalCases

/-!
# Decimal text
-/

namespace CincServer.Proof.Decimal
open CincServer.Go Proof.Rounding
open List (foldl_cons length_cons replicate singleton_append foldl_nil cons_append)

variable {s digits : GoString} {d n : ℕ} {b : UInt8} {negative : Bool}

def Digits (s : GoString) : Prop := ∀ b ∈ s, isDigit b

def valueOf (s : GoString) : ℕ := s.foldl (fun v b => v * 10 + (b.toNat - 0x30)) 0

theorem foldl_valueOf (s : GoString) (v : ℕ) :
    s.foldl (fun v b => v * 10 + (b.toNat - 0x30)) v = v * 10 ^ s.length + valueOf s := by
  induction s generalizing v with
  | nil => simp [valueOf]
  | cons b rest ih =>
    rw [valueOf, foldl_cons, foldl_cons, ih, ih (0 * 10 + _), length_cons]
    ring

theorem valueOf_append (s t : GoString) :
    valueOf (s ++ t) = valueOf s * 10 ^ t.length + valueOf t := by
  rw [valueOf, List.foldl_append, foldl_valueOf t]
  rfl

theorem valueOf_replicate_zero (n : ℕ) : valueOf (replicate n 0x30) = 0 := by
  induction n with
  | zero => rfl
  | succ n ih =>
    rw [List.replicate_succ, ← singleton_append, valueOf_append, ih]
    simp [valueOf]

theorem digits_append {t : GoString} : Digits (s ++ t) ↔ Digits s ∧ Digits t :=
  List.forall_mem_append

theorem digits_replicate_zero (n : ℕ) : Digits (replicate n 0x30) := by
  intro b mem
  rw [List.eq_of_mem_replicate mem]
  decide

theorem digitByte_isDigit (small : d < 10) :
    isDigit (digitByte d) ∧ (digitByte d).toNat - 0x30 = d := by
  interval_cases d <;> decide

theorem valueOf_map_digitByte {digits : List ℕ} (small : ∀ d ∈ digits, d < 10) :
    valueOf (digits.reverse.map digitByte) = Nat.ofDigits 10 digits := by
  induction digits with
  | nil => rfl
  | cons d rest ih =>
    obtain ⟨first, others⟩ := List.forall_mem_cons.mp small
    have last : valueOf [digitByte d] = d := by simpa [valueOf] using (digitByte_isDigit first).2
    rw [List.reverse_cons, List.map_append, valueOf_append, ih others, List.map_singleton, last,
      Nat.ofDigits_cons]
    simp
    ring

theorem valueOf_formatNat (n : ℕ) : valueOf (formatNat n) = n := by
  unfold formatNat
  split_ifs with zero
  · exact zero.symm
  · rw [valueOf_map_digitByte fun d mem => Nat.digits_lt_base (by norm_num) mem, Nat.ofDigits_digits]

theorem digits_formatNat (n : ℕ) : Digits (formatNat n) := by
  unfold formatNat
  split_ifs
  · exact digits_replicate_zero 1
  · intro b mem
    obtain ⟨d, isDigit, rfl⟩ := List.mem_map.mp mem
    exact (digitByte_isDigit (Nat.digits_lt_base (by norm_num) (List.mem_reverse.mp isDigit))).1

theorem formatNat_ne_nil (n : ℕ) : formatNat n ≠ [] := by
  unfold formatNat
  split_ifs with zero
  · simp
  · simpa [Nat.digits_eq_nil_iff_eq_zero] using zero

def Leading (s : GoString) : Prop := Digits s ∧ ∃ b rest, s = b :: rest ∧ b ≠ 0x30

theorem leading_formatNat (positive : n ≠ 0) : Leading (formatNat n) := by
  refine ⟨digits_formatNat n, ?_⟩
  have more : Nat.digits 10 n ≠ [] := Nat.digits_ne_nil_iff_ne_zero.mpr positive
  have notZero := Nat.getLast_digit_ne_zero 10 positive
  have small : (Nat.digits 10 n).getLast more < 10 :=
    Nat.digits_lt_base (by norm_num) (List.getLast_mem more)
  rw [formatNat, if_neg positive, ← List.dropLast_append_getLast more, List.reverse_append,
    List.reverse_singleton, singleton_append, List.map_cons]
  refine ⟨_, _, rfl, ?_⟩
  generalize (Nat.digits 10 n).getLast more = d at notZero small
  interval_cases d <;> first | exact absurd rfl notZero | decide

theorem Leading.take (leading : Leading digits) {m : ℕ} (some : m ≠ 0) :
    Leading (digits.take m) := by
  obtain ⟨all, b, rest, rfl, notZero⟩ := leading
  obtain ⟨m, rfl⟩ := Nat.exists_eq_succ_of_ne_zero some
  exact ⟨fun b mem => all b (List.mem_of_mem_take mem), b, rest.take m, rfl, notZero⟩

theorem Leading.le_valueOf (leading : Leading s) : 10 ^ (s.length - 1) ≤ valueOf s := by
  obtain ⟨digits, b, rest, rfl, notZero⟩ := leading
  have digit := digits b (by simp)
  have one : 1 ≤ valueOf [b] := by
    simp only [isDigit, Bool.and_eq_true, decide_eq_true_eq, UInt8.le_iff_toNat_le,
      UInt8.reduceToNat, ne_eq, ← UInt8.toNat_inj] at digit notZero
    simp only [valueOf, foldl_cons, foldl_nil]
    omega
  rw [← singleton_append, valueOf_append]
  simp only [List.length_append, List.length_singleton, Nat.add_sub_cancel_left]
  exact Nat.le_add_right_of_le (Nat.le_mul_of_pos_left _ one)

theorem valueOf_lt (digits : Digits s) : valueOf s < 10 ^ s.length := by
  induction s with
  | nil => simp [valueOf]
  | cons b rest ih =>
    obtain ⟨digit, others⟩ := List.forall_mem_cons.mp digits
    have one : valueOf [b] ≤ 9 := by
      simp only [isDigit, Bool.and_eq_true, decide_eq_true_eq, UInt8.le_iff_toNat_le,
        UInt8.reduceToNat] at digit
      simp only [valueOf, foldl_cons, foldl_nil]
      omega
    rw [← singleton_append, valueOf_append, singleton_append, length_cons, pow_succ]
    nlinarith [ih others]

def stripZeros (s : GoString) : GoString := (s.reverse.dropWhile (· == 0x30)).reverse

theorem stripZeros_append (s : GoString) : ∃ n, s = stripZeros s ++ replicate n 0x30 := by
  refine ⟨(s.reverse.takeWhile (· == 0x30)).length, ?_⟩
  have zeros : s.reverse.takeWhile (· == 0x30) =
      replicate (s.reverse.takeWhile (· == 0x30)).length 0x30 :=
    List.eq_replicate_iff.mpr ⟨rfl, fun b mem => by simpa using List.all_eq_true.mp List.all_takeWhile b mem⟩
  have split := congrArg List.reverse (List.takeWhile_append_dropWhile (p := (· == (0x30 : UInt8))) (l := s.reverse))
  rw [List.reverse_append, List.reverse_reverse, zeros, List.reverse_replicate] at split
  exact split.symm

theorem Leading.stripZeros (leading : Leading s) : Leading (stripZeros s) := by
  obtain ⟨n, split⟩ := stripZeros_append s
  obtain ⟨digits, b, rest, same, notZero⟩ := leading
  rw [split, digits_append] at digits
  refine ⟨digits.1, ?_⟩
  cases stripped : Decimal.stripZeros s with
  | nil =>
    rw [split, stripped, List.nil_append] at same
    have : b ∈ replicate n (0x30 : UInt8) := by simp [same]
    exact absurd (List.eq_of_mem_replicate this) notZero
  | cons b' rest' =>
    rw [split, stripped, cons_append] at same
    exact ⟨b', rest', rfl, (List.cons.inj same).1 ▸ notZero⟩

theorem formatE_spec {f : ℚ} (positive : (shortest f).1 ≠ 0) : Leading (formatE f).1 ∧
      (valueOf (formatE f).1 : ℚ) * (10 : ℚ) ^ ((formatE f).2 + 1 - (formatE f).1.length) =
        ((shortest f).1 : ℚ) * (10 : ℚ) ^ (shortest f).2 := by
  have leading := leading_formatNat positive
  refine ⟨leading.stripZeros, ?_⟩
  obtain ⟨n, split⟩ := stripZeros_append (formatNat (shortest f).1)
  have value : valueOf (stripZeros (formatNat (shortest f).1)) * 10 ^ n = (shortest f).1 := by
    have := valueOf_formatNat (shortest f).1
    rw [split, valueOf_append, valueOf_replicate_zero] at this
    simpa using this
  have length : (formatNat (shortest f).1).length =
      (stripZeros (formatNat (shortest f).1)).length + n := by
    have := congrArg List.length split
    rwa [List.length_append, List.length_replicate] at this
  have exponent : (formatE f).2 + 1 - (formatE f).1.length = n + (shortest f).2 := by
    simp only [formatE]
    have := length
    unfold stripZeros at this
    omega
  rw [exponent, zpow_add₀ (by norm_num), zpow_natCast, ← mul_assoc]
  congr 1
  exact_mod_cast value

theorem decDigit?_of_isDigit (digit : isDigit b) :
    decDigit? b = some (b.toNat - 0x30) ∧ b ≠ 0x5F ∧ b ≠ 0x2E := by
  refine ⟨if_pos digit, ?_, ?_⟩ <;> rintro rfl <;> exact absurd digit (by decide)

theorem readMantissa_digits (all : Digits digits) (m : Mantissa) (rest : GoString) :
    readMantissa 10 decDigit? m (digits ++ rest) = readMantissa 10 decDigit? { m with
          value := m.value * 10 ^ digits.length + valueOf digits
          fraction := if m.sawDot then m.fraction + digits.length else m.fraction
          sawDigits := m.sawDigits || !digits.isEmpty } rest := by
  induction digits generalizing m with
  | nil => simp [valueOf]
  | cons b more ih =>
    obtain ⟨digit, others⟩ := List.forall_mem_cons.mp all
    obtain ⟨value, notUnderscore, notDot⟩ := decDigit?_of_isDigit digit
    rw [cons_append, readMantissa]
    simp only [beq_iff_eq, notUnderscore, notDot, if_false, value, ih others]
    congr 1
    simp only [Mantissa.mk.injEq, length_cons, List.isEmpty_cons, Bool.not_false, Bool.or_true,
      Bool.true_or, and_true]
    constructor
    · rw [← singleton_append, valueOf_append]
      simp only [valueOf, foldl_cons, foldl_nil]
      ring
    · split_ifs <;> omega

theorem readExponent_digits (all : Digits digits) {e : ℕ}
    (small : e * 10 ^ digits.length + valueOf digits < 100000) :
    readExponent e false digits = (e * 10 ^ digits.length + valueOf digits, false, []) := by
  induction digits generalizing e with
  | nil => simp [readExponent, valueOf]
  | cons b more ih =>
    obtain ⟨digit, others⟩ := List.forall_mem_cons.mp all
    obtain ⟨value, notUnderscore, -⟩ := decDigit?_of_isDigit digit
    have step : (e * 10 + (b.toNat - 0x30)) * 10 ^ more.length + valueOf more =
        e * 10 ^ (b :: more).length + valueOf (b :: more) := by
      rw [← singleton_append, valueOf_append]
      simp only [valueOf, foldl_cons, foldl_nil, singleton_append, length_cons]
      ring
    have below : e < 10000 := by
      rw [length_cons, pow_succ] at small
      have : 1 ≤ 10 ^ more.length := Nat.one_le_pow _ _ (by norm_num)
      nlinarith
    rw [readExponent]
    simp only [beq_iff_eq, notUnderscore, if_false, value, below, if_true]
    rw [ih others (by rw [step]; exact small), step]

def pointed (fraction : GoString) : GoString := if fraction = [] then [] else 0x2E :: fraction

def exponentText : Option ℤ → GoString
  | none => []
  | some e => lit "e" ++ ((if e > 0 then lit "+" else []) ++ formatInt e)

section Literal

variable {integer fraction : GoString} {e : Option ℤ}

theorem readMantissa_literal (whole : Digits integer) (more : integer ≠ [])
    (places : Digits fraction) :
    readMantissa 10 decDigit? ⟨0, 0, false, false, false⟩ (integer ++ (pointed fraction ++ exponentText e)) =
      (⟨valueOf (integer ++ fraction), fraction.length, !fraction.isEmpty, true, false⟩, exponentText e) := by
  have first (rest : GoString) : readMantissa 10 decDigit? ⟨0, 0, false, false, false⟩ (integer ++ rest) =
      readMantissa 10 decDigit? ⟨valueOf integer, 0, false, true, false⟩ rest := by
    have nonempty : integer.isEmpty = false := by simpa using more
    rw [readMantissa_digits whole]
    simp [nonempty]
  have stops (m : Mantissa) :
      readMantissa 10 decDigit? m (exponentText e) = (m, exponentText e) := by
    cases e with
    | none => rw [exponentText, readMantissa]
    | some e => rfl
  rw [first]
  by_cases none : fraction = []
  · simp [none, pointed, stops]
  · have point (rest : GoString) : readMantissa 10 decDigit? ⟨valueOf integer, 0, false, true, false⟩ (0x2E :: rest) =
        readMantissa 10 decDigit? ⟨valueOf integer, 0, true, true, false⟩ rest := by
      rw [readMantissa]
      rfl
    rw [pointed, if_neg none, cons_append, point, readMantissa_digits places, stops]
    simp [none, valueOf_append]

inductive ReadsExponent : GoString → ℤ → Prop
  | none : ReadsExponent [] 0
  | some {rest more : GoString} {down : Bool} {d : UInt8} {n : ℕ} (sign : splitSign rest = (down, d :: more))
      (digit : isDigit d) (reads : readExponent 0 false (d :: more) = (n, false, [])) :
      ReadsExponent (0x65 :: rest) (if down then -n else n)

theorem readsExponent_literal (small : ∀ v ∈ e, v.natAbs < 100000) :
    ReadsExponent (exponentText e) (e.getD 0) := by
  cases e with
  | none => exact .none
  | some e =>
    have read : readExponent 0 false (formatNat e.natAbs) = (e.natAbs, false, []) := by
      rw [readExponent_digits (digits_formatNat _) (by rw [valueOf_formatNat]; simpa using small e rfl), valueOf_formatNat]
      simp
    have signed : splitSign ((if e > 0 then lit "+" else []) ++ formatInt e) = (decide (e < 0), formatNat e.natAbs) := by
      rcases lt_trichotomy e 0 with negative | rfl | positive
      · simp [formatInt, negative, not_lt_of_gt negative, splitSign]
      · rfl
      · rw [if_pos positive, formatInt, if_neg (not_lt_of_gt positive)]
        simp [not_lt_of_gt positive, splitSign, lit]
    obtain ⟨d, rest, split⟩ := List.exists_cons_of_ne_nil (formatNat_ne_nil e.natAbs)
    have digit : isDigit d := digits_formatNat e.natAbs d (by simp [split])
    have value : (if decide (e < 0) = true then -(e.natAbs : ℤ) else e.natAbs) = e := by
      rcases lt_or_ge e 0 with negative | nonneg
      · rw [if_pos (by simpa using negative)]
        omega
      · rw [if_neg (by simpa using nonneg)]
        omega
    rw [split] at read signed
    have reads := ReadsExponent.some signed digit read
    rwa [value] at reads

theorem readFloat_of {body rest : GoString} {m : Mantissa} {exponent : ℤ}
    (sign : splitSign s = (negative, body)) (noX : ∀ x ∈ body, ¬ (asciiLower x == 0x78) = true)
    (mantissa : readMantissa 10 decDigit? ⟨0, 0, false, false, false⟩ body = (m, rest))
    (some : m.sawDigits)
    (plain : m.underscores = false) (reads : ReadsExponent rest exponent) :
    readFloat s =
      if 0 ≤ exponent - m.fraction then .some (negative, m.value * 10 ^ (exponent - m.fraction).toNat, 1)
      else .some (negative, m.value, 10 ^ (-(exponent - m.fraction)).toNat) := by
  have letter : asciiLower 0x65 = 0x65 := by decide
  unfold readFloat
  rw [sign]
  dsimp only
  split
  case h_1 x b more =>
    simp only [noX x (by simp), Bool.false_eq_true, if_false, mantissa, some, plain, Bool.not_true,
      Bool.false_or]
    cases reads with
    | none => simp
    | some sign digit reads =>
      simp [sign, digit, reads, letter]
  case h_2 other =>
    simp only [Bool.false_eq_true, if_false, mantissa, some, plain, Bool.not_true, Bool.false_or]
    cases reads with
    | none => simp
    | some sign digit reads =>
      simp [sign, digit, reads, letter]

theorem splitSign_literal (negative : Bool) (whole : Digits integer) (more : integer ≠ [])
    (rest : GoString) :
    splitSign ((if negative then [0x2D] else []) ++ (integer ++ rest)) = (negative, integer ++ rest) := by
  cases negative with
  | true => rfl
  | false =>
    obtain ⟨d, others, rfl⟩ := List.exists_cons_of_ne_nil more
    have digit := whole d (by simp)
    simp only [Bool.false_eq_true, if_false, List.nil_append, cons_append]
    rw [splitSign.eq_3] <;> rintro _ same <;> obtain ⟨rfl,
      -⟩ := List.cons.inj same <;> exact absurd digit (by decide)

theorem asciiLower_digit (digit : isDigit b) : asciiLower b = b := by
  obtain ⟨n, low, high, rfl⟩ : ∃ n, 48 ≤ n ∧ n ≤ 57 ∧ b = UInt8.ofNat n := by
    simp only [isDigit, Bool.and_eq_true, decide_eq_true_eq, UInt8.le_iff_toNat_le,
      UInt8.reduceToNat] at digit
    exact ⟨b.toNat, digit.1, digit.2, by simp⟩
  interval_cases n <;> decide

theorem noX_literal (whole : Digits integer) (places : Digits fraction) :
    ∀ x ∈ integer ++ (pointed fraction ++ exponentText e), ¬ (asciiLower x == 0x78) = true := by
  have noX {s : GoString} (digits : Digits s) : ∀ x ∈ s, ¬ (asciiLower x == 0x78) = true := by
    intro x mem isX
    rw [asciiLower_digit (digits x mem), beq_iff_eq] at isX
    exact absurd (isX ▸ digits x mem) (by decide)
  have point : ∀ x ∈ pointed fraction, ¬ (asciiLower x == 0x78) = true := by
    unfold pointed
    split_ifs
    · simp
    · exact List.forall_mem_cons.mpr ⟨by decide, noX places⟩
  have exponent : ∀ x ∈ exponentText e, ¬ (asciiLower x == 0x78) = true := by
    cases e with
    | none => simp [exponentText]
    | some e =>
      have letter : lit "e" = [0x65] := by decide
      have plus : lit "+" = [0x2B] := by decide
      rw [exponentText, letter, plus, formatInt]
      simp only [List.forall_mem_append]
      refine ⟨List.forall_mem_singleton.mpr (by decide), ?_, ?_⟩
      · split_ifs
        · exact List.forall_mem_singleton.mpr (by decide)
        · simp
      · split_ifs
        · exact List.forall_mem_cons.mpr ⟨by decide, noX (digits_formatNat _)⟩
        · exact noX (digits_formatNat _)
  simp only [List.forall_mem_append]
  exact ⟨noX whole, point, exponent⟩

theorem special_literal (negative : Bool) (whole : Digits integer) (more : integer ≠ [])
    (rest : GoString) :
    special ((if negative then [0x2D] else []) ++ (integer ++ rest)) = none := by
  obtain ⟨d, others, rfl⟩ := List.exists_cons_of_ne_nil more
  have digit := whole d (by simp)
  have notI : d ≠ 0x69 := by rintro rfl; exact absurd digit (by decide)
  have notN : d ≠ 0x6E := by rintro rfl; exact absurd digit (by decide)
  have inf : lit "inf" = [0x69, 0x6E, 0x66] := by decide
  have infinity : lit "infinity" = 0x69 :: lit "nfinity" := by decide
  have nan : lit "nan" = [0x6E, 0x61, 0x6E] := by decide
  have minus : asciiLower 0x2D ≠ 0x6E := by decide
  unfold special
  rw [splitSign_literal negative whole more]
  cases negative <;> simp [inf, infinity, nan, asciiLower_digit digit, notI, notN, minus]

theorem parseFloat_literal (negative : Bool) (whole : Digits integer) (more : integer ≠ [])
    (places : Digits fraction)
    (small : ∀ v ∈ e, v.natAbs < 100000) :
    parseFloat ((if negative then [0x2D] else []) ++ (integer ++ (pointed fraction ++ exponentText e))) =
      (rounded ((valueOf (integer ++ fraction) : ℚ) * (10 : ℚ) ^ (e.getD 0 - fraction.length))).map fun v =>
        .finite (if negative then -v else v) := by
  have reads := readFloat_of (splitSign_literal negative whole more _) (noX_literal whole places)
    (readMantissa_literal whole more places) rfl rfl (readsExponent_literal small)
  simp only [parseFloat, special_literal negative whole more, reads]
  rw [← parseDecimal_eq, parseDecimal]
  by_cases place : 0 ≤ e.getD 0 - fraction.length
  · rw [if_pos place, if_pos place]
  · rw [if_neg place, if_neg place]

end Literal

theorem readFloat_den (reads : readFloat s = some (negative, n, d)) : 0 < d := by
  unfold readFloat at reads
  split at reads
  split at reads
  split at reads
  next m rest _ =>
  by_cases some : (!m.sawDigits) = true
  · rw [if_pos some] at reads
    cases reads
  · rw [if_neg some] at reads
    extract_lets exponent at reads
    clear_value exponent
    split at reads
    · dsimp only at reads
      split_ifs at reads <;> cases reads <;> positivity
    · cases reads

theorem isDigit_of_readDigits {n m : Nat} (read : readDigits n digits = some m) :
    ∀ b ∈ digits, isDigit b := by
  induction digits generalizing n with
  | nil => simp
  | cons b rest ih =>
    obtain ⟨d, isDigit, read⟩ := Option.bind_eq_some_iff.mp read
    refine List.forall_mem_cons.mpr ⟨?_, ih read⟩
    unfold decDigit? at isDigit
    split at isDigit
    · assumption
    · cases isDigit

theorem byte_of_parseInt {n : Int} (read : parseInt s = some n) :
    ∀ b ∈ s, isDigit b ∨ b = 0x2B ∨ b = 0x2D := by
  unfold parseInt at read
  dsimp only at read
  split at read
  · cases read
  · obtain ⟨m, read, -⟩ := Option.bind_eq_some_iff.mp read
    have digits := isDigit_of_readDigits read
    unfold splitSign at digits
    split at digits
    · exact List.forall_mem_cons.mpr ⟨.inr (.inl rfl), fun b mem => .inl (digits b mem)⟩
    · exact List.forall_mem_cons.mpr ⟨.inr (.inr rfl), fun b mem => .inl (digits b mem)⟩
    · exact fun b mem => .inl (digits b mem)

theorem readDigits_of_digits (all : Digits digits) (n : Nat) :
    readDigits n digits = some (digits.foldl (fun v b => v * 10 + (b.toNat - 0x30)) n) := by
  induction digits generalizing n with
  | nil => rfl
  | cons b rest ih =>
    obtain ⟨first, others⟩ := List.forall_mem_cons.mp all
    rw [readDigits, decDigit?, if_pos first, Option.bind_some, ih others, foldl_cons]

theorem readDigits_formatNat (n : Nat) : readDigits 0 (formatNat n) = some n := by
  rw [readDigits_of_digits (digits_formatNat n)]
  exact congrArg some (valueOf_formatNat n)

theorem splitSign_digits (all : Digits digits) : splitSign digits = (false, digits) := by
  unfold splitSign
  split
  · exact absurd (all 0x2B List.mem_cons_self) (by decide)
  · exact absurd (all 0x2D List.mem_cons_self) (by decide)
  · rfl

theorem parseInt_formatInt {i : Int} (low : -2 ^ 63 ≤ i) (high : i < 2 ^ 63) :
    parseInt (formatInt i) = some i := by
  have some_digits : (formatNat i.natAbs).isEmpty = false := by
    simpa [List.isEmpty_iff] using formatNat_ne_nil i.natAbs
  unfold formatInt
  split
  next negative =>
    have sign : splitSign (0x2D :: formatNat i.natAbs) = (true, formatNat i.natAbs) := rfl
    simp only [parseInt, sign, some_digits, readDigits_formatNat, Option.bind_some, if_true,
      Bool.false_eq_true, if_false]
    rw [if_pos (by omega)]
    congr 1
    omega
  next positive =>
    simp only [parseInt, splitSign_digits (digits_formatNat _), some_digits, readDigits_formatNat,
      Option.bind_some, Bool.false_eq_true, if_false]
    rw [if_pos (by omega)]
    congr 1
    omega

end CincServer.Proof.Decimal
