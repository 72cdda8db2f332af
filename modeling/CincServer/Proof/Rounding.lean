import CincServer.Go.Strconv
import Mathlib.Algebra.Order.Field.Power
import Mathlib.Algebra.Order.Floor.Semifield
import Mathlib.Data.Nat.Prime.Basic
import Mathlib.Tactic.FieldSimp
import Mathlib.Tactic.Linarith
import Mathlib.Tactic.Positivity
import Mathlib.Tactic.Ring

/-!
# Rounding to doubles
-/

namespace CincServer.Proof.Rounding
open CincServer.Go

variable {d : ℕ} {k : ℤ} {b f : ℚ}

def halfEven (x : ℚ) : ℕ :=
  if 2 * (x - ⌊x⌋₊) < 1 then ⌊x⌋₊
  else if 1 < 2 * (x - ⌊x⌋₊) then ⌊x⌋₊ + 1
  else if ⌊x⌋₊ % 2 = 0 then ⌊x⌋₊ else ⌊x⌋₊ + 1

theorem roundHalfEven_eq (n : ℕ) (positive : 0 < d) : roundHalfEven n d = halfEven (n / d) := by
  have floor : ⌊(n : ℚ) / d⌋₊ = n / d := Nat.floor_div_eq_div n d
  have cast : (d : ℚ) * ((n : ℚ) / d - (n / d : ℕ)) = (n % d : ℕ) := by
    have split : (n : ℚ) = d * (n / d : ℕ) + (n % d : ℕ) := by exact_mod_cast (Nat.div_add_mod n d).symm
    have : (d : ℚ) ≠ 0 := by positivity
    field_simp
    linarith
  have positive' : (0 : ℚ) < d := by exact_mod_cast positive
  have below : 2 * ((n : ℚ) / d - (n / d : ℕ)) < 1 ↔ 2 * (n % d) < d := by
    rw [← mul_lt_mul_iff_right₀ positive', mul_one, mul_left_comm, cast]
    exact_mod_cast Iff.rfl
  have above : 1 < 2 * ((n : ℚ) / d - (n / d : ℕ)) ↔ d < 2 * (n % d) := by
    rw [← mul_lt_mul_iff_right₀ positive', mul_one, mul_left_comm, cast]
    exact_mod_cast Iff.rfl
  simp only [roundHalfEven, halfEven, floor, below, above]

theorem halfEven_natCast (m : ℕ) : halfEven m = m := by
  simp [halfEven]

theorem abs_halfEven_sub_le {x : ℚ} (nonneg : 0 ≤ x) : |(halfEven x : ℚ) - x| ≤ 1 / 2 := by
  have low := Nat.floor_le nonneg
  have high := Nat.lt_floor_add_one x
  unfold halfEven
  split_ifs <;> rw [abs_le] <;> push_cast <;> constructor <;> linarith

theorem halfEven_cases (x : ℚ) : halfEven x = ⌊x⌋₊ ∨ halfEven x = ⌊x⌋₊ + 1 := by
  unfold halfEven
  split_ifs <;> simp

theorem log_eq_iff {x : ℚ} (positive : 0 < x) :
    Int.log 2 x = k ↔ (2 : ℚ) ^ k ≤ x ∧ x < (2 : ℚ) ^ (k + 1) := by
  have two : 1 < 2 := by decide
  have low := Int.zpow_le_iff_le_log (x := k) two positive
  have high := Int.lt_zpow_iff_log_lt (x := k + 1) two positive
  push_cast at low high
  rw [low, high]
  omega

theorem zpow_toNat (nonneg : 0 ≤ k) : b ^ k = b ^ k.toNat := by
  rw [← zpow_natCast, Int.toNat_of_nonneg nonneg]

theorem zpow_neg_toNat (neg : ¬ 0 ≤ k) : b ^ k = (b ^ (-k).toNat)⁻¹ := by
  rw [← zpow_natCast, Int.toNat_of_nonneg (by omega), zpow_neg, inv_inv]

theorem floorLog2_eq {n : ℕ} (num : 0 < n) (den : 0 < d) :
    floorLog2 n d = Int.log 2 ((n : ℚ) / d) := by
  have num' : (0 : ℚ) < n := by exact_mod_cast num
  have den' : (0 : ℚ) < d := by exact_mod_cast den
  set guess : ℤ := (Nat.log2 n : ℤ) - Nat.log2 d with isGuess
  have below : (if 0 ≤ guess then d * 2 ^ guess.toNat ≤ n else d ≤ n * 2 ^ (-guess).toNat) ↔
      (2 : ℚ) ^ guess ≤ n / d := by
    rw [le_div_iff₀ den']
    split_ifs with up
    · rw [zpow_toNat up, mul_comm]
      exact_mod_cast Iff.rfl
    · rw [zpow_neg_toNat up, inv_mul_le_iff₀ (by positivity), mul_comm]
      exact_mod_cast Iff.rfl
  have numLow : (2 : ℚ) ^ (Nat.log2 n : ℤ) ≤ n := by
    rw [zpow_natCast]
    exact_mod_cast Nat.log2_self_le num.ne'
  have numHigh : (n : ℚ) < (2 : ℚ) ^ ((Nat.log2 n : ℤ) + 1) := by
    rw [← Nat.cast_succ, zpow_natCast]
    exact_mod_cast Nat.lt_log2_self
  have denLow : (2 : ℚ) ^ (Nat.log2 d : ℤ) ≤ d := by
    rw [zpow_natCast]
    exact_mod_cast Nat.log2_self_le den.ne'
  have denHigh : (d : ℚ) < (2 : ℚ) ^ ((Nat.log2 d : ℤ) + 1) := by
    rw [← Nat.cast_succ, zpow_natCast]
    exact_mod_cast Nat.lt_log2_self
  have two : (2 : ℚ) ≠ 0 := by norm_num
  have low : (2 : ℚ) ^ (guess - 1) ≤ n / d := by
    rw [le_div_iff₀ den']
    calc (2 : ℚ) ^ (guess - 1) * d ≤ (2 : ℚ) ^ (guess - 1) * (2 : ℚ) ^ ((Nat.log2 d : ℤ) + 1) := by gcongr
      _ = (2 : ℚ) ^ (Nat.log2 n : ℤ) := by rw [← zpow_add₀ two]; congr 1; omega
      _ ≤ n := numLow
  have high : (n : ℚ) / d < (2 : ℚ) ^ (guess + 1) := by
    rw [div_lt_iff₀ den']
    calc (n : ℚ) < (2 : ℚ) ^ ((Nat.log2 n : ℤ) + 1) := numHigh
      _ = (2 : ℚ) ^ (guess + 1) * (2 : ℚ) ^ (Nat.log2 d : ℤ) := by rw [← zpow_add₀ two]; congr 1; omega
      _ ≤ (2 : ℚ) ^ (guess + 1) * d := by gcongr
  have found : floorLog2 n d = if (2 : ℚ) ^ guess ≤ n / d then guess else guess - 1 :=
    if_congr below rfl rfl
  symm
  rw [log_eq_iff (by positivity), found]
  split_ifs with reaches
  · exact ⟨reaches, high⟩
  · exact ⟨low, by rw [sub_add_cancel]; exact not_le.mp reaches⟩

def lastPlace (x : ℚ) : ℤ := max (Int.log 2 x) (-1022) - 52

def rounded (x : ℚ) : Option ℚ :=
  if x = 0 then some 0
  else
    let value := (halfEven (x / (2 : ℚ) ^ lastPlace x) : ℚ) * (2 : ℚ) ^ lastPlace x
    if value < (2 : ℚ) ^ (1024 : ℤ) then some value else none

theorem nearestDouble_eq (n : ℕ) (den : 0 < d) : nearestDouble n d = rounded ((n : ℚ) / d) := by
  have den' : (d : ℚ) ≠ 0 := by exact_mod_cast den.ne'
  by_cases zero : n = 0
  · simp [nearestDouble, rounded, zero]
  · have num : 0 < n := Nat.pos_of_ne_zero zero
    have notZero : (n : ℚ) / d ≠ 0 := by positivity
    have place : max (floorLog2 n d) (-1022) - 52 = lastPlace ((n : ℚ) / d) := by
      rw [floorLog2_eq num den, lastPlace]
    have mantissa (p : ℤ) :
        (if 0 ≤ p then roundHalfEven n (d * 2 ^ p.toNat) else roundHalfEven (n * 2 ^ (-p).toNat) d) =
          halfEven ((n : ℚ) / d / (2 : ℚ) ^ p) := by
      split_ifs with up
      · rw [roundHalfEven_eq n (by positivity), zpow_toNat up, div_div]
        push_cast
        rfl
      · rw [roundHalfEven_eq _ den, zpow_neg_toNat up, div_inv_eq_mul]
        push_cast
        rw [div_mul_eq_mul_div]
    simp only [nearestDouble, rounded, if_neg zero, if_neg notZero, place, mantissa]

variable {x v : ℚ}

theorem rounded_eq_some (notZero : x ≠ 0) : rounded x = some v ↔
      (halfEven (x / (2 : ℚ) ^ lastPlace x) : ℚ) * (2 : ℚ) ^ lastPlace x = v ∧ v < (2 : ℚ) ^ (1024 : ℤ) := by
  simp only [rounded, if_neg notZero]
  split_ifs with small
  · simp only [Option.some.injEq]
    exact ⟨fun same => ⟨same, same ▸ small⟩, And.left⟩
  · simp only [false_iff, not_and]
    exact fun same => same ▸ small

theorem rounded_nonneg (rounds : rounded x = some v) : 0 ≤ v := by
  by_cases zero : x = 0
  · rw [rounded, if_pos zero, Option.some.injEq] at rounds
    exact rounds.le
  · rw [← ((rounded_eq_some zero).mp rounds).1]
    positivity

theorem rounded_bounds (nonneg : 0 ≤ x) (rounds : rounded x = some v) (positive : 0 < v) :
    v / 2 ≤ x ∧ x ≤ 2 * v := by
  have notZero : x ≠ 0 := by
    rintro rfl
    simp [rounded] at rounds
    exact positive.ne rounds
  obtain ⟨rfl, -⟩ := (rounded_eq_some notZero).mp rounds
  set unit := (2 : ℚ) ^ lastPlace x
  set scaled := x / unit with isScaled
  have unitPos : 0 < unit := by positivity
  have scale : scaled * unit = x := div_mul_cancel₀ x unitPos.ne'
  have near := abs_le.mp (abs_halfEven_sub_le (div_nonneg nonneg unitPos.le))
  rw [← isScaled] at near
  have some : (1 : ℚ) ≤ halfEven scaled := by
    have : halfEven scaled ≠ 0 := fun none => by simp [none] at positive
    exact_mod_cast Nat.one_le_iff_ne_zero.mpr this
  constructor
  · calc (halfEven scaled : ℚ) * unit / 2 = (halfEven scaled : ℚ) / 2 * unit := by ring
      _ ≤ scaled * unit := by gcongr; linarith
      _ = x := scale
  · calc x = scaled * unit := scale.symm
      _ ≤ 2 * halfEven scaled * unit := by gcongr; linarith
      _ = 2 * (halfEven scaled * unit) := by ring

theorem rounded_self (rounds : rounded x = some v) (positive : 0 < x)
    (normal : (2 : ℚ) ^ (-1022 : ℤ) ≤ v) :
    rounded v = some v := by
  obtain ⟨isDouble, finite⟩ := (rounded_eq_some positive.ne').mp rounds
  have positive' : 0 < v := lt_of_lt_of_le (by positivity) normal
  have two : (2 : ℚ) ≠ 0 := by norm_num
  set mantissa := halfEven (x / (2 : ℚ) ^ lastPlace x)
  have scaled : x / (2 : ℚ) ^ lastPlace x < (2 : ℕ) ^ 53 := by
    rw [div_lt_iff₀ (by positivity), Nat.cast_ofNat, ← zpow_natCast, ← zpow_add₀ two]
    refine lt_of_lt_of_le (Int.lt_zpow_succ_log_self (b := 2) (by norm_num) x) ?_
    rw [Nat.cast_ofNat]
    exact zpow_le_zpow_right₀ (by norm_num) (by rw [lastPlace]; omega)
  have carries : mantissa ≤ 2 ^ 53 := by
    have floor : ⌊x / (2 : ℚ) ^ lastPlace x⌋₊ < 2 ^ 53 :=
      (Nat.floor_lt (by positivity)).mpr (by exact_mod_cast scaled)
    rcases halfEven_cases (x / (2 : ℚ) ^ lastPlace x) with same | same <;> omega
  have place : lastPlace v = Int.log 2 v - 52 := by
    have : (-1022 : ℤ) ≤ Int.log 2 v :=
      (Int.zpow_le_iff_le_log (by norm_num) positive').mp (by exact_mod_cast normal)
    rw [lastPlace]
    omega
  have low := Int.zpow_log_le_self (b := 2) (by norm_num) positive'
  have whole : ∃ m : ℕ, v / (2 : ℚ) ^ lastPlace v = m := by
    rcases le_or_gt (lastPlace v) (lastPlace x) with within | above
    · refine ⟨mantissa * 2 ^ (lastPlace x - lastPlace v).toNat, ?_⟩
      rw [div_eq_iff (by positivity)]
      push_cast
      rw [← zpow_natCast, Int.toNat_of_nonneg (by omega), mul_assoc, ← zpow_add₀ two, sub_add_cancel]
      exact isDouble.symm
    · -- the rounding has carried into the next power of two
      have full : mantissa = 2 ^ 53 := by
        refine le_antisymm carries ?_
        have : (2 : ℚ) ^ (53 : ℤ) * (2 : ℚ) ^ lastPlace x ≤ mantissa * (2 : ℚ) ^ lastPlace x := by
          rw [isDouble, ← zpow_add₀ two]
          have exponents : 53 + lastPlace x ≤ Int.log 2 v := by omega
          exact (zpow_le_zpow_right₀ (by norm_num) exponents).trans (by exact_mod_cast low)
        exact_mod_cast le_of_mul_le_mul_right this (by positivity)
      have power : v = (2 : ℚ) ^ (lastPlace x + 53) := by
        rw [← isDouble, full, zpow_add₀ two, mul_comm]
        norm_cast
      have log : Int.log 2 v = lastPlace x + 53 := by
        rw [power]
        exact_mod_cast Int.log_zpow (R := ℚ) (b := 2) (by norm_num) (lastPlace x + 53)
      have unit : (2 : ℚ) ^ (lastPlace x + 53) = (2 : ℚ) ^ (52 : ℤ) * (2 : ℚ) ^ (lastPlace x + 53 - 52) := by
        rw [← zpow_add₀ two]
        congr 1
        omega
      refine ⟨2 ^ 52, ?_⟩
      rw [div_eq_iff (by positivity), place, log, power, unit]
      norm_cast
  obtain ⟨m, exact'⟩ := whole
  rw [rounded_eq_some positive'.ne', exact', halfEven_natCast, ← exact',
    div_mul_cancel₀ _ (by positivity)]
  exact ⟨rfl, finite⟩

theorem parseDecimal_eq (c : ℕ) (p : ℤ) : parseDecimal c p = rounded ((c : ℚ) * (10 : ℚ) ^ p) := by
  unfold parseDecimal
  split_ifs with up
  · rw [nearestDouble_eq _ Nat.one_pos, zpow_toNat up]
    push_cast
    rw [div_one]
  · rw [nearestDouble_eq c (by positivity), zpow_neg_toNat up, ← div_eq_mul_inv]
    push_cast
    rfl

theorem toNat_num_div_den (nonneg : 0 ≤ x) : (x.num.toNat : ℚ) / x.den = x := by
  have num : ((x.num.toNat : ℤ) : ℚ) =
      x.num := by rw [Int.toNat_of_nonneg (Rat.num_nonneg.mpr nonneg)]
  rw [← Int.cast_natCast, num, Rat.num_div_den]

theorem nearestDecimal_parses (nonneg : 0 ≤ f) {more c : ℕ} {p : ℤ}
    (found : nearestDecimal f more = some (c, p)) : parseDecimal c p = some f := by
  simp only [nearestDecimal, Bool.and_eq_true, beq_iff_eq] at found
  split_ifs at found with both down up
  · simp only [Option.some.injEq, Prod.mk.injEq] at found
    obtain ⟨rfl, rfl⟩ := found
    rw [roundHalfEven_eq _ (Rat.den_pos _), toNat_num_div_den (by positivity)]
    rcases halfEven_cases (f / (10 : ℚ) ^ (Int.log 10 f - more)) with same | same
    · exact same ▸ both.1
    · exact same ▸ both.2
  · simp only [Option.some.injEq, Prod.mk.injEq] at found
    obtain ⟨rfl, rfl⟩ := found
    exact down
  · simp only [Option.some.injEq, Prod.mk.injEq] at found
    obtain ⟨rfl, rfl⟩ := found
    exact up

theorem rounded_den (rounds : rounded x = some v) : ∃ k, v.den = 2 ^ k := by
  by_cases zero : x = 0
  · simp only [rounded, if_pos zero, Option.some.injEq] at rounds
    exact ⟨0, by simp [← rounds]⟩
  · obtain ⟨rfl, -⟩ := (rounded_eq_some zero).mp rounds
    set m := halfEven (x / (2 : ℚ) ^ lastPlace x)
    by_cases up : 0 ≤ lastPlace x
    · refine ⟨0, ?_⟩
      rw [zpow_toNat up]
      exact_mod_cast Rat.den_natCast (m * 2 ^ (lastPlace x).toNat)
    · rw [zpow_neg_toNat up, ← div_eq_mul_inv]
      have divides := Rat.den_dvd (m : ℤ) (2 ^ (-lastPlace x).toNat)
      rw [Rat.divInt_eq_div] at divides
      push_cast at divides
      obtain ⟨k, -, den⟩ := (Nat.dvd_prime_pow Nat.prime_two).mp (by exact_mod_cast divides)
      exact ⟨k, by exact_mod_cast den⟩

theorem exactDecimal_eq (nonneg : 0 ≤ f) (dyadic : ∃ k, f.den = 2 ^ k) :
    ((exactDecimal f).1 : ℚ) * (10 : ℚ) ^ (exactDecimal f).2 = f := by
  obtain ⟨k, den⟩ := dyadic
  have five : (5 : ℚ) ^ k * ((10 : ℚ) ^ k)⁻¹ = (f.den : ℚ)⁻¹ := by
    rw [den, ← div_eq_mul_inv, ← div_pow, Nat.cast_pow, ← inv_pow]
    norm_num
  rw [exactDecimal, den, Nat.log2_two_pow]
  push_cast
  rw [zpow_neg, zpow_natCast, mul_assoc, five, ← div_eq_mul_inv, toNat_num_div_den nonneg]

theorem parseDecimal_shortest (rounds : rounded x = some v) (positive : 0 < x)
    (normal : (2 : ℚ) ^ (-1022 : ℤ) ≤ v) :
    parseDecimal (shortest v).1 (shortest v).2 = some v := by
  have nonneg : 0 ≤ v := le_trans (by positivity) normal
  unfold shortest
  cases found : (List.range 17).findSome? (nearestDecimal v) with
  | none =>
    rw [Option.getD_none, parseDecimal_eq, exactDecimal_eq nonneg (rounded_den rounds)]
    exact rounded_self rounds positive normal
  | some decimal =>
    obtain ⟨more, -, found⟩ := List.exists_of_findSome?_eq_some found
    exact nearestDecimal_parses nonneg found

end CincServer.Proof.Rounding
