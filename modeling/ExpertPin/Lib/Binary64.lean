import Mathlib.Data.Int.Log
import Mathlib.Data.Rat.Floor
import Mathlib.Tactic.Positivity

/-!
# Binary64 arithmetic over exact rationals

A finite double is the rational it denotes, and every operation rounds the
exact result to nearest, ties to even.  The exponent is not bounded above here:
a result is too large for a double when it reaches `overflow`.  All that is
used of rounding is its error bound, and that it is monotone.
-/

namespace ExpertPin.Binary64

/-- The nearest integer, ties to even. -/
def roundEven (x : ℚ) : ℤ :=
  if x - ⌊x⌋ < 1 / 2 then ⌊x⌋
  else if x - ⌊x⌋ = 1 / 2 ∧ Even ⌊x⌋ then ⌊x⌋
  else ⌊x⌋ + 1

theorem abs_roundEven_sub_le (x : ℚ) : |(roundEven x : ℚ) - x| ≤ 1 / 2 := by
  have hlo := Int.floor_le x
  have hhi := Int.lt_floor_add_one x
  rw [abs_le]
  unfold roundEven
  split_ifs with h₁ h₂
  · constructor <;> linarith
  · constructor <;> linarith [h₂.1]
  · push_cast
    constructor <;> linarith

/-- The exponent of the last place of a double, subnormal ones included. -/
def ulpExponent (x : ℚ) : ℤ := max (Int.log 2 |x| - 52) (-1074)

/-- The double nearest to an exact result. -/
def round64 (x : ℚ) : ℚ := roundEven (x / 2 ^ ulpExponent x) * 2 ^ ulpExponent x

/-- The least magnitude that is too large for a double. -/
def overflow : ℚ := 2 ^ 1024

/-- The relative error of a rounding. -/
def unitRoundoff : ℚ := 1 / 2 ^ 53

/-- The absolute error of a rounding in the subnormal range. -/
def underflowError : ℚ := 2 ^ (-1075 : ℤ)

theorem underflowError_nonneg : 0 ≤ underflowError := (zpow_pos two_pos _).le

theorem round64_zero : round64 0 = 0 := by
  have hzero : roundEven 0 = 0 := by norm_num [roundEven]
  rw [round64, zero_div, hzero, Int.cast_zero, zero_mul]

/-- Rounding is off by at most half a unit in the last place. -/
theorem abs_round64_sub_le_ulp (x : ℚ) : |round64 x - x| ≤ 1 / 2 * 2 ^ ulpExponent x := by
  have hulp : (0 : ℚ) < 2 ^ ulpExponent x := zpow_pos two_pos _
  have h := mul_le_mul_of_nonneg_right (abs_roundEven_sub_le (x / 2 ^ ulpExponent x)) hulp.le
  rw [← abs_of_pos hulp, ← abs_mul, abs_of_pos hulp, sub_mul, div_mul_cancel₀ _ hulp.ne'] at h
  exact h

/-- The error relative to the exact result, and what underflow adds to it. -/
theorem abs_round64_sub_le (x : ℚ) :
    |round64 x - x| ≤ unitRoundoff * |x| + underflowError := by
  rcases eq_or_ne x 0 with rfl | hx
  · rw [round64_zero, sub_self, abs_zero, mul_zero, zero_add]
    exact underflowError_nonneg
  · refine (abs_round64_sub_le_ulp x).trans ?_
    rcases max_choice (Int.log 2 |x| - 52) (-1074) with h | h
    · -- a normal result: its last place is at most `2 ^ -52` of it
      have hlog := Int.zpow_log_le_self (b := 2) (by norm_num) (abs_pos.mpr hx)
      push_cast at hlog
      rw [ulpExponent, h, zpow_sub₀ two_ne_zero]
      calc 1 / 2 * ((2 : ℚ) ^ Int.log 2 |x| / 2 ^ (52 : ℤ))
          = unitRoundoff * 2 ^ Int.log 2 |x| := by unfold unitRoundoff; norm_num; ring
        _ ≤ unitRoundoff * |x| := mul_le_mul_of_nonneg_left hlog (by norm_num [unitRoundoff])
        _ ≤ unitRoundoff * |x| + underflowError :=
            le_add_of_nonneg_right underflowError_nonneg
    · have hunit : 0 ≤ unitRoundoff * |x| :=
        mul_nonneg (by norm_num [unitRoundoff]) (abs_nonneg x)
      have hsub : (1 : ℚ) / 2 * 2 ^ (-1074 : ℤ) = underflowError := by
        rw [underflowError, show (-1075 : ℤ) = -1074 - 1 from rfl, zpow_sub_one₀ two_ne_zero,
          mul_comm, one_div]
      rw [ulpExponent, h, hsub]
      exact le_add_of_nonneg_left hunit

/-! ## Rounding is monotone -/

theorem roundEven_mono {x y : ℚ} (h : x ≤ y) : roundEven x ≤ roundEven y := by
  by_contra hlt
  -- then both are off by a half in opposite directions, and equal
  have hsucc : (roundEven y : ℚ) + 1 ≤ roundEven x := by exact_mod_cast not_le.mp hlt
  have hx := (abs_le.mp (abs_roundEven_sub_le x)).2
  have hy := (abs_le.mp (abs_roundEven_sub_le y)).1
  obtain rfl : x = y := le_antisymm h (by linarith)
  exact hlt le_rfl

theorem roundEven_intCast (n : ℤ) : roundEven n = n := by
  unfold roundEven
  rw [Int.floor_intCast, sub_self, if_pos (by norm_num)]

/-- In units of the last place a power of two that is not below it is an integer. -/
theorem exists_zpow_eq {e k : ℤ} (h : e ≤ k) : ∃ n : ℤ, (2 : ℚ) ^ k = n * 2 ^ e := by
  obtain ⟨n, rfl⟩ := Int.le.dest h
  refine ⟨2 ^ n, ?_⟩
  rw [zpow_add₀ two_ne_zero, zpow_natCast, mul_comm]
  push_cast
  rfl

theorem round64_le_zpow {x : ℚ} {k : ℤ} (hx : x ≤ 2 ^ k) (hk : ulpExponent x ≤ k) :
    round64 x ≤ 2 ^ k := by
  obtain ⟨n, hn⟩ := exists_zpow_eq hk
  have hulp : (0 : ℚ) < 2 ^ ulpExponent x := zpow_pos two_pos _
  rw [hn] at hx ⊢
  have hle : roundEven (x / 2 ^ ulpExponent x) ≤ n := by
    rw [← roundEven_intCast n]
    exact roundEven_mono ((div_le_iff₀ hulp).mpr hx)
  exact mul_le_mul_of_nonneg_right (by exact_mod_cast hle) hulp.le

theorem zpow_le_round64 {x : ℚ} {k : ℤ} (hx : 2 ^ k ≤ x) (hk : ulpExponent x ≤ k) :
    2 ^ k ≤ round64 x := by
  obtain ⟨n, hn⟩ := exists_zpow_eq hk
  have hulp : (0 : ℚ) < 2 ^ ulpExponent x := zpow_pos two_pos _
  rw [hn] at hx ⊢
  have hle : n ≤ roundEven (x / 2 ^ ulpExponent x) := by
    rw [← roundEven_intCast n]
    exact roundEven_mono ((le_div_iff₀ hulp).mpr hx)
  exact mul_le_mul_of_nonneg_right (by exact_mod_cast hle) hulp.le

theorem ulpExponent_mono {x y : ℚ} (hx : 0 < x) (h : x ≤ y) : ulpExponent x ≤ ulpExponent y := by
  have hlog := Int.log_mono_right (b := 2) hx h
  rw [ulpExponent, ulpExponent, abs_of_pos hx, abs_of_pos (hx.trans_le h)]
  omega

theorem round64_nonneg {x : ℚ} (hx : 0 ≤ x) : 0 ≤ round64 x := by
  have hulp : (0 : ℚ) < 2 ^ ulpExponent x := zpow_pos two_pos _
  have hle := roundEven_mono (div_nonneg hx hulp.le)
  rw [← Int.cast_zero, roundEven_intCast] at hle
  exact mul_nonneg (by exact_mod_cast hle) hulp.le

theorem round64_mono {x y : ℚ} (hx : 0 ≤ x) (h : x ≤ y) : round64 x ≤ round64 y := by
  rcases hx.eq_or_lt with rfl | hpos
  · rw [round64_zero]
    exact round64_nonneg h
  · rcases (ulpExponent_mono hpos h).eq_or_lt with heq | hlt
    · have hulp : (0 : ℚ) < 2 ^ ulpExponent y := zpow_pos two_pos _
      have hle := roundEven_mono (div_le_div_of_nonneg_right h hulp.le)
      rw [round64, round64, heq]
      exact mul_le_mul_of_nonneg_right (by exact_mod_cast hle) hulp.le
    · -- a power of two lies between the two, and neither rounding crosses it
      have hypos : 0 < y := hpos.trans_le h
      have hxlt := Int.lt_zpow_succ_log_self (b := 2) (by norm_num) x
      have hyle := Int.zpow_log_le_self (b := 2) (by norm_num) hypos
      push_cast at hxlt hyle
      rw [ulpExponent, ulpExponent, abs_of_pos hpos, abs_of_pos hypos] at hlt
      have hlog : Int.log 2 x + 1 ≤ Int.log 2 y := by omega
      have hpow : (2 : ℚ) ^ (Int.log 2 x + 1) ≤ 2 ^ Int.log 2 y :=
        zpow_le_zpow_right₀ (by norm_num) hlog
      have hxk : ulpExponent x ≤ Int.log 2 y := by
        rw [ulpExponent, abs_of_pos hpos]
        omega
      have hyk : ulpExponent y ≤ Int.log 2 y := by
        rw [ulpExponent, abs_of_pos hypos]
        omega
      exact (round64_le_zpow (hxlt.le.trans hpow) hxk).trans (zpow_le_round64 hyle hyk)

/-- The quotient of two doubles, the larger one below, is at most one. -/
theorem round64_div_le_one {x y : ℚ} (hx : 0 ≤ x) (h : x ≤ y) : round64 (x / y) ≤ 1 := by
  have hle : x / y ≤ 1 := div_le_one_of_le₀ h (hx.trans h)
  have hmono := round64_mono (div_nonneg hx (hx.trans h)) hle
  have hone : round64 1 ≤ (2 : ℚ) ^ (0 : ℤ) :=
    round64_le_zpow (by norm_num) (by simp [ulpExponent])
  simpa using hmono.trans hone

/-! ## Quotients of counts -/

theorem unitRoundoff_pos : 0 < unitRoundoff := by norm_num [unitRoundoff]

theorem underflowError_le : underflowError ≤ unitRoundoff := by
  have h : (2 : ℚ) ^ (-1075 : ℤ) ≤ 2 ^ (-53 : ℤ) :=
    zpow_le_zpow_right₀ (by norm_num) (by norm_num)
  refine h.trans ?_
  norm_num [unitRoundoff]

/-- A rounded value of magnitude at most `m` is off by at most this much. -/
theorem abs_round64_sub_le_of_abs_le {x m : ℚ} (hx : |x| ≤ m) :
    |round64 x - x| ≤ unitRoundoff * (m + 1) := by
  have h := abs_round64_sub_le x
  have hm := mul_le_mul_of_nonneg_left hx unitRoundoff_pos.le
  have hu := underflowError_le
  linarith

/-- Converting a count to a double is off by at most two units of roundoff. -/
theorem abs_round64_natCast_sub_le (n : ℕ) :
    |round64 n - n| ≤ 2 * unitRoundoff * n := by
  rcases Nat.eq_zero_or_pos n with rfl | hn
  · simp [round64_zero]
  · have hone : (1 : ℚ) ≤ n := by exact_mod_cast hn
    have h := abs_round64_sub_le_of_abs_le (Nat.abs_cast n).le
    have hmul := mul_le_mul_of_nonneg_left hone unitRoundoff_pos.le
    linarith

/-- The quotient of two converted counts is near the quotient of the counts. -/
theorem abs_div_round64_sub_le {a b : ℕ} (hab : a ≤ b) (hb : 0 < b) :
    |round64 a / round64 b - a / b| ≤ 5 * unitRoundoff := by
  have hu := unitRoundoff_pos
  have hu' : unitRoundoff ≤ 1 / 100 := by norm_num [unitRoundoff]
  have ha' : (0 : ℚ) ≤ a := Nat.cast_nonneg a
  have hb' : (0 : ℚ) < b := by exact_mod_cast hb
  have hab' : (a : ℚ) ≤ b := by exact_mod_cast hab
  have hx := abs_round64_natCast_sub_le a
  have hy := abs_round64_natCast_sub_le b
  generalize round64 a = x at *
  generalize round64 b = y at *
  have hshrink : 4 * b ≤ 5 * y := by
    have h := mul_le_mul_of_nonneg_right hu' hb'.le
    linarith [(abs_le.mp hy).1]
  have hypos : 0 < y := by linarith
  have hcross : |x * b - y * a| ≤ 4 * unitRoundoff * a * b := by
    calc |x * b - y * a| = |(x - a) * b - (y - b) * a| := by congr 1; ring
      _ ≤ |x - a| * b + |y - b| * a := by
          refine (abs_sub _ _).trans ?_
          rw [abs_mul, abs_mul, abs_of_pos hb', abs_of_nonneg ha']
      _ ≤ 2 * unitRoundoff * a * b + 2 * unitRoundoff * b * a :=
          add_le_add (mul_le_mul_of_nonneg_right hx hb'.le) (mul_le_mul_of_nonneg_right hy ha')
      _ = 4 * unitRoundoff * a * b := by ring
  rw [div_sub_div _ _ hypos.ne' hb'.ne', abs_div, abs_of_pos (mul_pos hypos hb'),
    div_le_iff₀ (mul_pos hypos hb')]
  refine hcross.trans ?_
  have hden : 4 * a * b ≤ 5 * (y * b) := by
    have h := mul_le_mul_of_nonneg_right (show 4 * (a : ℚ) ≤ 5 * y by linarith) hb'.le
    linarith
  have h := mul_le_mul_of_nonneg_left hden hu.le
  linarith

/-- So the two quotients still hardly differ when both are rounded. -/
theorem abs_round64_div_sub_le {a b : ℕ} (hab : a ≤ b) (hb : 0 < b) :
    |round64 (a / b) - round64 (round64 a / round64 b)| ≤ 10 * unitRoundoff := by
  have hu := unitRoundoff_pos
  have hu' : unitRoundoff ≤ 1 / 100 := by norm_num [unitRoundoff]
  have hquot := abs_div_round64_sub_le hab hb
  have hle : |(a : ℚ) / b| ≤ 1 := by
    rw [abs_of_nonneg (by positivity)]
    exact div_le_one_of_le₀ (by exact_mod_cast hab) (Nat.cast_nonneg b)
  have hle' : |round64 a / round64 b| ≤ 1 + 5 * unitRoundoff := by
    have h := abs_sub_abs_le_abs_sub (round64 a / round64 b) ((a : ℚ) / b)
    linarith
  have h₁ := abs_round64_sub_le_of_abs_le hle
  have h₂ := abs_round64_sub_le_of_abs_le hle'
  have hsq : unitRoundoff * (5 * unitRoundoff) ≤ unitRoundoff * (1 / 20) :=
    mul_le_mul_of_nonneg_left (by linarith) hu.le
  rw [abs_le] at h₁ h₂ hquot ⊢
  constructor <;> linarith

/-! ## Comparing doubles -/

/-- `math.isclose` on finite doubles. -/
def isclose (a b relTol absTol : ℚ) : Bool :=
  a = b ∨ |round64 (b - a)| ≤ |round64 (relTol * b)| ∨
    |round64 (b - a)| ≤ |round64 (relTol * a)| ∨ |round64 (b - a)| ≤ absTol

/-- Doubles whose exact difference is clearly below the absolute tolerance. -/
theorem isclose_of_abs_sub_le {a b relTol absTol : ℚ} (h : |b - a| ≤ 10 * unitRoundoff)
    (htol : 12 * unitRoundoff ≤ absTol) : isclose a b relTol absTol = true := by
  have hu' : unitRoundoff ≤ 1 / 100 := by norm_num [unitRoundoff]
  have hround := abs_round64_sub_le_of_abs_le h
  have hdiff := abs_sub_abs_le_abs_sub (round64 (b - a)) (b - a)
  have hsq : unitRoundoff * (10 * unitRoundoff) ≤ unitRoundoff * (1 / 10) :=
    mul_le_mul_of_nonneg_left (by linarith) unitRoundoff_pos.le
  have hclose : |round64 (b - a)| ≤ absTol := by linarith [unitRoundoff_pos]
  unfold isclose
  exact decide_eq_true (.inr (.inr (.inr hclose)))

end ExpertPin.Binary64
