import Mathlib.Algebra.Order.Field.Power
import Mathlib.Data.Rat.Cast.Order
import Mathlib.Tactic.FieldSimp
import Mathlib.Tactic.Linarith
import Mathlib.Tactic.Positivity
import Mathlib.Tactic.Ring
import PhasedTests.Decimal.Nearest

/-!
# The double nearest to a quotient

A quotient that lies closer to a double than to its two neighbours is rounded to that double, and
one halfway to a neighbour is if the double's mantissa is even. The exponent that rounding starts
from may be one below that of the double, when the quotient lies just under a power of two.
-/

namespace PhasedTests.Decimal

/-- How far the numbers that round to a mantissa reach below it, in units of its last place: the
double below a power of two is only half as far away. -/
def reachBelow (mantissa : ℕ) : ℚ :=
  if mantissa = implicitBit then 1 / 4 else 1 / 2

/-- A number, in units of a mantissa's last place, that rounds to the mantissa. -/
structure RoundsTo (mantissa : ℕ) (units : ℚ) : Prop where
  low_le : mantissa - reachBelow mantissa ≤ units
  le_high : units ≤ mantissa + 1 / 2
  low_lt : mantissa % 2 = 1 → mantissa - reachBelow mantissa < units
  lt_high : mantissa % 2 = 1 → units < mantissa + 1 / 2

/-- The two natural powers that stand for a power with a whole exponent. -/
theorem pow_toNat_div (base : ℕ) (exponent : ℤ) :
    ((base ^ exponent.toNat : ℕ) : ℚ) / (base ^ (-exponent).toNat : ℕ) = (base : ℚ) ^ exponent := by
  rcases le_total 0 exponent with hpos | hneg
  · lift exponent to ℕ using hpos
    simp
  · obtain ⟨n, rfl⟩ : ∃ n : ℕ, exponent = -n := ⟨(-exponent).toNat, by omega⟩
    simp

/-- A power of two is a quotient of two naturals, one of which is 1. -/
theorem powerOfTwo_div (exponent : ℤ) :
    (powerOfTwo exponent : ℚ) / powerOfTwo (-exponent) = 2 ^ exponent :=
  pow_toNat_div 2 exponent

/-- Both of these naturals are positive. -/
theorem powerOfTwo_pos (exponent : ℤ) : 0 < powerOfTwo exponent :=
  Nat.pow_pos (by decide)

/-- A quotient rounds to the whole number that it is closest to. -/
theorem roundHalfEven_eq {numerator denominator whole : ℕ} (hpos : 0 < denominator)
    (hlow : 2 * (whole * denominator) ≤ 2 * numerator + denominator)
    (hhigh : 2 * numerator ≤ 2 * (whole * denominator) + denominator)
    (hodd : whole % 2 = 1 → 2 * (whole * denominator) < 2 * numerator + denominator ∧
      2 * numerator < 2 * (whole * denominator) + denominator) :
    roundHalfEven numerator denominator = whole := by
  have hdivision := Nat.div_add_mod numerator denominator
  have hremainder := Nat.mod_lt numerator hpos
  unfold roundHalfEven
  dsimp only
  generalize numerator / denominator = quotient at *
  generalize numerator % denominator = remainder at *
  rw [Nat.mul_comm] at hdivision
  have hle : quotient ≤ whole := by
    by_contra hgt
    have := Nat.mul_le_mul_right denominator (show whole + 1 ≤ quotient by omega)
    rw [Nat.add_mul] at this
    omega
  have hge : whole ≤ quotient + 1 := by
    by_contra hlt
    have := Nat.mul_le_mul_right denominator (show quotient + 2 ≤ whole by omega)
    rw [Nat.add_mul] at this
    omega
  rcases Nat.lt_or_eq_of_le hle with hlt | rfl
  · obtain rfl : whole = quotient + 1 := by omega
    rw [Nat.add_mul] at hlow hhigh hodd
    split
    · omega
    · split
      · rfl
      · split <;> omega
  · split
    · rfl
    · split
      · omega
      · split <;> omega

/-- Comparing two products with powers of two is comparing the quotient with one. -/
private theorem mul_powerOfTwo_lt_iff (numerator : ℕ) {denominator : ℕ} (hpos : 0 < denominator)
    (factor : ℕ) (exponent : ℤ) :
    numerator * powerOfTwo (-exponent) < factor * (denominator * powerOfTwo exponent) ↔
      (numerator : ℚ) / denominator < factor * 2 ^ exponent := by
  have hdenominator : (0 : ℚ) < denominator := by exact_mod_cast hpos
  have hscale : (0 : ℚ) < powerOfTwo (-exponent) := by exact_mod_cast powerOfTwo_pos _
  rw [← powerOfTwo_div, div_lt_iff₀ hdenominator, mul_div_assoc', div_mul_eq_mul_div,
    lt_div_iff₀ hscale, ← Nat.cast_lt (α := ℚ)]
  push_cast
  rw [mul_assoc (factor : ℚ), mul_comm (denominator : ℚ)]

private theorem two_pow_le_of_log2 {n : ℕ} (hpos : 0 < n) : (2 : ℚ) ^ (n.log2 : ℤ) ≤ n := by
  rw [zpow_natCast]
  exact_mod_cast Nat.log2_self_le (by omega)

private theorem lt_two_pow_of_log2 (n : ℕ) : (n : ℚ) < 2 ^ ((n.log2 : ℤ) + 1) := by
  rw [← Nat.cast_add_one, zpow_natCast]
  exact_mod_cast Nat.lt_log2_self

/-- A quotient lies between two powers of two that the sizes of its parts give. -/
private theorem quotient_bounds {numerator denominator : ℕ} (hnumerator : 0 < numerator)
    (hdenominator : 0 < denominator) :
    (2 : ℚ) ^ ((numerator.log2 : ℤ) - denominator.log2 - 1) < numerator / denominator ∧
      (numerator : ℚ) / denominator < 2 ^ ((numerator.log2 : ℤ) - denominator.log2 + 1) := by
  have hpos : (0 : ℚ) < denominator := by exact_mod_cast hdenominator
  constructor
  · rw [lt_div_iff₀ hpos]
    calc (2 : ℚ) ^ ((numerator.log2 : ℤ) - denominator.log2 - 1) * denominator
        < 2 ^ ((numerator.log2 : ℤ) - denominator.log2 - 1) * 2 ^ ((denominator.log2 : ℤ) + 1) :=
          mul_lt_mul_of_pos_left (lt_two_pow_of_log2 _) (by positivity)
      _ = 2 ^ (numerator.log2 : ℤ) := by
          rw [← zpow_add₀ (by norm_num)]
          congr 1
          ring
      _ ≤ numerator := two_pow_le_of_log2 hnumerator
  · rw [div_lt_iff₀ hpos]
    calc (numerator : ℚ) < 2 ^ ((numerator.log2 : ℤ) + 1) := lt_two_pow_of_log2 _
      _ = 2 ^ ((numerator.log2 : ℤ) - denominator.log2 + 1) * 2 ^ (denominator.log2 : ℤ) := by
          rw [← zpow_add₀ (by norm_num)]
          congr 1
          ring
      _ ≤ 2 ^ ((numerator.log2 : ℤ) - denominator.log2 + 1) * denominator :=
          mul_le_mul_of_nonneg_left (two_pow_le_of_log2 hdenominator) (by positivity)

/-- The exponent that a quotient is rounded with: the quotient has fifty-three binary places above
it, or fewer if it is the least one. -/
private theorem nearestBits_exponent {numerator denominator : ℕ} (hnumerator : 0 < numerator)
    (hdenominator : 0 < denominator) :
    ∃ exponent : ℤ, -1074 ≤ exponent ∧
      (numerator : ℚ) / denominator < 2 ^ 53 * 2 ^ exponent ∧
      (exponent = -1074 ∨ (2 : ℚ) ^ 52 * 2 ^ exponent ≤ numerator / denominator) ∧
      nearestBits numerator denominator =
        min (roundHalfEven (numerator * powerOfTwo (-exponent))
          (denominator * powerOfTwo exponent) +
          (exponent + 1074).toNat * implicitBit) infinityBits := by
  obtain ⟨hlow, hhigh⟩ := quotient_bounds hnumerator hdenominator
  have hjoin (m : ℕ) (exponent : ℤ) : (2 : ℚ) ^ m * 2 ^ exponent = 2 ^ (m + exponent) := by
    rw [← zpow_natCast, ← zpow_add₀ (by norm_num)]
  unfold nearestBits
  dsimp only
  generalize hguess : max ((numerator.log2 : ℤ) - denominator.log2 - 53) (-1074) = guess
  have htest := mul_powerOfTwo_lt_iff numerator hdenominator (2 * implicitBit) guess
  have hfactor : ((2 * implicitBit : ℕ) : ℚ) = 2 ^ 53 := by norm_num [implicitBit]
  rw [hfactor] at htest
  by_cases hfits : (numerator : ℚ) / denominator < 2 ^ 53 * 2 ^ guess
  · rw [if_pos (htest.mpr hfits)]
    refine ⟨guess, by omega, hfits, ?_, rfl⟩
    by_cases hleast : guess = -1074
    · exact Or.inl hleast
    · right
      rw [hjoin]
      refine le_trans (zpow_le_zpow_right₀ (by norm_num) ?_) hlow.le
      push_cast
      omega
  · rw [if_neg fun h => hfits (htest.mp h)]
    refine ⟨guess + 1, by omega, ?_, Or.inr ?_, rfl⟩
    · rw [hjoin]
      refine lt_of_lt_of_le hhigh (zpow_le_zpow_right₀ (by norm_num) ?_)
      push_cast
      omega
    · rw [hjoin]
      rw [hjoin, not_lt] at hfits
      refine le_trans (zpow_le_zpow_right₀ (by norm_num) ?_) hfits
      push_cast
      omega

/-- The scaled quotient rounds to a whole number that is at most half away, and to one that is
exactly half away if it is even. -/
private theorem roundHalfEven_scaled {numerator denominator whole : ℕ} {exponent : ℤ}
    (hpos : 0 < denominator)
    (hlow : (whole : ℚ) - 1 / 2 ≤ numerator / denominator / 2 ^ exponent)
    (hhigh : (numerator : ℚ) / denominator / 2 ^ exponent ≤ whole + 1 / 2)
    (hodd : whole % 2 = 1 → (whole : ℚ) - 1 / 2 < numerator / denominator / 2 ^ exponent ∧
      (numerator : ℚ) / denominator / 2 ^ exponent < whole + 1 / 2) :
    roundHalfEven (numerator * powerOfTwo (-exponent)) (denominator * powerOfTwo exponent) =
      whole := by
  have hscaled : 0 < denominator * powerOfTwo exponent := Nat.mul_pos hpos (powerOfTwo_pos _)
  have hcast : (0 : ℚ) < (denominator * powerOfTwo exponent : ℕ) := by exact_mod_cast hscaled
  have hratio : (numerator : ℚ) / denominator / 2 ^ exponent =
      (numerator * powerOfTwo (-exponent) : ℕ) / (denominator * powerOfTwo exponent : ℕ) := by
    have hscale : (powerOfTwo (-exponent) : ℚ) ≠ 0 := by exact_mod_cast (powerOfTwo_pos _).ne'
    rw [← powerOfTwo_div]
    push_cast
    field_simp
  generalize numerator * powerOfTwo (-exponent) = a at *
  generalize denominator * powerOfTwo exponent = b at *
  rw [hratio] at hlow hhigh hodd
  rw [le_div_iff₀ hcast] at hlow
  rw [div_le_iff₀ hcast] at hhigh
  rw [lt_div_iff₀ hcast, div_lt_iff₀ hcast] at hodd
  refine roundHalfEven_eq hscaled ?_ ?_ fun h => ⟨?_, ?_⟩
  · have : (2 * (whole * b) : ℚ) ≤ 2 * a + b := by linarith
    exact_mod_cast this
  · have : (2 * a : ℚ) ≤ 2 * (whole * b) + b := by linarith
    exact_mod_cast this
  · have : (2 * (whole * b) : ℚ) < 2 * a + b := by linarith [(hodd h).1]
    exact_mod_cast this
  · have : (2 * a : ℚ) < 2 * (whole * b) + b := by linarith [(hodd h).2]
    exact_mod_cast this

/-- Downwards a double reaches half a unit of its last place at most. -/
theorem reachBelow_le (mantissa : ℕ) : reachBelow mantissa ≤ 1 / 2 := by
  unfold reachBelow
  split <;> norm_num

/-- A quotient with fifty-three places above an exponent that rounds to a mantissa above a higher
one is just under the least mantissa, one exponent up. -/
private theorem least_of_lt {quotient : ℚ} {mantissa : ℕ} {chosen exponent : ℤ}
    (hupper : quotient < 2 ^ 53 * 2 ^ chosen) (hlt : chosen < exponent)
    (hnormal : implicitBit ≤ mantissa)
    (hlow : mantissa - reachBelow mantissa ≤ quotient / 2 ^ exponent) :
    mantissa = implicitBit ∧ exponent = chosen + 1 := by
  have himplicit : implicitBit = 2 ^ 52 := rfl
  have hunits (steps : ℤ) (hsteps : chosen + steps ≤ exponent) :
      quotient / 2 ^ exponent < 2 ^ (53 - steps) := by
    rw [div_lt_iff₀ (by positivity), ← zpow_add₀ (by norm_num)]
    refine lt_of_lt_of_le hupper ?_
    rw [← zpow_natCast, ← zpow_add₀ (by norm_num)]
    refine zpow_le_zpow_right₀ (by norm_num) ?_
    push_cast
    omega
  have hbelow : quotient / 2 ^ exponent < 2 ^ 52 := by
    simpa using hunits 1 (by omega)
  obtain rfl : mantissa = implicitBit := by
    by_contra hne
    have hgap : reachBelow mantissa = 1 / 2 := if_neg hne
    have hgreater : (2 : ℚ) ^ 52 + 1 ≤ mantissa := by
      have : 2 ^ 52 + 1 ≤ mantissa := by omega
      exact_mod_cast this
    rw [hgap] at hlow
    linarith
  have hgap : reachBelow implicitBit = 1 / 4 := if_pos rfl
  have hcast : (implicitBit : ℚ) = 2 ^ 52 := by norm_num [implicitBit]
  rw [hgap, hcast] at hlow
  refine ⟨rfl, ?_⟩
  by_contra hne
  have := hunits 2 (by omega)
  norm_num at this hlow
  linarith

/-- A quotient that rounds to the mantissa of a double is rounded to the bits of that double. -/
theorem nearestBits_eq {numerator denominator mantissa : ℕ} {exponent : ℤ}
    (hnumerator : 0 < numerator) (hdenominator : 0 < denominator)
    (hmantissa : mantissa < 2 * implicitBit) (hleast : -1074 ≤ exponent)
    (hnormal : implicitBit ≤ mantissa ∨ exponent = -1074)
    (hfinite : mantissa + (exponent + 1074).toNat * implicitBit < infinityBits)
    (hrounds : RoundsTo mantissa (numerator / denominator / 2 ^ exponent)) :
    nearestBits numerator denominator =
      mantissa + (exponent + 1074).toNat * implicitBit := by
  obtain ⟨chosen, hchosen, hupper, hlower, hbits⟩ :=
    nearestBits_exponent hnumerator hdenominator
  obtain ⟨hlow, hhigh, hlowOdd, hhighOdd⟩ := hrounds
  have hreach := reachBelow_le mantissa
  have himplicit : implicitBit = 2 ^ 52 := rfl
  rcases lt_trichotomy chosen exponent with hlt | rfl | hgt
  · -- The quotient is just under the least mantissa, and rounds up to it from one exponent below.
    obtain ⟨rfl, rfl⟩ := least_of_lt hupper hlt (hnormal.resolve_right (by omega)) hlow
    have hunder : (numerator : ℚ) / denominator / 2 ^ (chosen + 1) < 2 ^ 52 := by
      rw [div_lt_iff₀ (by positivity), zpow_add_one₀ (by norm_num)]
      linarith
    have hgap : reachBelow implicitBit = 1 / 4 := if_pos rfl
    have hcast : (implicitBit : ℚ) = 2 ^ 52 := by norm_num [implicitBit]
    rw [hgap, hcast] at hlow
    have hdouble : (numerator : ℚ) / denominator / 2 ^ chosen =
        2 * (numerator / denominator / 2 ^ (chosen + 1)) := by
      rw [zpow_add_one₀ (by norm_num)]
      field_simp
    have hround : roundHalfEven (numerator * powerOfTwo (-chosen))
        (denominator * powerOfTwo chosen) = 2 ^ 53 := by
      refine roundHalfEven_scaled hdenominator ?_ ?_ fun h => absurd h (by decide)
      · rw [hdouble]
        push_cast
        linarith
      · rw [hdouble]
        push_cast
        linarith
    have hstep : (chosen + 1 + 1074).toNat = (chosen + 1074).toNat + 1 := by omega
    have hcarry : 2 ^ 53 + (chosen + 1074).toNat * implicitBit =
        implicitBit + (chosen + 1 + 1074).toNat * implicitBit := by
      rw [hstep, Nat.add_mul, himplicit]
      ring
    rw [hbits, hround, hcarry]
    exact Nat.min_eq_left hfinite.le
  · rw [hbits, roundHalfEven_scaled hdenominator (by linarith) hhigh
      fun h => ⟨by linarith [hlowOdd h], hhighOdd h⟩]
    exact Nat.min_eq_left hfinite.le
  · -- Even the greatest mantissa is too small for a higher exponent.
    exfalso
    have hunits : (2 : ℚ) ^ 53 ≤ numerator / denominator / 2 ^ exponent := by
      rw [le_div_iff₀ (by positivity)]
      refine le_trans ?_ (hlower.resolve_left (by omega))
      calc (2 : ℚ) ^ 53 * 2 ^ exponent = 2 ^ 52 * 2 ^ (exponent + 1) := by
            rw [zpow_add_one₀ (by norm_num)]
            ring
        _ ≤ 2 ^ 52 * 2 ^ chosen := by
            have := zpow_le_zpow_right₀ (show (1 : ℚ) ≤ 2 by norm_num)
              (show exponent + 1 ≤ chosen by omega)
            linarith
    have hgreatest : (mantissa : ℚ) + 1 ≤ 2 ^ 53 := by
      have : mantissa + 1 ≤ 2 ^ 53 := by omega
      exact_mod_cast this
    linarith

end PhasedTests.Decimal
