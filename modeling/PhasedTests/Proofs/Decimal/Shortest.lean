import PhasedTests.Decimal.Shortest
import PhasedTests.Proofs.Decimal.Nearest

/-!
# Shortest decimals read back

The shortest decimal of a double lies in the interval of the numbers that round to the double. That
there is one on the grids that are searched is a matter of size: seventeen digits make a grid finer
than half the distance to the next double.
-/

namespace PhasedTests.Decimal

/-- A power of ten is a quotient of two naturals, one of which is 1. -/
theorem powerOfTen_div (exponent : ℤ) :
    (powerOfTen exponent : ℚ) / powerOfTen (-exponent) = 10 ^ exponent :=
  pow_toNat_div 10 exponent

/-- Both of these naturals are positive. -/
theorem powerOfTen_pos (exponent : ℤ) : 0 < powerOfTen exponent :=
  Nat.pow_pos (by decide)

/-- A power of ten is less than a power of two if its exponent is small enough; `10 / 3` and
`93 / 28` enclose the logarithm of ten. -/
theorem ten_zpow_lt_two_zpow {k j : ℤ} (hpos : 10 * k < 3 * j) (hneg : 93 * k < 28 * j) :
    (10 : ℚ) ^ k < 2 ^ j := by
  rcases le_total 0 k with hk | hk
  · refine lt_of_pow_lt_pow_left₀ 3 (by positivity) ?_
    calc ((10 : ℚ) ^ k) ^ 3 = ((10 : ℚ) ^ 3) ^ k := by
          rw [← zpow_natCast, ← zpow_mul, ← zpow_natCast, ← zpow_mul, mul_comm]
      _ ≤ ((2 : ℚ) ^ 10) ^ k := zpow_le_zpow_left₀ hk (by norm_num) (by norm_num)
      _ = 2 ^ (10 * k) := by rw [← zpow_natCast, ← zpow_mul]; rfl
      _ < 2 ^ (j * 3) := zpow_lt_zpow_right₀ (by norm_num) (by omega)
      _ = ((2 : ℚ) ^ j) ^ 3 := by rw [zpow_mul]; rfl
  · refine lt_of_pow_lt_pow_left₀ 28 (by positivity) ?_
    calc ((10 : ℚ) ^ k) ^ 28 = ((10 : ℚ) ^ 28) ^ k := by
          rw [← zpow_natCast, ← zpow_mul, ← zpow_natCast, ← zpow_mul, mul_comm]
      _ ≤ ((2 : ℚ) ^ 93) ^ k := by
          rw [← neg_neg k, zpow_neg, zpow_neg _ (-k)]
          exact inv_anti₀ (by positivity)
            (zpow_le_zpow_left₀ (by omega) (by norm_num) (by norm_num))
      _ = 2 ^ (93 * k) := by rw [← zpow_natCast, ← zpow_mul]; rfl
      _ < 2 ^ (j * 28) := zpow_lt_zpow_right₀ (by norm_num) (by omega)
      _ = ((2 : ℚ) ^ j) ^ 28 := by rw [zpow_mul]; rfl

/-- The number that a decimal stands for. -/
def Scientific.value (d : Scientific) : ℚ :=
  d.coefficient * 10 ^ d.exponent

namespace Rounding

/-- A decimal found on a grid lies in the interval. -/
theorem contains_of_onGrid {r : Rounding} {exponent : ℤ} {d : Scientific}
    (hfound : r.onGrid exponent = some d) :
    d.exponent = exponent ∧
      contains r.closed (r.low * powerOfTen (-exponent)) (r.high * powerOfTen (-exponent))
        (d.coefficient * (r.denominator * powerOfTen exponent)) = true := by
  unfold onGrid at hfound
  dsimp only at hfound
  split at hfound
  · rename_i hboth
    rw [Bool.and_eq_true] at hboth
    split at hfound
    · obtain rfl := Option.some.inj hfound
      exact ⟨rfl, hboth.1⟩
    · obtain rfl := Option.some.inj hfound
      exact ⟨rfl, hboth.2⟩
  · split at hfound
    · obtain rfl := Option.some.inj hfound
      exact ⟨rfl, by assumption⟩
    · split at hfound
      · obtain rfl := Option.some.inj hfound
        exact ⟨rfl, by assumption⟩
      · cases hfound

/-- The ends of an interval and the points of a grid, over one denominator, stand for quarters and
decimals in units of the last place. -/
private theorem scaled_eq (exponent k : ℤ) :
    ∃ scale : ℚ, 0 < scale ∧
      (∀ quarters : ℕ, ((quarters * powerOfTwo (exponent - 2) * powerOfTen (-k) : ℕ) : ℚ) =
        quarters / 4 * scale) ∧
      ∀ coefficient : ℕ, ((coefficient * (powerOfTwo (2 - exponent) * powerOfTen k) : ℕ) : ℚ) =
        coefficient * 10 ^ k / 2 ^ exponent * scale := by
  have hfiner : (0 : ℚ) < powerOfTen (-k) := by exact_mod_cast powerOfTen_pos _
  have hdenominator : (0 : ℚ) < powerOfTwo (2 - exponent) := by exact_mod_cast powerOfTwo_pos _
  have htwo : (powerOfTwo (exponent - 2) : ℚ) = 2 ^ exponent / 4 * powerOfTwo (2 - exponent) := by
    have := powerOfTwo_div (exponent - 2)
    rw [neg_sub, div_eq_iff hdenominator.ne', zpow_sub₀ (by norm_num)] at this
    rw [this]
    norm_num
  have hten : (powerOfTen k : ℚ) = 10 ^ k * powerOfTen (-k) := by
    rw [← powerOfTen_div, div_mul_cancel₀ _ hfiner.ne']
  refine ⟨2 ^ exponent * powerOfTwo (2 - exponent) * powerOfTen (-k), by positivity,
    fun quarters => ?_, fun coefficient => ?_⟩
  · push_cast
    rw [htwo]
    ring
  · push_cast
    rw [hten]
    field_simp

/-- The lower end of a double's interval, in quarters of the last place. -/
private theorem low_quarters {mantissa : ℕ} (hpos : 0 < mantissa) :
    ((4 * mantissa - (if mantissa = implicitBit then 1 else 2) : ℕ) : ℚ) / 4 =
      mantissa - reachBelow mantissa := by
  unfold reachBelow
  split
  · rw [Nat.cast_sub (by omega)]
    push_cast
    ring
  · rw [Nat.cast_sub (by omega)]
    push_cast
    ring

/-- A decimal in the interval of a double rounds to the double's mantissa. -/
theorem roundsTo_of_contains {mantissa : ℕ} {exponent : ℤ} {d : Scientific}
    (hpos : 0 < mantissa)
    (hin : contains (ofBinary mantissa exponent).closed
      ((ofBinary mantissa exponent).low * powerOfTen (-d.exponent))
      ((ofBinary mantissa exponent).high * powerOfTen (-d.exponent))
      (d.coefficient * ((ofBinary mantissa exponent).denominator * powerOfTen d.exponent)) = true) :
    RoundsTo mantissa (d.value / 2 ^ exponent) := by
  obtain ⟨scale, hscale, hends, hpoints⟩ := scaled_eq exponent d.exponent
  have hlow := hends (4 * mantissa - if mantissa = implicitBit then 1 else 2)
  have hhigh := hends (4 * mantissa + 2)
  have hpoint := hpoints d.coefficient
  rw [low_quarters hpos] at hlow
  have hquarters : ((4 * mantissa + 2 : ℕ) : ℚ) / 4 = mantissa + 1 / 2 := by
    push_cast
    ring
  rw [hquarters] at hhigh
  change contains (mantissa % 2 == 0)
    ((4 * mantissa - if mantissa = implicitBit then 1 else 2) * powerOfTwo (exponent - 2) *
      powerOfTen (-d.exponent))
    ((4 * mantissa + 2) * powerOfTwo (exponent - 2) * powerOfTen (-d.exponent))
    (d.coefficient * (powerOfTwo (2 - exponent) * powerOfTen d.exponent)) = true at hin
  generalize (4 * mantissa - if mantissa = implicitBit then 1 else 2) *
    powerOfTwo (exponent - 2) * powerOfTen (-d.exponent) = low at hin hlow
  generalize (4 * mantissa + 2) * powerOfTwo (exponent - 2) * powerOfTen (-d.exponent) = high
    at hin hhigh
  generalize d.coefficient * (powerOfTwo (2 - exponent) * powerOfTen d.exponent) = point
    at hin hpoint
  change (point : ℚ) = d.value / 2 ^ exponent * scale at hpoint
  have hlowLe (h : low ≤ point) : mantissa - reachBelow mantissa ≤ d.value / 2 ^ exponent := by
    rw [← mul_le_mul_iff_left₀ hscale, ← hlow, ← hpoint]
    exact_mod_cast h
  have hleHigh (h : point ≤ high) : d.value / 2 ^ exponent ≤ mantissa + 1 / 2 := by
    rw [← mul_le_mul_iff_left₀ hscale, ← hhigh, ← hpoint]
    exact_mod_cast h
  have hlowLt (h : low < point) : mantissa - reachBelow mantissa < d.value / 2 ^ exponent := by
    rw [← mul_lt_mul_iff_left₀ hscale, ← hlow, ← hpoint]
    exact_mod_cast h
  have hltHigh (h : point < high) : d.value / 2 ^ exponent < mantissa + 1 / 2 := by
    rw [← mul_lt_mul_iff_left₀ hscale, ← hhigh, ← hpoint]
    exact_mod_cast h
  unfold contains at hin
  split at hin
  · rename_i heven
    rw [beq_iff_eq] at heven
    simp only [Bool.and_eq_true, decide_eq_true_eq] at hin
    exact ⟨hlowLe hin.1, hleHigh hin.2, fun h => by omega, fun h => by omega⟩
  · simp only [Bool.and_eq_true, decide_eq_true_eq] at hin
    exact ⟨hlowLe hin.1.le, hleHigh hin.2.le, fun _ => hlowLt hin.1, fun _ => hltHigh hin.2⟩

/-- A grid that is finer than the distance to the upper end has a point in the interval, the first
one above the value. -/
private theorem isSome_onGrid {r : Rounding} {exponent : ℤ} (hpos : 0 < r.denominator)
    (hlow : r.low ≤ r.value)
    (hfine : r.value * powerOfTen (-exponent) + r.denominator * powerOfTen exponent <
      r.high * powerOfTen (-exponent)) :
    (r.onGrid exponent).isSome = true := by
  have hunit : 0 < r.denominator * powerOfTen exponent := Nat.mul_pos hpos (powerOfTen_pos _)
  have hbelow := Nat.mul_le_mul_right (powerOfTen (-exponent)) hlow
  have hdivision := Nat.div_add_mod (r.value * powerOfTen (-exponent))
    (r.denominator * powerOfTen exponent)
  have hremainder := Nat.mod_lt (r.value * powerOfTen (-exponent)) hunit
  have habove : contains r.closed (r.low * powerOfTen (-exponent))
      (r.high * powerOfTen (-exponent))
      ((r.value * powerOfTen (-exponent) / (r.denominator * powerOfTen exponent) + 1) *
        (r.denominator * powerOfTen exponent)) = true := by
    rw [Nat.add_mul, Nat.mul_comm (_ / _)]
    unfold contains
    split <;> simp only [Bool.and_eq_true, decide_eq_true_eq] <;> omega
  unfold onGrid
  dsimp only
  rw [habove]
  split
  · split <;> rfl
  · split
    · rfl
    · rfl

private theorem log2_mul_two_pow {n : ℕ} (hpos : 0 < n) (k : ℕ) :
    (n * 2 ^ k).log2 = n.log2 + k := by
  induction k with
  | zero => simp
  | succ k ih =>
    have hne : n * 2 ^ k ≠ 0 := (Nat.mul_pos hpos (Nat.two_pow_pos k)).ne'
    rw [pow_succ, ← Nat.mul_assoc, Nat.mul_comm _ 2, Nat.log2_two_mul hne, ih]
    omega

/-- Where the search for the coarsest grid of a double starts. -/
private theorem topExponent_ofBinary {mantissa : ℕ} (hpos : 0 < mantissa) (exponent : ℤ) :
    (ofBinary mantissa exponent).topExponent =
      ((mantissa.log2 : ℤ) + exponent + 1) * 30103 / 100000 + 2 := by
  have hvalue : (4 * mantissa * powerOfTwo (exponent - 2)).log2 =
      mantissa.log2 + 2 + (exponent - 2).toNat := by
    change (4 * mantissa * 2 ^ (exponent - 2).toNat).log2 = _
    rw [log2_mul_two_pow (by omega), Nat.mul_comm 4, show 4 = 2 ^ 2 from rfl,
      log2_mul_two_pow hpos]
  have hdenominator : (powerOfTwo (2 - exponent)).log2 = (2 - exponent).toNat :=
    Nat.log2_two_pow
  change (((4 * mantissa * powerOfTwo (exponent - 2)).log2 : ℤ) -
    (powerOfTwo (2 - exponent)).log2 + 1) * 30103 / 100000 + 2 = _
  rw [hvalue, hdenominator]
  congr 3
  omega

/-- The last grid that is searched has a point in the interval of every double. -/
private theorem isSome_onGrid_last {mantissa : ℕ} {exponent : ℤ} (hpos : 0 < mantissa)
    (hmantissa : mantissa < 2 * implicitBit) (hleast : -1074 ≤ exponent)
    (hgreatest : exponent ≤ 971) :
    ((ofBinary mantissa exponent).onGrid
      ((ofBinary mantissa exponent).topExponent - 20)).isSome = true := by
  have hlog : mantissa.log2 < 53 := (Nat.log2_lt (by omega)).mpr hmantissa
  rw [topExponent_ofBinary hpos]
  generalize hk : ((mantissa.log2 : ℤ) + exponent + 1) * 30103 / 100000 + 2 - 20 = k
  have hten : (10 : ℚ) ^ k < 2 ^ (exponent - 1) :=
    ten_zpow_lt_two_zpow (by omega) (by omega)
  apply isSome_onGrid (powerOfTwo_pos _)
  · exact Nat.mul_le_mul_right _ (Nat.sub_le _ _)
  · obtain ⟨scale, hscale, hends, hpoints⟩ := scaled_eq exponent k
    have hvalue := hends (4 * mantissa)
    have hhigh := hends (4 * mantissa + 2)
    have hunit := hpoints 1
    rw [Nat.one_mul, Nat.cast_one, one_mul] at hunit
    have hhalf : (10 : ℚ) ^ k / 2 ^ exponent < 1 / 2 := by
      rw [zpow_sub_one₀ (by norm_num)] at hten
      rw [div_lt_iff₀ (by positivity)]
      linarith
    have hstep := mul_lt_mul_of_pos_right hhalf hscale
    generalize (10 : ℚ) ^ k / 2 ^ exponent = step at hunit hstep
    change 4 * mantissa * powerOfTwo (exponent - 2) * powerOfTen (-k) +
      powerOfTwo (2 - exponent) * powerOfTen k <
        (4 * mantissa + 2) * powerOfTwo (exponent - 2) * powerOfTen (-k)
    rw [← Nat.cast_lt (α := ℚ), Nat.cast_add, hvalue, hhigh, hunit]
    push_cast
    linarith

/-- The shortest decimal of a double rounds to the double's mantissa. -/
theorem roundsTo_shortest {mantissa : ℕ} {exponent : ℤ} (hpos : 0 < mantissa)
    (hmantissa : mantissa < 2 * implicitBit) (hleast : -1074 ≤ exponent)
    (hgreatest : exponent ≤ 971) :
    RoundsTo mantissa ((ofBinary mantissa exponent).shortest.value / 2 ^ exponent) := by
  have hsome : ((List.range 21).findSome? fun step : ℕ =>
      (ofBinary mantissa exponent).onGrid
        ((ofBinary mantissa exponent).topExponent - (step : ℤ))).isSome = true := by
    rw [List.findSome?_isSome_iff]
    exact ⟨20, by decide, isSome_onGrid_last hpos hmantissa hleast hgreatest⟩
  obtain ⟨d, hfound⟩ := Option.isSome_iff_exists.mp hsome
  obtain ⟨step, -, hgrid⟩ := List.exists_of_findSome?_eq_some hfound
  obtain ⟨hexponent, hin⟩ := contains_of_onGrid hgrid
  rw [← hexponent] at hin
  unfold shortest
  rw [hfound]
  exact roundsTo_of_contains hpos hin

end Rounding

end PhasedTests.Decimal
