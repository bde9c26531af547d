import PhasedTests.Decimal.Positional
import PhasedTests.Proofs.Decimal.Double
import PhasedTests.Proofs.Decimal.Shortest

/-!
# Decimal text of doubles reads back

A decimal that rounds to a finite double is read as that double, whatever power of ten its digits
are counted in. The positional text of a double is such a decimal, so writing and reading it gives
the double back, with its sign.
-/

namespace PhasedTests.Decimal

open Text

/-- The mantissa and the exponent of a finite double make up its magnitude. -/
theorem binaryParts_spec {x : Float} (hnan : x.isNaN = false) (hinf : x.isInf = false) :
    (binaryParts x).1 < 2 * implicitBit ∧ -1074 ≤ (binaryParts x).2 ∧ (binaryParts x).2 ≤ 971 ∧
      (implicitBit ≤ (binaryParts x).1 ∨ (binaryParts x).2 = -1074) ∧
      x.toBits.toNat % signBit =
        (binaryParts x).1 + ((binaryParts x).2 + 1074).toNat * implicitBit := by
  have hfinite := toBits_mod_signBit_lt hnan hinf
  unfold binaryParts
  dsimp only
  generalize x.toBits.toNat % signBit = magnitude at *
  have hbits : infinityBits = 2047 * implicitBit := rfl
  have hpos : 0 < implicitBit := by decide
  have hdivision := Nat.div_add_mod magnitude implicitBit
  have hremainder := Nat.mod_lt magnitude hpos
  have hfield : magnitude / implicitBit < 2047 := by
    rw [Nat.div_lt_iff_lt_mul hpos, ← hbits]
    exact hfinite
  generalize magnitude / implicitBit = field at *
  generalize magnitude % implicitBit = remainder at *
  rw [Nat.mul_comm] at hdivision
  split
  · rename_i hzero
    subst hzero
    refine ⟨?_, by simp, by simp, Or.inr rfl, by simp⟩
    dsimp only
    omega
  · rename_i hne
    refine ⟨?_, ?_, ?_, Or.inl (Nat.le_add_left _ _), ?_⟩
    · dsimp only
      omega
    · dsimp only [Int.ofNat_eq_natCast]
      omega
    · dsimp only [Int.ofNat_eq_natCast]
      omega
    · obtain ⟨place, rfl⟩ := Nat.exists_eq_succ_of_ne_zero hne
      have hplace : (Int.ofNat (place + 1) - 1075 + 1074).toNat = place := by
        dsimp only [Int.ofNat_eq_natCast]
        omega
      dsimp only
      rw [Nat.succ_eq_add_one, Nat.add_mul] at hdivision
      rw [← hdivision, hplace]
      omega

/-- The digits of a number bound it on both sides. -/
private theorem toDigits_bounds {n : ℕ} (hpos : 0 < n) :
    10 ^ ((Nat.toDigits 10 n).length - 1) ≤ n ∧ n < 10 ^ (Nat.toDigits 10 n).length := by
  have hlength : 0 < (Nat.toDigits 10 n).length := Nat.length_toDigits_pos
  constructor
  · by_contra hlt
    rcases Nat.eq_zero_or_pos ((Nat.toDigits 10 n).length - 1) with hzero | hmore
    · rw [hzero] at hlt
      omega
    · have := (Nat.length_toDigits_le_iff (b := 10) (by decide) hmore).mpr (not_le.mp hlt)
      omega
  · exact (Nat.length_toDigits_le_iff (by decide) hlength).mp le_rfl

/-- The decimals that round to a finite double are neither tiny nor huge. -/
private theorem value_bounds {mantissa : ℕ} {exponent : ℤ} {value : ℚ} (hpos : 0 < mantissa)
    (hmantissa : mantissa < 2 * implicitBit) (hleast : -1074 ≤ exponent)
    (hgreatest : exponent ≤ 971) (hrounds : RoundsTo mantissa (value / 2 ^ exponent)) :
    (2 : ℚ) ^ (-1075 : ℤ) ≤ value ∧ value < 2 ^ (1024 : ℤ) := by
  have hscale : (0 : ℚ) < 2 ^ exponent := by positivity
  have hvalue : value = value / 2 ^ exponent * 2 ^ exponent := (div_mul_cancel₀ _ hscale.ne').symm
  have hreach := reachBelow_le mantissa
  have hone : (1 : ℚ) ≤ mantissa := by exact_mod_cast hpos
  have htop : (mantissa : ℚ) + 1 ≤ 2 ^ 53 := by
    have : mantissa + 1 ≤ 2 ^ 53 := hmantissa
    exact_mod_cast this
  constructor
  · calc (2 : ℚ) ^ (-1075 : ℤ) ≤ 2 ^ (exponent - 1) :=
          zpow_le_zpow_right₀ (by norm_num) (by omega)
      _ = 1 / 2 * 2 ^ exponent := by
          rw [zpow_sub_one₀ (by norm_num)]
          ring
      _ ≤ value / 2 ^ exponent * 2 ^ exponent :=
          mul_le_mul_of_nonneg_right (by linarith [hrounds.low_le]) hscale.le
      _ = value := hvalue.symm
  · calc value = value / 2 ^ exponent * 2 ^ exponent := hvalue
      _ < 2 ^ 53 * 2 ^ exponent :=
          mul_lt_mul_of_pos_right (by linarith [hrounds.le_high]) hscale
      _ = 2 ^ (53 + exponent) := by
          rw [zpow_add₀ (by norm_num)]
          norm_num
      _ ≤ 2 ^ (1024 : ℤ) := zpow_le_zpow_right₀ (by norm_num) (by omega)

/-- A decimal that rounds to a double has its magnitude. -/
theorem magnitudeBits_eq {mantissa coefficient : ℕ} {exponent k : ℤ} (hpos : 0 < mantissa)
    (hmantissa : mantissa < 2 * implicitBit) (hleast : -1074 ≤ exponent)
    (hgreatest : exponent ≤ 971) (hnormal : implicitBit ≤ mantissa ∨ exponent = -1074)
    (hfinite : mantissa + (exponent + 1074).toNat * implicitBit < infinityBits)
    (hrounds : RoundsTo mantissa (coefficient * 10 ^ k / 2 ^ exponent)) :
    magnitudeBits coefficient k = mantissa + (exponent + 1074).toNat * implicitBit := by
  obtain ⟨htiny, hhuge⟩ := value_bounds hpos hmantissa hleast hgreatest hrounds
  have hcoefficient : 0 < coefficient := by
    by_contra hzero
    obtain rfl : coefficient = 0 := by omega
    rw [Nat.cast_zero, zero_mul] at htiny
    exact absurd htiny (not_le.mpr (by positivity))
  obtain ⟨hlow, hhigh⟩ := toDigits_bounds hcoefficient
  have hlength : 0 < (Nat.toDigits 10 coefficient).length := Nat.length_toDigits_pos
  generalize hdigits : (Nat.toDigits 10 coefficient).length = digits at *
  have hjoin (a : ℕ) : ((10 ^ a : ℕ) : ℚ) * 10 ^ k = 10 ^ (k + a) := by
    rw [Nat.cast_pow, ← zpow_natCast, mul_comm, zpow_add₀ (by norm_num)]
    rfl
  have hten : (0 : ℚ) < 10 ^ k := by positivity
  have hsmall : ¬k + digits < -330 := by
    intro hlt
    have hupper : (coefficient : ℚ) * 10 ^ k < 10 ^ (k + digits) := by
      rw [← hjoin]
      exact mul_lt_mul_of_pos_right (by exact_mod_cast hhigh) hten
    have hpower : (10 : ℚ) ^ (k + digits) < 2 ^ (-1075 : ℤ) :=
      ten_zpow_lt_two_zpow (by omega) (by omega)
    exact absurd htiny (not_le.mpr (hupper.trans hpower))
  have hlarge : ¬310 < k + digits := by
    intro hgt
    have hlower : (10 : ℚ) ^ (k + (digits - 1 : ℕ)) ≤ coefficient * 10 ^ k := by
      rw [← hjoin]
      exact mul_le_mul_of_nonneg_right (by exact_mod_cast hlow) hten.le
    have hpower : (2 : ℚ) ^ (1024 : ℤ) < 10 ^ (310 : ℤ) := by
      have hinverse : (10 : ℚ) ^ (-310 : ℤ) < 2 ^ (-1024 : ℤ) :=
        ten_zpow_lt_two_zpow (by decide) (by decide)
      rw [zpow_neg, zpow_neg] at hinverse
      exact (inv_lt_inv₀ (by positivity) (by positivity)).mp hinverse
    have hmore : (10 : ℚ) ^ (310 : ℤ) ≤ 10 ^ (k + (digits - 1 : ℕ)) :=
      zpow_le_zpow_right₀ (by norm_num) (by omega)
    exact absurd hhuge (not_lt.mpr (hpower.le.trans (hmore.trans hlower)))
  unfold magnitudeBits
  dsimp only
  rw [hdigits, if_neg (by omega), if_neg hlarge]
  apply nearestBits_eq (Nat.mul_pos hcoefficient (powerOfTen_pos _)) (powerOfTen_pos _)
    hmantissa hleast hnormal hfinite
  rw [Nat.cast_mul, mul_div_assoc, powerOfTen_div]
  exact hrounds

/-- The decimals that are read as a double: those that round to it, and zero for zero. -/
def ReadsAs (x : Float) (coefficient : ℕ) (k : ℤ) : Prop :=
  if (binaryParts x).1 = 0 then coefficient = 0
  else RoundsTo (binaryParts x).1 (coefficient * 10 ^ k / 2 ^ (binaryParts x).2)

/-- Such a decimal is read as the double. -/
theorem toFloat_eq {x : Float} {coefficient : ℕ} {k : ℤ} (hnan : x.isNaN = false)
    (hinf : x.isInf = false) (hreads : ReadsAs x coefficient k) :
    toFloat (isNegative x) coefficient k = x := by
  obtain ⟨hmantissa, hleast, hgreatest, hnormal, hmagnitude⟩ := binaryParts_spec hnan hinf
  have hfinite := toBits_mod_signBit_lt hnan hinf
  apply eq_ofBits_of_magnitude
  rw [hmagnitude] at hfinite ⊢
  unfold ReadsAs at hreads
  split at hreads
  · rename_i hzero
    have hexponent : (binaryParts x).2 = -1074 := by
      refine hnormal.resolve_left ?_
      rw [hzero]
      decide
    rw [hzero, hexponent, hreads]
    rfl
  · rename_i hne
    exact magnitudeBits_eq (Nat.pos_of_ne_zero hne) hmantissa hleast hgreatest hnormal hfinite
      hreads

end PhasedTests.Decimal
