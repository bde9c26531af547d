import Mathlib.Algebra.Group.Nat.Defs
import PhasedTests.Text.Numeral

/-!
# Numerals read back

The digits of a number are read as that number, and the written form of a 64-bit integer, a sign
and digits, as that integer. Zeros before the digits do not count, and each zero behind them
multiplies by ten.
-/

namespace PhasedTests.Text.Numeral

private theorem isDigit_eq (c : Char) : isDigit c = c.isDigit := by
  rw [Bool.eq_iff_iff]
  simp [isDigit, Char.isDigit, Char.le_def]

/-- Every character of a number's digits is a digit. -/
theorem isDigit_of_mem_toDigits {n : Nat} {c : Char} (hmem : c ∈ toDigits n) :
    isDigit c = true := by
  rw [isDigit_eq]
  exact Nat.isDigit_of_mem_toDigits (by decide) (by decide) hmem

/-- A number has digits. -/
theorem toDigits_ne_nil (n : Nat) : toDigits n ≠ [] :=
  Nat.toDigits_ne_nil

private theorem ofDigits_eq (digits : List Char) :
    ofDigits digits = Nat.ofDigitChars 10 digits 0 := by
  rw [Nat.ofDigitChars_eq_foldl]
  rfl

/-- The digits of a number are read as the number. -/
@[simp] theorem ofDigits_toDigits (n : Nat) : ofDigits (toDigits n) = n := by
  rw [ofDigits_eq]
  exact Nat.ofDigitChars_ten_toDigits

/-- Zeros before other digits do not count. -/
theorem ofDigits_zeros_append (count : Nat) (digits : List Char) :
    ofDigits (List.replicate count '0' ++ digits) = ofDigits digits := by
  rw [ofDigits_eq, ofDigits_eq, Nat.ofDigitChars_append, Nat.ofDigitChars_replicate_zero,
    Nat.mul_zero]

/-- Every zero behind other digits multiplies by ten. -/
theorem ofDigits_append_zeros (count : Nat) (digits : List Char) :
    ofDigits (digits ++ List.replicate count '0') = 10 ^ count * ofDigits digits := by
  rw [ofDigits_eq, ofDigits_eq, Nat.ofDigitChars_append, Nat.ofDigitChars_replicate_zero]

/-- The sign and the digits of a 64-bit integer are read as the integer. -/
theorem toInt64?_natAbs (value : Int64) :
    toInt64? (value.toInt < 0) (toDigits value.toInt.natAbs) = some value := by
  have hsigned : (if decide (value.toInt < 0) = true then -(value.toInt.natAbs : Int)
      else (value.toInt.natAbs : Int)) = value.toInt := by
    split
    · rename_i hneg
      rw [decide_eq_true_eq] at hneg
      omega
    · rename_i hpos
      rw [decide_eq_true_eq] at hpos
      omega
  unfold toInt64?
  dsimp only
  rw [ofDigits_toDigits, hsigned, if_pos ⟨value.minValue_le_toInt, value.toInt_le⟩,
    Int64.ofInt_toInt]

end PhasedTests.Text.Numeral
