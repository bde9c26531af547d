import PhasedTests.Proofs.Decimal.RoundTrip
import PhasedTests.Proofs.Text.Numeral
import PhasedTests.Sexp.Inline

/-!
# The written form of finite doubles

A finite double is written as an optional minus sign, whole digits, a point and at least one more
digit, and these digits are read as the double again.
-/

namespace PhasedTests

open Text

namespace Decimal

/-- Positional notation splits the digits of a decimal at its point and keeps its value. -/
private theorem positional_eq (d : Scientific) :
    ∃ whole places : List Char, whole ≠ [] ∧ (∀ c ∈ whole ++ places, Numeral.isDigit c = true) ∧
      d.positional = (if places = [] then whole else whole ++ '.' :: places) ∧
      (Numeral.ofDigits (whole ++ places) : ℚ) * 10 ^ (-(places.length : ℤ)) = d.value := by
  unfold Scientific.positional Scientific.value
  split
  · rename_i hexponent
    refine ⟨Numeral.toDigits d.coefficient ++ List.replicate d.exponent.toNat '0', [], ?_, ?_, ?_,
      ?_⟩
    · simp [Numeral.toDigits_ne_nil]
    · intro c hmem
      rw [List.append_nil] at hmem
      rcases List.mem_append.mp hmem with hmem | hmem
      · exact Numeral.isDigit_of_mem_toDigits hmem
      · obtain ⟨-, rfl⟩ := List.mem_replicate.mp hmem
        rfl
    · rw [if_pos rfl]
    · obtain ⟨k, hk⟩ := Int.eq_ofNat_of_zero_le hexponent
      rw [List.append_nil, Numeral.ofDigits_append_zeros, Numeral.ofDigits_toDigits, hk]
      simp [mul_comm]
  · rename_i hexponent
    dsimp only
    generalize hpadded : List.replicate ((-d.exponent).toNat + 1 -
      (Numeral.toDigits d.coefficient).length) '0' ++ Numeral.toDigits d.coefficient = padded
    have hlength : (-d.exponent).toNat + 1 ≤ padded.length := by
      rw [← hpadded, List.length_append, List.length_replicate]
      omega
    have hplaces : (padded.drop (padded.length - (-d.exponent).toNat)).length =
        (-d.exponent).toNat := by
      rw [List.length_drop]
      omega
    refine ⟨padded.take (padded.length - (-d.exponent).toNat),
      padded.drop (padded.length - (-d.exponent).toNat), ?_, ?_, ?_, ?_⟩
    · rw [← List.length_pos_iff, List.length_take]
      omega
    · rw [List.take_append_drop, ← hpadded]
      intro c hmem
      rcases List.mem_append.mp hmem with hmem | hmem
      · obtain ⟨-, rfl⟩ := List.mem_replicate.mp hmem
        rfl
      · exact Numeral.isDigit_of_mem_toDigits hmem
    · rw [if_neg]
      rw [← List.length_eq_zero_iff, hplaces]
      omega
    · rw [List.take_append_drop, hplaces, ← hpadded, Numeral.ofDigits_zeros_append,
        Numeral.ofDigits_toDigits]
      congr 2
      omega

/-- The digits of a double, split at the point, are read as the double. -/
private theorem finiteChars_eq {x : Float} (hnan : x.isNaN = false) (hinf : x.isInf = false) :
    ∃ whole places : List Char, whole ≠ [] ∧ (∀ c ∈ whole ++ places, Numeral.isDigit c = true) ∧
      finiteChars x = (if isNegative x then ['-'] else []) ++
        (if places = [] then whole else whole ++ '.' :: places) ∧
      ReadsAs x (Numeral.ofDigits (whole ++ places)) (-(places.length : ℤ)) := by
  obtain ⟨hmantissa, hleast, hgreatest, -, -⟩ := binaryParts_spec hnan hinf
  have hsign (digits : List Char) : (if isNegative x then '-' :: digits else digits) =
      (if isNegative x then ['-'] else []) ++ digits := by
    split <;> rfl
  unfold finiteChars ReadsAs
  dsimp only
  rw [hsign]
  by_cases hzero : (binaryParts x).1 = 0
  · refine ⟨['0'], [], by simp, by simp [Numeral.isDigit], ?_, ?_⟩
    · rw [if_pos hzero, if_pos rfl]
    · rw [if_pos hzero]
      rfl
  · obtain ⟨whole, places, hwhole, hdigits, htext, hvalue⟩ :=
      positional_eq (Rounding.ofBinary (binaryParts x).1 (binaryParts x).2).shortest
    refine ⟨whole, places, hwhole, hdigits, ?_, ?_⟩
    · rw [if_neg hzero, htext]
    · rw [if_neg hzero, hvalue]
      exact Rounding.roundsTo_shortest (Nat.pos_of_ne_zero hzero) hmantissa hleast hgreatest

/-- One more zero behind the point is read as the same number. -/
private theorem readsAs_append_zero {x : Float} {whole : List Char}
    (hreads : ReadsAs x (Numeral.ofDigits whole) 0) :
    ReadsAs x (Numeral.ofDigits (whole ++ ['0'])) (-1) := by
  have hten : Numeral.ofDigits (whole ++ ['0']) = 10 ^ 1 * Numeral.ofDigits whole :=
    Numeral.ofDigits_append_zeros 1 whole
  unfold ReadsAs at *
  rw [hten]
  split
  · rename_i hzero
    rw [if_pos hzero] at hreads
    rw [hreads, Nat.mul_zero]
  · rename_i hne
    rw [if_neg hne] at hreads
    have hsame : ((10 ^ 1 * Numeral.ofDigits whole : ℕ) : ℚ) * 10 ^ (-1 : ℤ) =
        Numeral.ofDigits whole * 10 ^ (0 : ℤ) := by
      push_cast
      rw [zpow_neg_one]
      field_simp
    rw [hsame]
    exact hreads

end Decimal

namespace Scalar

/-- A finite double is written with a point between digits that are read as it. -/
theorem floatChars_of_finite {x : Float} (hnan : x.isNaN = false) (hinf : x.isInf = false) :
    ∃ whole places : List Char, whole ≠ [] ∧ places ≠ [] ∧
      (∀ c ∈ whole ++ places, Numeral.isDigit c = true) ∧
      floatChars x = (if Decimal.isNegative x then ['-'] else []) ++ (whole ++ '.' :: places) ∧
      Decimal.ReadsAs x (Numeral.ofDigits (whole ++ places)) (-(places.length : ℤ)) := by
  obtain ⟨whole, places, hwhole, hdigits, htext, hreads⟩ := Decimal.finiteChars_eq hnan hinf
  unfold floatChars
  simp only [hnan, hinf, Bool.false_eq_true, ↓reduceIte]
  rw [htext]
  by_cases hnone : places = []
  · subst hnone
    have hplain : ((if Decimal.isNegative x then ['-'] else []) ++ whole).contains '.' = false := by
      rw [Bool.eq_false_iff, ne_eq, List.contains_iff_mem]
      intro hmem
      rcases List.mem_append.mp hmem with hmem | hmem
      · split at hmem <;> simp at hmem
      · have := hdigits '.' (by simp [hmem])
        exact absurd this (by decide)
    refine ⟨whole, ['0'], hwhole, by simp, ?_, ?_, ?_⟩
    · intro c hmem
      rcases List.mem_append.mp hmem with hmem | hmem
      · exact hdigits c (by simp [hmem])
      · obtain rfl := List.mem_singleton.mp hmem
        rfl
    · rw [if_pos rfl, hplain]
      simp
    · rw [List.append_nil] at hreads
      exact Decimal.readsAs_append_zero hreads
  · refine ⟨whole, places, hwhole, hnone, hdigits, ?_, hreads⟩
    rw [if_neg hnone, if_pos]
    simp

end Scalar

end PhasedTests
