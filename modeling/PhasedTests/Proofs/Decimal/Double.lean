import Mathlib.Algebra.Group.Nat.Defs
import PhasedTests.Decimal.Binary

/-!
# The bits of doubles

A double is its sixty-four bits, except that not-a-number has a single pattern. These lemmas take
the bits apart and put them together again, so that a double can be recognised by its bits alone:
not-a-number and the two infinities by their patterns, a finite double by its magnitude.
-/

namespace PhasedTests.Decimal

open Float.Model (Format)
open Float.Model.UnpackedFloat

/-- The mantissa field holds the lowest fifty-two bits. -/
private theorem toNat_unpackMantissa (bits : BitVec 64) :
    (@unpackMantissa Format.binary64 bits).toNat = bits.toNat % 2 ^ 52 := by
  unfold unpackMantissa
  simp [BitVec.extractLsb]

/-- The exponent field holds the next eleven bits. -/
private theorem toNat_unpackExponent (bits : BitVec 64) :
    (@unpackExponent Format.binary64 bits).toNat = bits.toNat / 2 ^ 52 % 2 ^ 11 := by
  unfold unpackExponent
  simp [BitVec.extractLsb, Nat.shiftRight_eq_div_pow]

/-- The sign field holds the highest bit. -/
private theorem toNat_unpackSign (bits : BitVec 64) :
    (@unpackSign Format.binary64 bits).toNat = bits.toNat / 2 ^ 63 % 2 := by
  unfold unpackSign
  simp [BitVec.extractLsb, Nat.shiftRight_eq_div_pow]

private theorem toBitVec_ofBitVec (bit : BitVec 1) : (Sign.ofBitVec bit).toBitVec = bit := by
  revert bit
  decide

private theorem toNat_packComponents (sign : Sign) (exponent : BitVec 11) (mantissa : BitVec 52) :
    (packComponents Format.binary64 sign exponent mantissa).toNat =
      (sign.toBitVec.toNat * 2 ^ 11 + exponent.toNat) * 2 ^ 52 + mantissa.toNat := by
  unfold packComponents
  rw [BitVec.toNat_append, ← Nat.shiftLeft_add_eq_or_of_lt mantissa.isLt, BitVec.toNat_append,
    ← Nat.shiftLeft_add_eq_or_of_lt exponent.isLt, Nat.shiftLeft_eq, Nat.shiftLeft_eq]

/-- The three fields of a bit pattern make it up again. -/
private theorem packComponents_fields (bits : BitVec 64) :
    packComponents Format.binary64 (Sign.ofBitVec (@unpackSign Format.binary64 bits))
      (@unpackExponent Format.binary64 bits)
      (@unpackMantissa Format.binary64 bits) = bits := by
  apply BitVec.eq_of_toNat_eq
  rw [toNat_packComponents, toBitVec_ofBitVec, toNat_unpackSign, toNat_unpackExponent,
    toNat_unpackMantissa]
  have hbits := bits.isLt
  omega

/-- A mantissa below the implicit bit is packed as it is, with an empty exponent field. -/
private theorem pack_subnormal {sign : Sign} {mantissa : BitVec 52} {exponent : Int}
    (hexponent : exponent = -1074) (hpos : 0 < mantissa.toNat) :
    pack Format.binary64 (.finite sign mantissa.toNat exponent hpos) =
      packComponents Format.binary64 sign 0#11 mantissa := by
  subst hexponent
  have hlog : ¬52 ≤ mantissa.toNat.log2 := by
    rw [Nat.le_log2 (by omega)]
    have := mantissa.isLt
    omega
  have hbits : ¬mantissa.toNat.log2 + 1 = Format.binary64.mantissaBits := by
    intro heq
    have hfiftyThree : Format.binary64.mantissaBits = 53 := by decide
    omega
  unfold pack
  dsimp only
  rw [if_neg (by decide), if_neg hbits, BitVec.ofNat_toNat, BitVec.setWidth_eq]

/-- A mantissa with the implicit bit loses it when it is packed. -/
private theorem pack_normal {sign : Sign} {exponent : BitVec 11} {mantissa : BitVec 52}
    (hexponent : exponent.toNat < 2047) (hpos : 0 < (1#1 ++ mantissa).toNat) :
    pack Format.binary64 (.finite sign (1#1 ++ mantissa).toNat
        (exponent.toNat - (Format.binary64.exponentBias + 52 : Nat)) hpos) =
      packComponents Format.binary64 sign exponent mantissa := by
  have hvalue : (1#1 ++ mantissa).toNat = 2 ^ 52 + mantissa.toNat := by
    rw [BitVec.toNat_append, ← Nat.shiftLeft_add_eq_or_of_lt mantissa.isLt, Nat.shiftLeft_eq]
    rfl
  have hlog : (1#1 ++ mantissa).toNat.log2 = 52 := by
    rw [Nat.log2_eq_iff (by omega), hvalue]
    have := mantissa.isLt
    omega
  have hbias : Format.binary64.exponentBias = 1023 := by decide
  have hfield : ((exponent.toNat : Int) - (Format.binary64.exponentBias + 52 : Nat) +
      Format.binary64.exponentBias + Format.binary64.mantissaBitsWithoutImplicit).toNat =
        exponent.toNat := by
    rw [hbias]
    change ((exponent.toNat : Int) - (1023 + 52 : Nat) + 1023 + 52).toNat = _
    omega
  have hrest : BitVec.ofNat 52 (1#1 ++ mantissa).toNat = mantissa := by
    apply BitVec.eq_of_toNat_eq
    rw [BitVec.toNat_ofNat, hvalue, Nat.add_mod_left, Nat.mod_eq_of_lt mantissa.isLt]
  have hbits : 52 + 1 = Format.binary64.mantissaBits := by decide
  unfold pack
  dsimp only
  rw [hfield, hlog, if_neg (by omega), if_pos hbits, hrest,
    BitVec.ofNat_toNat, BitVec.setWidth_eq]

/-- Unpacking and packing again loses nothing from a valid bit pattern. -/
private theorem pack_unpack {bits : BitVec 64} (hvalid : Format.binary64.Valid bits) :
    pack Format.binary64 (unpack Format.binary64 bits) = bits := by
  have hfields := packComponents_fields bits
  unfold unpack
  dsimp only
  by_cases hfinite : @unpackExponent Format.binary64 bits = -1#11
  · rw [if_pos hfinite]
    by_cases hmantissa : @unpackMantissa Format.binary64 bits = 0#52
    · rw [if_pos hmantissa]
      rw [hfinite, hmantissa] at hfields
      exact hfields
    · rw [if_neg hmantissa]
      exact (hvalid.eq_packedNaN hfinite hmantissa).symm
  · rw [if_neg hfinite]
    by_cases hexponent : @unpackExponent Format.binary64 bits = 0#11
    · rw [if_pos hexponent]
      rw [hexponent] at hfields
      by_cases hmantissa : @unpackMantissa Format.binary64 bits = 0#52
      · rw [dif_pos hmantissa]
        rw [hmantissa] at hfields
        exact hfields
      · rw [dif_neg hmantissa]
        refine (pack_subnormal ?_ _).trans hfields
        rw [hexponent]
        decide
    · rw [if_neg hexponent]
      have hlt : (@unpackExponent Format.binary64 bits).toNat < 2047 := by
        have hbound : (@unpackExponent Format.binary64 bits).toNat < 2 ^ 11 :=
          (@unpackExponent Format.binary64 bits).isLt
        have hne : (@unpackExponent Format.binary64 bits).toNat ≠ 2047 :=
          fun heq => hfinite (BitVec.eq_of_toNat_eq heq)
        omega
      exact (pack_normal hlt _).trans hfields

/-- A double is determined by its bits. -/
theorem ofBits_toBits (x : Float) : Float.ofBits x.toBits = x := by
  obtain ⟨bits, hvalid⟩ := x
  have hbits : UInt64.ofBitVec (pack Format.binary64 (unpack Format.binary64 bits.toBitVec)) =
      bits := by
    rw [pack_unpack hvalid, UInt64.ofBitVec_toBitVec]
  have hsame (other : UInt64) (hother : Format.binary64.Valid other.toBitVec)
      (heq : other = bits) : Float.ofModel ⟨other, hother⟩ = .ofModel ⟨bits, hvalid⟩ := by
    subst heq
    rfl
  exact hsame _ _ hbits

/-- The largest exponent field marks the infinities and not-a-number. -/
private theorem unpack_special {bits : BitVec 64}
    (hexponent : @unpackExponent Format.binary64 bits = -1#11) :
    unpack Format.binary64 bits =
      if @unpackMantissa Format.binary64 bits = 0#52 then
        .infinity (Sign.ofBitVec (@unpackSign Format.binary64 bits))
      else .notANumber := by
  unfold unpack
  exact if_pos hexponent

private theorem unpack_finite {bits : BitVec 64}
    (hexponent : @unpackExponent Format.binary64 bits ≠ -1#11) :
    (unpack Format.binary64 bits).isNaN = false ∧ (unpack Format.binary64 bits).isInf = false := by
  unfold unpack
  dsimp only
  rw [if_neg hexponent]
  by_cases hzero : @unpackExponent Format.binary64 bits = 0#11
  · rw [if_pos hzero]
    by_cases hmantissa : @unpackMantissa Format.binary64 bits = 0#52
    · rw [dif_pos hmantissa]
      exact ⟨rfl, rfl⟩
    · rw [dif_neg hmantissa]
      exact ⟨rfl, rfl⟩
  · rw [if_neg hzero]
    exact ⟨rfl, rfl⟩

/-- Not-a-number has one bit pattern. -/
theorem eq_ofBits_of_isNaN {x : Float} (hnan : x.isNaN = true) :
    x = Float.ofBits 0x7FF8000000000000 := by
  have hbits : x.toBits = 0x7FF8000000000000 := by
    obtain ⟨bits, hvalid⟩ := x
    change (unpack Format.binary64 bits.toBitVec).isNaN = true at hnan
    by_cases hexponent : @unpackExponent Format.binary64 bits.toBitVec = -1#11
    · rw [unpack_special hexponent] at hnan
      by_cases hmantissa : @unpackMantissa Format.binary64 bits.toBitVec = 0#52
      · rw [if_pos hmantissa] at hnan
        cases hnan
      · apply UInt64.toBitVec_inj.mp
        exact hvalid.eq_packedNaN hexponent hmantissa
    · rw [(unpack_finite hexponent).1] at hnan
      cases hnan
  rw [← hbits, ofBits_toBits]

/-- The magnitude of an infinite double. -/
theorem toBits_mod_signBit_of_isInf {x : Float} (hinf : x.isInf = true) :
    x.toBits.toNat % signBit = infinityBits := by
  obtain ⟨bits, hvalid⟩ := x
  change (unpack Format.binary64 bits.toBitVec).isInf = true at hinf
  by_cases hexponent : @unpackExponent Format.binary64 bits.toBitVec = -1#11
  · rw [unpack_special hexponent] at hinf
    by_cases hmantissa : @unpackMantissa Format.binary64 bits.toBitVec = 0#52
    · have hupper := congrArg BitVec.toNat hexponent
      have hlower := congrArg BitVec.toNat hmantissa
      rw [toNat_unpackExponent] at hupper
      rw [toNat_unpackMantissa] at hlower
      change bits.toNat / 2 ^ 52 % 2 ^ 11 = 2047 at hupper
      change bits.toNat % 2 ^ 52 = 0 at hlower
      change bits.toNat % 0x8000000000000000 = 0x7FF0000000000000
      omega
    · rw [if_neg hmantissa] at hinf
      cases hinf
  · rw [(unpack_finite hexponent).2] at hinf
    cases hinf

/-- The magnitude of a finite double lies below that of the infinite ones. -/
theorem toBits_mod_signBit_lt {x : Float} (hnan : x.isNaN = false) (hinf : x.isInf = false) :
    x.toBits.toNat % signBit < infinityBits := by
  obtain ⟨bits, hvalid⟩ := x
  change (unpack Format.binary64 bits.toBitVec).isNaN = false at hnan
  change (unpack Format.binary64 bits.toBitVec).isInf = false at hinf
  by_cases hexponent : @unpackExponent Format.binary64 bits.toBitVec = -1#11
  · rw [unpack_special hexponent] at hnan hinf
    by_cases hmantissa : @unpackMantissa Format.binary64 bits.toBitVec = 0#52
    · rw [if_pos hmantissa] at hinf
      cases hinf
    · rw [if_neg hmantissa] at hnan
      cases hnan
  · have hne : bits.toNat / 2 ^ 52 % 2 ^ 11 ≠ 2047 := fun heq =>
      hexponent (BitVec.eq_of_toNat_eq ((toNat_unpackExponent bits.toBitVec).trans heq))
    change bits.toNat % 0x8000000000000000 < 0x7FF0000000000000
    omega

/-- A double is its magnitude with its sign. -/
theorem toBits_eq (x : Float) :
    x.toBits.toNat = x.toBits.toNat % signBit + if isNegative x then signBit else 0 := by
  have hlt : x.toBits.toNat < 2 ^ 64 := x.toBits.toNat_lt
  unfold isNegative
  change _ = x.toBits.toNat % 0x8000000000000000 +
    if decide (0x8000000000000000 ≤ x.toBits.toNat) then 0x8000000000000000 else 0
  split
  · rename_i hneg
    have := of_decide_eq_true hneg
    omega
  · rename_i hpos
    have := of_decide_eq_false (Bool.not_eq_true _ ▸ hpos)
    omega

/-- The double of a magnitude and a sign. -/
theorem eq_ofBits_of_magnitude {x : Float} {magnitude : Nat}
    (hmagnitude : magnitude = x.toBits.toNat % signBit) :
    Float.ofBits (UInt64.ofNat (magnitude + if isNegative x then signBit else 0)) = x := by
  rw [hmagnitude, ← toBits_eq, UInt64.ofNat_toNat, ofBits_toBits]

private theorem compare_self {value : Float.Model.UnpackedFloat} (hnan : value.isNaN = false) :
    value.compare value = some .eq := by
  cases value with
  | notANumber => cases hnan
  | infinity sign => cases sign <;> rfl
  | zero sign => cases sign <;> rfl
  | finite sign mantissa exponent hpos =>
    have hexponent : compare exponent exponent = .eq := Std.ReflCmp.compare_self
    have hmantissa : compare mantissa mantissa = .eq := Std.ReflCmp.compare_self
    cases sign with
    | positive =>
      change some ((compare exponent exponent).then (compare mantissa mantissa)) = _
      rw [hexponent, hmantissa]
      rfl
    | negative =>
      change some ((compare exponent exponent).then (compare mantissa mantissa)).swap = _
      rw [hexponent, hmantissa]
      rfl

/-- Only not-a-number differs from itself. -/
theorem beq_self {x : Float} (hnan : x.isNaN = false) : (x == x) = true := by
  change Float.Model.UnpackedFloat.beq x.toModel.unpack x.toModel.unpack = true
  unfold Float.Model.UnpackedFloat.beq
  rw [compare_self hnan]
  rfl

end PhasedTests.Decimal
