import HeadlessCms.Json.Basic

/-!
# Doubles of whole numbers

What is stored as a number is read as a number (`isNaN_unpack_pack`), and the nearest double of a whole
number comes from finite doubles by products alone.  So it is a number, if only an infinite one
(`isNaN_ofInt`).
-/

namespace HeadlessCms

open Float.Model (Format UnpackedFloat)
open Float.Model.UnpackedFloat

/-! ### Storing doubles -/

/-- Bits are read as a number unless all bits of the exponent are set, and one of the mantissa. -/
theorem isNaN_unpack (spec : Format) {b : BitVec spec.numBits}
    (h : unpackExponent b = -1#_ → unpackMantissa b = 0#_) : (unpack spec b).isNaN = false := by
  unfold unpack
  dsimp only
  by_cases hall : unpackExponent b = -1#_
  · rw [if_pos hall, if_pos (h hall)]
    rfl
  · rw [if_neg hall]
    by_cases hsmall : unpackExponent b = 0#_
    · rw [if_pos hsmall]
      by_cases hzero : unpackMantissa b = 0#_
      · rw [dif_pos hzero]
        rfl
      · rw [dif_neg hzero]
        rfl
    · rw [if_neg hsmall]
      rfl

/-- Packed components are a number unless the exponent is all ones above a mantissa. -/
theorem isNaN_unpack_packComponents (spec : Format) (sign : Sign)
    {exponent : BitVec spec.exponentBits} {mantissa : BitVec spec.mantissaBitsWithoutImplicit}
    (h : exponent = -1#_ → mantissa = 0#_) :
    (unpack spec (packComponents spec sign exponent mantissa)).isNaN = false := by
  apply isNaN_unpack
  rw [unpackExponent_packComponents, unpackMantissa_packComponents]
  exact h

/-- **What is stored as a number is read as a number.**  Only an infinite one has all bits of the
exponent set. -/
theorem isNaN_unpack_pack (spec : Format) {f : UnpackedFloat} (h : f.isNaN = false) :
    (unpack spec (pack spec f)).isNaN = false := by
  cases f with
  | notANumber => cases h
  | infinity s => exact isNaN_unpack_packComponents spec s fun _ => rfl
  | zero s => exact isNaN_unpack_packComponents spec s fun _ => rfl
  | finite s m e hm =>
    unfold pack
    dsimp only
    split
    · exact isNaN_unpack_packComponents spec s fun _ => rfl
    · next hfits =>
      have hpow : 1 < 2 ^ spec.exponentBits := Nat.one_lt_two_pow (Nat.ne_of_gt spec.he)
      split
      · refine isNaN_unpack_packComponents spec s fun hall => ?_
        have hbits := congrArg BitVec.toNat hall
        simp only [BitVec.neg_one_eq_allOnes, BitVec.toNat_ofNat, BitVec.toNat_allOnes] at hbits
        rw [Nat.mod_eq_of_lt (by omega)] at hbits
        omega
      · refine isNaN_unpack_packComponents spec s fun hall => ?_
        have hbits := congrArg BitVec.toNat hall
        simp only [BitVec.neg_one_eq_allOnes, BitVec.toNat_ofNat, BitVec.toNat_allOnes,
          Nat.zero_mod] at hbits
        omega

/-! ### Whole numbers -/

/-- Rounding gives a number. -/
theorem isNaN_roundWithAccuracy (spec : Format) (s : Sign) (m : Nat) (e : Int) (a : Accuracy) :
    (roundWithAccuracy spec s m e a).isNaN = false := by
  unfold roundWithAccuracy
  dsimp only
  generalize (shiftToTargetExponent spec _ _ Accuracy.exact).1.mantissa = rounded
  by_cases hzero : rounded = 0
  · rw [dif_pos hzero]
    rfl
  · rw [dif_neg hzero]
    rfl

/-- A product with a finite factor is a number if the other factor is one. -/
theorem isNaN_mul_finite (spec : Format) {f : UnpackedFloat} (h : f.isNaN = false) (s : Sign) (m : Nat)
    (e : Int) (hm : 0 < m) : (mul spec f (.finite s m e hm)).isNaN = false := by
  cases f with
  | notANumber => cases h
  | infinity s' => rfl
  | zero s' => rfl
  | finite s' m' e' hm' => exact isNaN_roundWithAccuracy spec _ _ _ _

/-- Negation keeps numbers. -/
theorem isNaN_neg {f : UnpackedFloat} (h : f.isNaN = false) : f.neg.isNaN = false := by
  cases f with
  | notANumber => cases h
  | _ => rfl

/-- The normal form of a number is a number. -/
theorem isNaN_normalize (spec : Format) (m e : Int) (s : Sign) :
    (UnpackedFloat.normalize spec m e s).isNaN = false := by
  unfold UnpackedFloat.normalize
  split
  · exact isNaN_roundWithAccuracy spec _ _ _ _
  · rfl
  · exact isNaN_roundWithAccuracy spec _ _ _ _

/-- A whole number that is scaled by no power of ten. -/
theorem isNaN_ofScientific (n : Nat) : (ofScientific Format.binary64 n 0).isNaN = false := by
  unfold ofScientific
  by_cases hzero : n = 0
  · rw [dif_pos hzero]
    rfl
  · have hlarge : ¬ (0 : Int) > 2 ^ Format.binary64.exponentBits := by decide
    have hsmall : ¬ (0 : Int) < -(2 ^ Format.binary64.exponentBits + n.log2) := by omega
    rw [dif_neg hzero, if_neg hlarge, if_neg hsmall, if_pos (Int.le_refl 0)]
    exact isNaN_mul_finite _ rfl _ _ _ _

/-- A whole number becomes a number. -/
theorem isNaN_ofNat (n : Nat) : (Float.ofNat n).isNaN = false := by
  show (Float.ofScientific n false 0).isNaN = false
  unfold Float.ofScientific
  split
  · -- A small number is turned into a double as it is, and multiplied by one.
    show (unpack Format.binary64 (pack Format.binary64 (mul Format.binary64
      (unpack Format.binary64 (pack Format.binary64
        (UnpackedFloat.normalize Format.binary64 n.toUInt64.toNat 0 .positive)))
      (Float.ofBits 0x3FF0000000000000).toModel.unpack))).isNaN = false
    have hone : (Float.ofBits 0x3FF0000000000000).toModel.unpack =
        .finite .positive (2 ^ 52) (-52) (by decide) := rfl
    have hsmall : (unpack Format.binary64 (pack Format.binary64
        (UnpackedFloat.normalize Format.binary64 n.toUInt64.toNat 0 .positive))).isNaN = false :=
      isNaN_unpack_pack _ (isNaN_normalize _ _ _ _)
    rw [hone]
    exact isNaN_unpack_pack _ (isNaN_mul_finite _ hsmall _ _ _ _)
  · exact isNaN_unpack_pack _ (isNaN_ofScientific n)

/-- **The nearest double of a whole number is a number.** -/
theorem isNaN_ofInt (i : Int) : (Float.ofInt i).isNaN = false := by
  cases i with
  | ofNat n => exact isNaN_ofNat n
  | negSucc n =>
    have h : (Float.ofNat (n + 1)).toModel.unpack.isNaN = false := isNaN_ofNat (n + 1)
    exact isNaN_unpack_pack _ (isNaN_neg h)

end HeadlessCms
