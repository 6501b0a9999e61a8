import HeadlessCms.Proofs.Decimal.WholeNumbers
import Mathlib.Algebra.Group.Int.Defs
import Mathlib.Algebra.Group.Nat.Defs

/-!
# Doubles far from the end of their range

A double is below `2 ^ n` (`IsBelow n`) if it has at most `n` binary digits in front of the point.
Rounding adds at most one digit (`isBelow_roundWithAccuracy`), and storing adds none
(`isBelow_unpack_pack`).  So whole numbers of 64 bits have a finite nearest double (`isBelow_ofInt`), and
so has every number of a JSON value (`Number.InRange.isFinite_toFloat`).
-/

namespace HeadlessCms

open Float.Model (Format UnpackedFloat totalExponent)
open Float.Model.UnpackedFloat

/-- A finite double whose magnitude is below `2 ^ n`. -/
def IsBelow (n : Int) : UnpackedFloat → Prop
  | .finite _ m e _ => totalExponent m e ≤ n
  | .zero _ => True
  | .infinity _ | .notANumber => False

/-- What lies below a power of two is finite. -/
theorem IsBelow.isFinite {n : Int} {f : UnpackedFloat} (h : IsBelow n f) : f.isFinite = true := by
  cases f with
  | infinity s => exact h.elim
  | notANumber => exact h.elim
  | _ => rfl

theorem IsBelow.mono {n k : Int} {f : UnpackedFloat} (h : IsBelow n f) (hnk : n ≤ k) : IsBelow k f := by
  cases f with
  | finite s m e hm => exact Int.le_trans h hnk
  | _ => exact h

/-- The sign does not matter. -/
theorem isBelow_neg {n : Int} {f : UnpackedFloat} (h : IsBelow n f) : IsBelow n f.neg := by
  cases f with
  | infinity s => exact h.elim
  | notANumber => exact h.elim
  | _ => exact h

/-! ### Rounding -/

/-- The logarithm of a number below a power lies below the exponent. -/
theorem log2_lt_of_lt_pow {m k : Nat} (hk : 0 < k) (h : m < 2 ^ k) : m.log2 < k := by
  by_cases hm : m = 0
  · simpa [hm] using hk
  · exact (Nat.log2_lt hm).2 h

/-- The logarithm of a number up to a power does not exceed the exponent. -/
theorem log2_le_of_le_pow {m k : Nat} (h : m ≤ 2 ^ k) : m.log2 ≤ k := by
  have hlt : m < 2 ^ (k + 1) := Nat.lt_of_le_of_lt h (Nat.pow_lt_pow_succ (by decide))
  exact Nat.lt_succ_iff.1 (log2_lt_of_lt_pow (Nat.succ_pos k) hlt)

/-- A shift to the right divides the mantissa. -/
theorem mantissa_shiftRight (m : ExtendedMantissa) (k : Nat) :
    (m >>> k).mantissa = m.mantissa / 2 ^ k := by
  induction k with
  | zero => simp [HShiftRight.hShiftRight, Nat.repeat]
  | succ k ih =>
    show (m >>> k).mantissa / 2 = m.mantissa / 2 ^ (k + 1)
    rw [ih, Nat.div_div_eq_div_mul, Nat.pow_succ]

/-- Rounding adds at most one. -/
theorem roundedMantissa_le (m : ExtendedMantissa) : m.roundedMantissa ≤ m.mantissa + 1 := by
  obtain ⟨mantissa, roundBit, stickyBit⟩ := m
  cases roundBit <;> cases stickyBit <;>
    simp only [ExtendedMantissa.roundedMantissa, ExtendedMantissa.accuracy,
      Accuracy.roundToNearestEven] <;> omega

theorem mantissa_ofMantissaAndAccuracy (m : Nat) (a : Accuracy) :
    (ExtendedMantissa.ofMantissaAndAccuracy m a).mantissa = m := by
  cases a with
  | exact => rfl
  | inexact o => cases o <;> rfl

/-- Digits that are dropped from a mantissa count for the exponent: what is left, rounded up, has at
most one digit more in front of the point. -/
theorem totalExponent_succ_div_le {m r k : Nat} {e n : Int} (hr : r ≤ m / 2 ^ k + 1)
    (hm : totalExponent m e ≤ n) (hk : e + k ≤ n ∨ k = 0) :
    totalExponent r (e + k) ≤ n + 1 := by
  unfold totalExponent at hm ⊢
  by_cases hzero : m / 2 ^ k = 0
  · have hlog : r.log2 = 0 := Nat.le_zero.1 (log2_le_of_le_pow (k := 0) (by omega))
    omega
  · have hle : 2 ^ k ≤ m := Nat.not_lt.1 fun hlt => hzero (Nat.div_eq_of_lt hlt)
    have hpos : m ≠ 0 := fun h => by simp [h] at hzero
    have hkm : k ≤ m.log2 := (Nat.le_log2 hpos).2 hle
    have hlt : m / 2 ^ k < 2 ^ (m.log2 + 1 - k) := by
      rw [Nat.div_lt_iff_lt_mul (Nat.two_pow_pos k), ← Nat.pow_add,
        show m.log2 + 1 - k + k = m.log2 + 1 by omega]
      exact Nat.lt_log2_self
    have hlog : r.log2 ≤ m.log2 + 1 - k := log2_le_of_le_pow (by omega)
    omega

/-- Dropping digits without rounding adds none. -/
theorem totalExponent_div_le {m k : Nat} {e n : Int} (hm : totalExponent m e ≤ n)
    (hne : m / 2 ^ k ≠ 0) : totalExponent (m / 2 ^ k) (e + k) ≤ n := by
  unfold totalExponent at hm ⊢
  have hpos : m ≠ 0 := fun h => by simp [h] at hne
  have hle : 2 ^ ((m / 2 ^ k).log2 + k) ≤ m := by
    rw [Nat.pow_add]
    exact Nat.le_trans (Nat.mul_le_mul_right _ (Nat.log2_self_le hne)) (Nat.div_mul_le_self m _)
  have := (Nat.le_log2 hpos).2 hle
  omega

/-- **Rounding at most doubles.** -/
theorem isBelow_roundWithAccuracy {n : Int} {m : Nat} {e : Int} (s : Sign) (a : Accuracy)
    (hm : totalExponent m e ≤ n) (hn : -1074 ≤ n) :
    IsBelow (n + 1) (roundWithAccuracy Format.binary64 s m e a) := by
  unfold roundWithAccuracy shiftToTargetExponent shiftToExponent
  dsimp only
  generalize hk : (Format.binary64.targetExponent (totalExponent m e) - e).toNat = k
  generalize hr : (ExtendedMantissa.ofMantissaAndAccuracy m a >>> k).roundedMantissa = r
  generalize (Format.binary64.targetExponent (totalExponent r (e + k)) - (e + k)).toNat = l
  have htarget : Format.binary64.targetExponent (totalExponent m e) ≤ n := by
    have hbits : (Format.binary64.mantissaBits : Int) = 53 := rfl
    have hmin : Format.binary64.minExponent = -1074 := by decide
    unfold Format.targetExponent
    omega
  have hrounded : r ≤ m / 2 ^ k + 1 := by
    have := roundedMantissa_le (ExtendedMantissa.ofMantissaAndAccuracy m a >>> k)
    rwa [hr, mantissa_shiftRight, mantissa_ofMantissaAndAccuracy] at this
  have hr := totalExponent_succ_div_le hrounded hm (by omega)
  rw [mantissa_shiftRight, mantissa_ofMantissaAndAccuracy]
  by_cases hzero : r / 2 ^ l = 0
  · rw [dif_pos hzero]
    trivial
  · rw [dif_neg hzero]
    exact totalExponent_div_le hr hzero

/-- A product lies below the product of the bounds, with one bit for rounding. -/
theorem isBelow_mul {n k : Int} {f g : UnpackedFloat} (hf : IsBelow n f) (hg : IsBelow k g)
    (hlow : -1074 ≤ n + k) : IsBelow (n + k + 1) (mul Format.binary64 f g) := by
  cases f with
  | infinity s => exact hf.elim
  | notANumber => exact hf.elim
  | zero s =>
    cases g with
    | infinity t => exact hg.elim
    | notANumber => exact hg.elim
    | _ => trivial
  | finite s m e hm =>
    cases g with
    | infinity t => exact hg.elim
    | notANumber => exact hg.elim
    | zero t => trivial
    | finite t l d hl =>
      refine isBelow_roundWithAccuracy _ _ ?_ hlow
      have hlog : (m * l).log2 < m.log2 + 1 + (l.log2 + 1) := by
        rw [Nat.log2_lt (Nat.mul_ne_zero (by omega) (by omega)), Nat.pow_add]
        exact Nat.mul_lt_mul'' Nat.lt_log2_self Nat.lt_log2_self
      have hf : totalExponent m e ≤ n := hf
      have hg : totalExponent l d ≤ k := hg
      unfold totalExponent at hf hg ⊢
      omega

/-! ### Storing -/

/-- The exponent of stored bits tells how large a double is. -/
theorem isBelow_unpack {n : Int} {b : BitVec Format.binary64.numBits}
    (hfinite : unpackExponent b ≠ -1#_)
    (hexponent : (unpackExponent b).toNat - 1022 ≤ n) : IsBelow n (unpack Format.binary64 b) := by
  have hbias : Format.binary64.exponentBias = 1023 := by decide
  have hmantissa : (unpackMantissa b).toNat < 2 ^ 52 := (unpackMantissa b).isLt
  unfold unpack
  dsimp only
  rw [if_neg hfinite, hbias]
  by_cases hsmall : unpackExponent b = 0#_
  · have hzero : (unpackExponent b).toNat = 0 := by rw [hsmall]; rfl
    rw [if_pos hsmall]
    by_cases hnothing : unpackMantissa b = 0#_
    · rw [dif_pos hnothing]
      trivial
    · have hlog := log2_lt_of_lt_pow (by decide) hmantissa
      rw [dif_neg hnothing]
      show totalExponent _ _ ≤ n
      unfold totalExponent
      omega
  · have hnormal : (1#1 ++ unpackMantissa b).toNat < 2 ^ 53 := (1#1 ++ unpackMantissa b).isLt
    have hlog := log2_lt_of_lt_pow (by decide) hnormal
    rw [if_neg hsmall]
    show totalExponent _ _ ≤ n
    unfold totalExponent
    omega

/-- **Storing keeps the magnitude.** -/
theorem isBelow_unpack_pack {n : Int} {f : UnpackedFloat} (hf : IsBelow n f) (hlow : -1022 ≤ n)
    (hhigh : n ≤ 900) : IsBelow n (unpack Format.binary64 (pack Format.binary64 f)) := by
  cases f with
  | infinity s => exact hf.elim
  | notANumber => exact hf.elim
  | zero s =>
    refine isBelow_unpack ?_ ?_
    · show unpackExponent (packComponents _ _ _ _) ≠ _
      rw [unpackExponent_packComponents]
      decide
    · show ((unpackExponent (packComponents Format.binary64 _ _ _)).toNat : Int) - 1022 ≤ n
      rw [unpackExponent_packComponents]
      exact hlow
  | finite s m e hm =>
    have hbias : ((Format.binary64.exponentBias : Nat) : Int) = 1023 := rfl
    have hwidth : ((Format.binary64.mantissaBitsWithoutImplicit : Nat) : Int) = 52 := rfl
    have htotal : (m.log2 : Int) + 1 + e ≤ n := hf
    unfold pack
    dsimp only
    generalize hstored : (e + (Format.binary64.exponentBias : Int) +
      (Format.binary64.mantissaBitsWithoutImplicit : Int)).toNat = stored
    have hfits : stored < 2046 := by omega
    rw [if_neg (by omega)]
    split
    · next hnormal =>
      have hdigits : m.log2 = 52 := by
        have hbits : Format.binary64.mantissaBits = 53 := rfl
        omega
      have hbits : (BitVec.ofNat Format.binary64.exponentBits stored).toNat = stored :=
        Nat.mod_eq_of_lt (Nat.lt_trans hfits (by decide))
      refine isBelow_unpack ?_ ?_
      · rw [unpackExponent_packComponents]
        intro hall
        have hstored : stored = 2047 := by
          rw [← hbits, hall]
          rfl
        omega
      · rw [unpackExponent_packComponents, hbits]
        omega
    · refine isBelow_unpack ?_ ?_
      · rw [unpackExponent_packComponents]
        decide
      · rw [unpackExponent_packComponents]
        exact hlow

/-! ### Whole numbers -/

/-- A shift to the left adds to the logarithm. -/
theorem log2_shiftLeft {m : Nat} (hm : m ≠ 0) (k : Nat) : (m <<< k).log2 = m.log2 + k := by
  induction k with
  | zero => rfl
  | succ k ih =>
    have hne : m <<< k ≠ 0 := fun h => hm (Nat.shiftLeft_eq_zero_iff.1 h)
    rw [Nat.shiftLeft_succ, Nat.log2_two_mul hne, ih, Nat.add_assoc]

/-- Digits that are added behind the point change no magnitude. -/
theorem totalExponent_shiftLeft {m : Nat} (hm : m ≠ 0) (e : Int) (k : Nat) :
    totalExponent (m <<< k) (e - k) = totalExponent m e := by
  unfold totalExponent
  rw [log2_shiftLeft hm]
  omega

/-- A number of some bits has at most this exponent. -/
theorem totalExponent_le {n m : Nat} (hne : m ≠ 0) (hm : m < 2 ^ n) : totalExponent m 0 ≤ n := by
  have := (Nat.log2_lt hne).2 hm
  unfold totalExponent
  omega

/-- A number of some bits becomes a double below the next power. -/
theorem isBelow_normalize {n m : Nat} (hm : m < 2 ^ n) :
    IsBelow (n + 1) (UnpackedFloat.normalize Format.binary64 m 0 .positive) := by
  unfold UnpackedFloat.normalize
  split
  · next hneg => exact absurd (Int.compare_eq_lt.1 hneg) (by omega)
  · trivial
  · next hpos =>
    have hne : m ≠ 0 := fun h => by simp [h] at hpos
    refine isBelow_roundWithAccuracy _ _ ?_ (by omega)
    rw [Int.toNat_natCast, totalExponent_shiftLeft hne]
    exact totalExponent_le hne hm

/-- A number of some bits lies below the next power but one when it is read as a decimal. -/
theorem isBelow_ofScientific {n m : Nat} (hm : m < 2 ^ n) :
    IsBelow (n + 1 + 1) (ofScientific Format.binary64 m 0) := by
  unfold ofScientific
  by_cases hzero : m = 0
  · rw [dif_pos hzero]
    trivial
  · have hlarge : ¬ (0 : Int) > 2 ^ Format.binary64.exponentBits := by decide
    have hsmall : ¬ (0 : Int) < -(2 ^ Format.binary64.exponentBits + m.log2) := by omega
    rw [dif_neg hzero, if_neg hlarge, if_neg hsmall, if_pos (Int.le_refl 0)]
    have hmantissa : totalExponent (m <<< Format.binary64.mantissaBits)
        (-Format.binary64.mantissaBits) ≤ n := by
      rw [← Int.zero_sub, totalExponent_shiftLeft hzero]
      exact totalExponent_le hzero hm
    have hpower : totalExponent (10 ^ (0 : Int).toNat) 0 ≤ 1 := by decide
    refine isBelow_mul (n := n) (k := 1) ?_ ?_ ?_
    · exact hmantissa
    · exact hpower
    · omega

/-- **A whole number of 64 bits has a finite nearest double.** -/
theorem isBelow_ofNat {m : Nat} (hm : m < 2 ^ 64) :
    IsBelow 67 (Float.ofNat m).toModel.unpack := by
  show IsBelow 67 (Float.ofScientific m false 0).toModel.unpack
  unfold Float.ofScientific
  split
  · -- A small number is turned into a double as it is, and multiplied by one.
    show IsBelow 67 (unpack Format.binary64 (pack Format.binary64 (mul Format.binary64
      (unpack Format.binary64 (pack Format.binary64
        (UnpackedFloat.normalize Format.binary64 m.toUInt64.toNat 0 .positive)))
      (Float.ofBits 0x3FF0000000000000).toModel.unpack)))
    have hone : IsBelow 1 (Float.ofBits 0x3FF0000000000000).toModel.unpack :=
      show totalExponent (2 ^ 52) (-52) ≤ 1 by decide
    have hsmall := isBelow_unpack_pack (isBelow_normalize (n := 64) m.toUInt64.toNat_lt) (by decide)
      (by decide)
    exact isBelow_unpack_pack (isBelow_mul hsmall hone (by decide)) (by decide) (by decide)
  · have hexact := isBelow_unpack_pack (isBelow_ofScientific hm) (by decide) (by decide)
    exact hexact.mono (by decide)

/-- Integers of 64 bits become doubles far below the greatest one. -/
theorem isBelow_ofInt {i : Int} (hlow : -2 ^ 64 < i) (hhigh : i < 2 ^ 64) :
    IsBelow 67 (Float.ofInt i).toModel.unpack := by
  cases i with
  | ofNat m =>
    have hm : (m : Int) < 2 ^ 64 := hhigh
    exact isBelow_ofNat (by omega)
  | negSucc m =>
    have hm : IsBelow 67 (Float.ofNat (m + 1)).toModel.unpack := isBelow_ofNat (by omega)
    exact isBelow_unpack_pack (isBelow_neg hm) (by decide) (by decide)

namespace Number

/-- A number that a JSON value can hold: a whole number of 64 bits with or without a sign, or a finite
double. -/
def InRange : Number → Prop
  | int i => -2 ^ 63 ≤ i ∧ i < 2 ^ 64
  | float x => x.isFinite = true

/-- **The nearest double of a number of a JSON value is finite.** -/
theorem InRange.isFinite_toFloat {n : Number} (h : n.InRange) : n.toFloat.isFinite = true := by
  cases n with
  | int i => exact (isBelow_ofInt (Int.lt_of_lt_of_le (by decide) h.1) h.2).isFinite
  | float x => exact h

end Number

end HeadlessCms
