import Acos.FloatClassify.Model

/-! The shifts cut out the three fields, and the fields tell where the value lies. -/
namespace Acos.FloatClassify
open Acos.Ieee

section
variable (b : UInt64)

theorem sign_toNat : (sign b).toNat = b.toNat / 2 ^ 63 := by
  have hlt := b.toNat_lt
  have hshift : (sign b).toNat = (b.toNat >>> 63) % 2 ^ 8 := rfl
  rw [hshift, Nat.shiftRight_eq_div_pow]
  omega

theorem exponent_toNat : (exponent b).toNat = double.exponent b.toNat := by
  have hlt := b.toNat_lt
  have hshift : (exponent b).toNat = ((b.toNat <<< 1 % 2 ^ 64) >>> 53) % 2 ^ 16 := rfl
  rw [hshift, Nat.shiftLeft_eq, Nat.shiftRight_eq_div_pow]
  change _ = b.toNat / 2 ^ 52 % 2 ^ 11
  omega

theorem mantissa_toNat : (mantissa b).toNat = double.fraction b.toNat := by
  have hlt := b.toNat_lt
  have hshift : (mantissa b).toNat = (b.toNat <<< 12 % 2 ^ 64) >>> 12 := rfl
  rw [hshift, Nat.shiftLeft_eq, Nat.shiftRight_eq_div_pow]
  change _ = b.toNat % 2 ^ 52
  omega

theorem sign_eq_zero_iff : sign b = 0 ↔ double.negative b.toNat = false := by
  have hlt := b.toNat_lt
  rw [← UInt8.toNat_inj, sign_toNat, Format.negative, double, decide_eq_false_iff_not]
  simp only [UInt8.toNat_zero]
  omega

theorem exponent_eq_zero_iff : exponent b = 0 ↔ double.exponent b.toNat = 0 := by
  rw [← UInt16.toNat_inj, exponent_toNat, UInt16.toNat_zero]

theorem exponent_eq_max_iff : exponent b = maxExponent ↔
    double.exponent b.toNat = double.maxExponent := by
  rw [← UInt16.toNat_inj, exponent_toNat]
  rfl

theorem mantissa_eq_zero_iff : mantissa b = 0 ↔ double.fraction b.toNat = 0 := by
  rw [← UInt64.toNat_inj, mantissa_toNat, UInt64.toNat_zero]

/-- The first bit behind the point. -/
theorem quiet_iff : (mantissa b >>> (mantissaSize - signSize)) &&& lastBit = 0 ↔
    double.fraction b.toNat < 2 ^ (double.fractionBits - 1) := by
  have hlt : double.fraction b.toNat < 2 ^ 52 := double.fraction_lt b.toNat
  have hbit : ((mantissa b >>> (mantissaSize - signSize)) &&& lastBit).toNat =
      (mantissa b).toNat >>> 51 % 2 := Nat.and_one_is_mod _
  rw [← UInt64.toNat_inj, hbit, mantissa_toNat, Nat.shiftRight_eq_div_pow, UInt64.toNat_zero]
  have hhalf : 2 ^ (double.fractionBits - 1) = 2 ^ 51 := rfl
  rw [hhalf]
  omega

theorem maxExponent_ne_zero : double.maxExponent ≠ 0 := by decide

/-- The class of a number by its fields. -/
theorem floatClass_number (f : Format) (negative : Bool) {e m : ℕ} (hm : m < 2 ^ f.fractionBits) :
    floatClass f (.number negative (if negative then -f.magnitude e m else f.magnitude e m)) =
      if e = 0 ∧ m = 0 then if negative then .minusZero else .plusZero
      else if e = 0 then if negative then .minusDenormal else .plusDenormal
      else if negative then .minusRegular else .plusRegular := by
  have hnonneg := f.magnitude_nonneg e m
  have hzero := f.magnitude_eq_zero_iff e m
  have hsmall := f.magnitude_lt_iff (e := e) hm
  by_cases he : e = 0 ∧ m = 0
  · simp only [if_pos he, floatClass, hzero.mpr he, neg_zero, ite_self, if_true]
  · have hpos : 0 < f.magnitude e m := lt_of_le_of_ne hnonneg (Ne.symm (mt hzero.mp he))
    have hnot := not_lt.mpr hnonneg
    rw [if_neg he]
    by_cases h0 : e = 0
    · have hless := hsmall.mpr h0
      rw [if_pos h0]
      cases negative <;> simp [floatClass, abs_of_nonneg hnonneg, hpos, hpos.ne', hnot, hless]
    · have hless := mt hsmall.mp h0
      rw [if_neg h0]
      cases negative <;> simp [floatClass, abs_of_nonneg hnonneg, hpos, hpos.ne', hnot, hless]

/-- For all patterns of 64 bits, the class is that of the number. -/
theorem classify_eq : classify b = floatClass double (double.datum b.toNat) := by
  have hmax := maxExponent_ne_zero
  rw [classify, Format.datum]
  simp only [sign_eq_zero_iff, exponent_eq_zero_iff, exponent_eq_max_iff, mantissa_eq_zero_iff,
    quiet_iff, ne_eq]
  have hlt := double.fraction_lt b.toNat
  generalize double.fraction b.toNat = m at *
  generalize double.exponent b.toNat = e at *
  generalize double.negative b.toNat = negative
  by_cases he : e = double.maxExponent
  · have hne : e ≠ 0 := he ▸ hmax
    by_cases hm : m = 0
    · cases negative <;> simp [he, hm, hmax, floatClass]
    · by_cases hquiet : m < 2 ^ (double.fractionBits - 1)
      · simp [he, hm, hmax, hquiet, not_le.mpr hquiet, floatClass]
      · simp [he, hm, hmax, hquiet, not_lt.mp hquiet, floatClass]
  · simp only [he, false_and, if_false, floatClass_number double negative hlt]
    by_cases h0 : e = 0
    · by_cases hm : m = 0
      · cases negative <;> simp [h0, hm]
      · cases negative <;> simp [h0, hm]
    · cases negative <;> simp [h0]

/-- The last bit of a class is the sign, where there is one. -/
theorem value_sign (h : ∀ quiet, double.datum b.toNat ≠ .nan quiet) :
    (classify b).value % 2 = 1 ↔ double.negative b.toNat = true := by
  rw [classify_eq]
  have hlt := double.fraction_lt b.toNat
  unfold Format.datum at h ⊢
  generalize double.fraction b.toNat = m at *
  generalize double.exponent b.toNat = e at *
  by_cases he : e = double.maxExponent
  · by_cases hm : m = 0
    · rw [if_pos he, if_pos hm]
      cases double.negative b.toNat <;> decide
    · rw [if_pos he, if_neg hm] at h
      exact absurd rfl (h _)
  · rw [if_neg he, floatClass_number double _ hlt]
    cases double.negative b.toNat with
    | true =>
      simp only [if_true]
      split_ifs <;> decide
    | false =>
      simp only [Bool.false_eq_true, if_false]
      split_ifs <;> decide

/-- The greatest number without a leading one, and the next. -/
example : classify 0xFFFFFFFFFFFFF = .plusDenormal ∧ classify 0x10000000000000 = .plusRegular := by
  decide

end

end Acos.FloatClassify
