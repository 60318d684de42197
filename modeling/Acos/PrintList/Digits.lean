import Acos.PrintList.Model

/-! The characters of one value. The digits are right for every value but `-2^31`, whose negation in
its own type is negative. -/
namespace Acos.PrintList
open Acos.CString Acos.IntBytes Acos.MachineInt Acos.Scanf

/-- The decimal representation of an integer. -/
def decimalInt (value : ℤ) : Bytes := (if value < 0 then [45] else []) ++ decimal value.natAbs

section
variable {value : ℤ} {digits buffer : Bytes} {n : ℕ}

theorem digitLoop_zero (digits : Bytes) : digitLoop 0 digits = digits := by
  rw [digitLoop, if_pos rfl]

theorem digitLoop_append (value : ℤ) (digits : Bytes) :
    digitLoop value digits = digits ++ digitLoop value [] := by
  induction hn : value.natAbs using Nat.strong_induction_on generalizing value digits with
  | _ n ih =>
    by_cases hzero : value = 0
    · rw [hzero, digitLoop_zero, digitLoop_zero, List.append_nil]
    · have hlt : (value.tdiv 10).natAbs < n := by
        rw [Int.natAbs_tdiv, ← hn]
        exact Nat.div_lt_self (by omega) (by decide)
      rw [digitLoop, if_neg hzero, digitLoop.eq_1 value [], if_neg hzero, List.nil_append,
        ih _ hlt _ _ rfl, ih _ hlt _ [_] rfl, List.append_assoc]

theorem digitLoop_of_ne (h : value ≠ 0) :
    digitLoop value [] = byteOf (48 + value.tmod 10) :: digitLoop (value.tdiv 10) [] := by
  rw [digitLoop, if_neg h, digitLoop_append]
  rfl

theorem decimal_of_ge (h : 10 ≤ n) : decimal n = decimal (n / 10) ++ [digit (n % 10)] := by
  rw [decimal, if_neg (by omega)]

theorem digitLoop_natCast (h : 0 < n) : (digitLoop n []).reverse = decimal n := by
  induction n using Nat.strong_induction_on with
  | _ n ih =>
    have hdigit : byteOf (48 + (n : ℤ).tmod 10) = digit (n % 10) := by
      rw [Int.tmod_eq_emod_of_nonneg (by omega), byteOf, digit]
      congr 1
      omega
    have hdiv : (n : ℤ).tdiv 10 = (n / 10 : ℕ) := by
      rw [Int.tdiv_eq_ediv_of_nonneg (by omega)]
      rfl
    rw [digitLoop_of_ne (by omega), List.reverse_cons, hdigit, hdiv]
    by_cases hlast : n < 10
    · rw [Nat.div_eq_of_lt hlast, Nat.cast_zero, digitLoop_zero, decimal, if_pos hlast,
        Nat.mod_eq_of_lt hlast]
      rfl
    · rw [ih (n / 10) (by omega) (by omega), ← decimal_of_ge (by omega)]

/-- A negative number has as many digits as its absolute value. -/
theorem digitLoop_neg_length (n : ℕ) : (digitLoop (-n) []).length = (digitLoop n []).length := by
  induction n using Nat.strong_induction_on with
  | _ n ih =>
    by_cases hzero : n = 0
    · rw [hzero]
      rfl
    · have hpos : (n : ℤ) ≠ 0 := by omega
      have hdiv : (n : ℤ).tdiv 10 = (n / 10 : ℕ) := Int.tdiv_eq_ediv_of_nonneg (by omega)
      rw [digitLoop_of_ne hpos, digitLoop_of_ne (neg_ne_zero.mpr hpos), List.length_cons,
        List.length_cons, Int.neg_tdiv, hdiv, ih (n / 10) (by omega)]

/-- The digits of a number that is not negative, in the order in which they are printed. -/
theorem digits_reverse (n : ℕ) :
    (digitLoop n (if (n : ℤ) = 0 then [48] else [])).reverse = decimal n := by
  by_cases hzero : n = 0
  · rw [hzero, Nat.cast_zero, if_pos rfl, digitLoop_zero, decimal]
    rfl
  · rw [if_neg (by omega), digitLoop_natCast (by omega)]

theorem decimal_length_int32 (h : n ≤ 2 ^ 31) : (decimal n).length ≤ 10 :=
  decimal_length_le (by decide) (by omega)

theorem printed_eq (hvalue : IsInt32 value) (hmin : value ≠ -2 ^ 31) :
    printed value = some (decimalInt value ++ [32]) := by
  obtain ⟨hlo, hhi⟩ := hvalue
  have hmagnitude : (if value < 0 then i32 (value * -1) else value) = value.natAbs := by
    split_ifs with hneg
    · rw [i32_of_range (by omega) (by omega)]
      omega
    · omega
  have hlen := decimal_length_int32 (n := value.natAbs) (by omega)
  rw [← digits_reverse, List.length_reverse] at hlen
  unfold printed decimalInt
  simp only [hmagnitude]
  rw [if_pos (hlen.trans (by decide)), digits_reverse]

/-- The smallest `int` is negative after its negation, and so are its remainders. -/
theorem printed_min : ∃ chars, printed (-2 ^ 31) = some chars ∧
    chars.length = (decimalInt (-2 ^ 31) ++ [32]).length ∧ chars ≠ decimalInt (-2 ^ 31) ++ [32] := by
  have hsign : decimalInt (-2 ^ 31) = [45] ++ decimal (2 ^ 31) := rfl
  have hlen : (digitLoop (-2 ^ 31) []).length = (decimal (2 ^ 31)).length := by
    rw [← digitLoop_natCast (by decide), List.length_reverse]
    exact digitLoop_neg_length (2 ^ 31)
  have hfit := decimal_length_int32 (n := 2 ^ 31) le_rfl
  refine ⟨[45] ++ (digitLoop (-2 ^ 31) []).reverse ++ [32], ?_, ?_, ?_⟩
  · unfold printed
    have hneg : i32 (-2 ^ 31 * -1) = -2 ^ 31 := by decide
    have hlt : (-2 ^ 31 : ℤ) < 0 := by decide
    have hne : (-2 ^ 31 : ℤ) ≠ 0 := by decide
    simp only [hneg, if_pos hlt, if_neg hne]
    rw [if_pos (by omega)]
  · simp only [hsign, List.length_append, List.length_reverse, hlen]
  · intro heq
    rw [hsign, List.append_cancel_right_eq, List.append_cancel_left_eq,
      digitLoop_of_ne (by decide), List.reverse_cons, decimal_of_ge (by decide)] at heq
    have hlast := congrArg List.getLast? heq
    rw [List.getLast?_concat, List.getLast?_concat] at hlast
    exact absurd hlast (by decide)

/-- No value takes more than 12 places. -/
theorem printed_fits (hvalue : IsInt32 value) :
    ∃ chars, printed value = some chars ∧ chars.length = (decimalInt value ++ [32]).length ∧
      chars.length ≤ 12 := by
  have hlen : (decimalInt value ++ [32]).length ≤ 12 := by
    have hdigits := decimal_length_int32 (n := value.natAbs) (by
      obtain ⟨hlo, hhi⟩ := hvalue
      omega)
    have hsign : (if value < 0 then [(45 : UInt8)] else []).length ≤ 1 := by
      split_ifs <;> decide
    rw [decimalInt, List.length_append, List.length_append]
    simp only [List.length_cons, List.length_nil]
    omega
  by_cases hmin : value = -2 ^ 31
  · subst hmin
    obtain ⟨chars, hprinted, hchars, -⟩ := printed_min
    exact ⟨chars, hprinted, hchars, hchars ▸ hlen⟩
  · exact ⟨_, printed_eq hvalue hmin, rfl, hlen⟩

end

end Acos.PrintList
