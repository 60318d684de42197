import Acos.PrimeCondvar.Model
import Acos.PrimeSentinel.Primes
import Mathlib.Data.Nat.Prime.Basic
import Mathlib.Data.Nat.Prime.Pow
import Mathlib.Tactic.NormNum.Prime

/-! `is_prime` compares the square of the divisor, an `int`, with a number of 64 bits. The first
square that does not fit an `int` is negative, so that the loop ends there: it knows the divisors up
to 46340 only. -/
namespace Acos.PrimeCondvar
open Acos.MachineInt

/-- The test of the loop, up to the first divisor whose square does not fit an `int`. -/
theorem square_test {num div : ℤ} (hnum : num < 2 ^ 63) (hlo : 2 ≤ div) (hhi : div ≤ 46341) :
    u64 (i32 (div * div)) ≤ num ↔ div ≤ 46340 ∧ div * div ≤ num := by
  have hlow : 4 ≤ div * div := by nlinarith
  by_cases hlast : div = 46341
  · rw [hlast]
    unfold u64 i32
    omega
  · have hsquare : div * div ≤ 46340 * 46340 := by nlinarith [show div ≤ 46340 by omega]
    rw [i32_of_range (by omega) (by omega), u64_of_range (by omega) (by omega)]
    exact ⟨fun h => ⟨by omega, h⟩, fun h => h.2⟩

theorem isPrimeLoop_spec {num : ℤ} (hnum : num < 2 ^ 63) (fuel : ℕ) :
    ∀ div : ℤ, 2 ≤ div → div ≤ 46341 → 46342 ≤ div + fuel → ∃ b, isPrimeLoop fuel num div = some b ∧
      (b = true ↔ ∀ j, div ≤ j → j ≤ 46340 → j * j ≤ num → ¬ num % j = 0) := by
  induction fuel with
  | zero =>
    intro div _ hhi hfuel
    omega
  | succ fuel ih =>
    intro div hlo hhi hfuel
    have hdiv : u64 div = div := u64_of_range (by omega) (by omega)
    have hsquares := square_test hnum hlo hhi
    rw [isPrimeLoop, hdiv]
    split_ifs with htest hdvd
    all_goals rw [hsquares] at htest
    · refine ⟨false, rfl, iff_of_false (by decide) fun hall => ?_⟩
      exact hall div le_rfl htest.1 htest.2 hdvd
    · rw [i32_of_range (by omega) (by omega)]
      obtain ⟨b, hb, hspec⟩ := ih (div + 1) (by omega) (by omega) (by omega)
      refine ⟨b, hb, hspec.trans ⟨fun hall j hj hsquare => ?_, fun hall j hj => ?_⟩⟩
      · rcases eq_or_lt_of_le hj with heq | hgt
        · rw [← heq]
          exact fun _ => hdvd
        · exact hall j (by omega) hsquare
      · exact hall j (by omega)
    · refine ⟨true, rfl, iff_of_true rfl fun j hj hint hsquare => ?_⟩
      exact absurd ⟨by omega, by nlinarith⟩ htest

/-- `is_prime` takes a number for a prime when its least factor is too large to be tried. -/
theorem isPrime_eq_minFac {n : ℕ} (hn : n < 2 ^ 63) :
    isPrime n = some (decide (n.Prime ∨ 46340 < n.minFac)) := by
  unfold isPrime
  split_ifs with hone
  · have hnot : ¬ (n.Prime ∨ 46340 < n.minFac) := by
      obtain rfl | rfl : n = 0 ∨ n = 1 := by omega
      all_goals simp [Nat.not_prime_zero, Nat.not_prime_one]
    simp [hnot]
  · have hnum : (n : ℤ) < 2 ^ 63 := by omega
    obtain ⟨b, hb, hspec⟩ := isPrimeLoop_spec hnum 46341 2 le_rfl (by omega) (by omega)
    have hiff : b = true ↔ n.Prime ∨ 46340 < n.minFac := by
      rw [hspec]
      constructor
      · intro hall
        by_contra hnot
        obtain ⟨hprime, hsmall⟩ := not_or.mp hnot
        have htwo := (Nat.minFac_prime (n := n) (by omega)).two_le
        have hsquare := Nat.minFac_sq_le_self (by omega) hprime
        rw [sq] at hsquare
        exact hall n.minFac (by omega) (by omega) (by exact_mod_cast hsquare)
          (Int.emod_eq_zero_of_dvd (by exact_mod_cast n.minFac_dvd))
      · intro hor j hj hint hsquare hmod
        obtain ⟨k, rfl⟩ := Int.eq_ofNat_of_zero_le (by omega : 0 ≤ j)
        have hdvd : k ∣ n := by exact_mod_cast Int.dvd_of_emod_eq_zero hmod
        have hsquare' : k * k ≤ n := by exact_mod_cast hsquare
        rcases hor with hprime | hlarge
        · obtain rfl | rfl := (Nat.dvd_prime hprime).mp hdvd
          · omega
          · nlinarith
        · have := Nat.minFac_le_of_dvd (by omega) hdvd
          omega
    rw [hb]
    cases b with
    | false => simp [← hiff]
    | true => simp [hiff.mp rfl]

/-- Below `2 ^ 31` the factors up to 46340 are enough. -/
theorem isPrime_eq {num : ℤ} (hnum : num < 2 ^ 31) :
    isPrime num = some (decide num.toNat.Prime) := by
  by_cases hneg : num < 0
  · have hnot : ¬ num.toNat.Prime := by
      rw [Int.toNat_of_nonpos (by omega)]
      exact Nat.not_prime_zero
    rw [isPrime, if_pos (by omega), decide_eq_false hnot]
  · obtain ⟨n, rfl⟩ := Int.eq_ofNat_of_zero_le (by omega : 0 ≤ num)
    have hiff : n.Prime ∨ 46340 < n.minFac ↔ n.Prime := by
      refine or_iff_left_of_imp fun hlarge => ?_
      by_contra hnot
      have hpos : 0 < n := by
        by_contra hzero
        rw [show n = 0 by omega, Nat.minFac_zero] at hlarge
        omega
      have hsquare := Nat.minFac_sq_le_self hpos hnot
      nlinarith
    rw [isPrime_eq_minFac (by omega), Int.toNat_natCast, decide_eq_decide.mpr hiff]

/-- The two generators agree on a number whose least factor `is_prime` tries, and on the primes. -/
theorem is_prime_agrees_iff {n : ℤ} (hlo : 0 ≤ n) (hhi : n < 2 ^ 63) :
    isPrime n = some (PrimeSentinel.prime n) ↔
      n.toNat.minFac ≤ 46340 ∨ n.toNat.minFac = n.toNat := by
  obtain ⟨n, rfl⟩ := Int.eq_ofNat_of_zero_le hlo
  rw [isPrime_eq_minFac (by omega), Int.toNat_natCast, Option.some.injEq]
  by_cases hprime : n.Prime
  · have htrue : PrimeSentinel.prime n = true := (PrimeSentinel.prime_iff n).mpr hprime
    rw [htrue, decide_eq_true (.inl hprime)]
    exact iff_of_true rfl (.inr hprime.minFac_eq)
  · have hfalse : PrimeSentinel.prime n = false := by
      rw [← Bool.not_eq_true, PrimeSentinel.prime_iff]
      exact hprime
    rw [hfalse, decide_eq_false_iff_not, not_or, Nat.not_lt]
    constructor
    · exact fun h => .inl h.2
    · rintro (hsmall | heq)
      · exact ⟨hprime, hsmall⟩
      · have hone : n ≤ 1 := by
          by_contra htwo
          exact hprime (heq ▸ Nat.minFac_prime (by omega))
        exact ⟨hprime, by omega⟩

theorem is_prime_agrees_ninety_one : isPrime 91 = some (PrimeSentinel.prime 91) :=
  (is_prime_agrees_iff (by decide) (by decide)).mpr
    (.inl ((Nat.minFac_le_of_dvd (m := 7) (by decide) (by decide)).trans (by decide)))

/-- The square of 46349, the first prime that is too large to be tried. -/
theorem is_prime_disagrees :
    ¬ ∀ n : ℤ, 0 ≤ n → n < 2 ^ 63 → isPrime n = some (PrimeSentinel.prime n) := by
  intro hall
  have hprime : Nat.Prime 46349 := by norm_num
  have hfac : (46349 ^ 2 : ℕ).minFac = 46349 := hprime.pow_minFac (by decide)
  have hslow : PrimeSentinel.prime ((46349 ^ 2 : ℕ) : ℤ) = false := by
    rw [← Bool.not_eq_true, PrimeSentinel.prime_iff, Int.toNat_natCast]
    exact Nat.Prime.not_prime_pow (by decide)
  have hfast := hall ((46349 ^ 2 : ℕ) : ℤ) (by omega) (by norm_num)
  rw [isPrime_eq_minFac (by norm_num), hslow, hfac, decide_eq_true (.inr (by decide))] at hfast
  exact absurd hfast (by decide)

end Acos.PrimeCondvar
