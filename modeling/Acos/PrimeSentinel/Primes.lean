import Acos.PrimeSentinel.Model
import Mathlib.Data.Nat.Prime.Basic
import Mathlib.Tactic.Linarith

/-! The primality test of the generator, and the increasing list of primes it walks along. -/
namespace Acos.PrimeSentinel

theorem primeLoop_iff (number i : ℤ) :
    primeLoop number i = true ↔ ∀ j, i ≤ j → j ≤ number / 2 → number % j ≠ 0 := by
  fun_induction primeLoop number i with
  | case1 i hi hdvd =>
    simp only [Bool.false_eq_true, false_iff, not_forall]
    exact ⟨i, le_refl i, hi, not_not.mpr hdvd⟩
  | case2 i hi hdvd ih =>
    rw [ih]
    constructor
    · intro h j hj hhalf
      rcases eq_or_lt_of_le hj with rfl | hlt
      · exact hdvd
      · exact h j hlt hhalf
    · intro h j hj
      exact h j (by omega)
  | case3 i hi =>
    simp only [true_iff]
    intro j hj hhalf
    omega

/-- The divisors up to `number / 2` are enough. -/
theorem prime_iff (number : ℤ) : prime number = true ↔ number.toNat.Prime := by
  unfold prime
  split_ifs with hone heven
  · refine iff_of_false (by decide) fun hp => ?_
    have := hp.two_le
    omega
  · obtain ⟨n, rfl⟩ := Int.eq_ofNat_of_zero_le (by omega : 0 ≤ number)
    simp only [Int.toNat_natCast, decide_eq_true_eq]
    constructor
    · intro h
      have : n = 2 := by omega
      subst this
      exact Nat.prime_two
    · intro hp
      have h2 : 2 ∣ n := by omega
      rcases hp.eq_one_or_self_of_dvd 2 h2 with h | h <;> omega
  · obtain ⟨n, rfl⟩ := Int.eq_ofNat_of_zero_le (by omega : 0 ≤ number)
    rw [primeLoop_iff, Int.toNat_natCast]
    constructor
    · intro h
      refine Nat.prime_def_lt.mpr ⟨by omega, fun m hlt hdvd => ?_⟩
      by_contra hne
      have hpos := Nat.pos_of_dvd_of_pos hdvd (by omega)
      obtain ⟨c, rfl⟩ := hdvd
      have hc : 2 ≤ c := by
        by_contra hc
        rcases (by omega : c = 0 ∨ c = 1) with rfl | rfl
        · simp at hlt
        · omega
      have hmul : m * 2 ≤ m * c := Nat.mul_le_mul_left m hc
      apply h m (by omega) (by omega)
      push_cast
      exact Int.mul_emod_right _ _
    · intro hp j hj hhalf hmod
      obtain ⟨m, rfl⟩ := Int.eq_ofNat_of_zero_le (by omega : 0 ≤ j)
      have hdvd : m ∣ n := by exact_mod_cast Int.dvd_of_emod_eq_zero hmod
      rcases hp.eq_one_or_self_of_dvd m hdvd with h | h <;> omega

/-- The primes of `[A, B]` in increasing order. -/
def primesIn (A B : ℤ) : List ℤ :=
  ((List.range (B + 1 - A).toNat).map fun k : ℕ => A + k).filter fun p => p.toNat.Prime

/-- The primes of `[A, i)`, which the generator has passed when it stands at `i`. -/
def primesBelow (A i : ℤ) : List ℤ := primesIn A (i - 1)

@[simp] theorem primesBelow_self (A : ℤ) : primesBelow A A = [] := by
  simp [primesBelow, primesIn]

theorem primesBelow_succ {A i : ℤ} (h : A ≤ i) :
    primesBelow A (i + 1) = primesBelow A i ++ if prime i then [i] else [] := by
  obtain ⟨n, hn⟩ := Int.eq_ofNat_of_zero_le (by omega : 0 ≤ i - A)
  have hlen : (i + 1 - 1 + 1 - A).toNat = n + 1 := by omega
  have hlen' : (i - 1 + 1 - A).toNat = n := by omega
  have hlast : A + (n : ℤ) = i := by omega
  simp only [primesBelow, primesIn, hlen, hlen', List.range_succ, List.map_append,
    List.filter_append, List.map_cons, List.map_nil, hlast, prime_iff]
  congr 1
  by_cases hp : i.toNat.Prime <;> simp [hp]

theorem primesBelow_prefix {A i : ℤ} (h : A ≤ i) (m : ℕ) :
    primesBelow A i <+: primesBelow A (i + m) := by
  induction m with
  | zero => simp
  | succ m ih =>
    have hsucc := primesBelow_succ (A := A) (i := i + m) (by omega)
    have heq : i + ((m + 1 : ℕ) : ℤ) = i + m + 1 := by omega
    rw [heq, hsucc]
    exact ih.trans (List.prefix_append _ _)

theorem primesBelow_mono {A i j : ℤ} (h : A ≤ i) (hij : i ≤ j) :
    primesBelow A i <+: primesBelow A j := by
  obtain ⟨m, hm⟩ := Int.eq_ofNat_of_zero_le (by omega : 0 ≤ j - i)
  obtain rfl : j = i + m := by omega
  exact primesBelow_prefix h m

end Acos.PrimeSentinel
