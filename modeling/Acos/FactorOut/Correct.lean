import Acos.Lib.MachineInt
import Mathlib.Data.Nat.Factors

/-! The factorisation `factor_out` of the Python extension `pyprimes/primes.c`. The number is an
`int32_t` and the divisor a `uint32_t`, so they are compared and divided as unsigned numbers. -/
namespace Acos.FactorOut
open Acos.MachineInt

inductive PyException where
  | typeError
  | valueError

inductive PyObject where
  | unicode (text : String)
  | list (items : List ℤ)

/-- `while (!(number % i))`: the number that is left and the list. There are fewer rounds than the
number says, unless it is 0, for which they do not end. -/
def divideOut : ℕ → ℤ → ℤ → List ℤ → Option (ℤ × List ℤ)
  | 0, _, _, _ => none
  | fuel + 1, number, i, primeNumbers =>
    if u32 number % i = 0 then
      divideOut fuel (i32 (u32 number / i)) i (primeNumbers ++ [i])
    else some (number, primeNumbers)

/-- `for (i = 2; i <= number; ++i)`. -/
def factorLoop : ℕ → ℤ → ℤ → List ℤ → Option (List ℤ)
  | fuel, number, i, primeNumbers =>
    if i ≤ u32 number then
      match fuel with
      | 0 => none
      | fuel + 1 =>
        (divideOut number.toNat number i primeNumbers).bind fun (number, primeNumbers) =>
          factorLoop fuel number (u32 (i + 1)) primeNumbers
    else some primeNumbers

/-- The argument is `none` where `PyArg_ParseTuple` finds no `int`. -/
def factorOut (fuel : ℕ) (args : Option ℤ) : Option (Except (PyException × String) PyObject) :=
  match args with
  | none => some (.error (.typeError, "Wrong value type. Must be unsigned number"))
  | some number =>
    if number < 0 then some (.error (.valueError, "Negative number"))
    else (factorLoop fuel number 2 []).map fun primeNumbers =>
      if primeNumbers.length ≤ 1 then .ok (.unicode "Prime!") else .ok (.list primeNumbers)

/-- No prime factor of `m` is smaller than `i`. -/
def Rough (i m : ℕ) : Prop := ∀ p, p.Prime → p ∣ m → i ≤ p

section Loops
variable {i m : ℕ}

/-- The smallest divisor is a prime factor, the first one. -/
theorem primeFactorsList_of_dvd (hrough : Rough i m) (hi : 2 ≤ i) (hm : 0 < m) (hdvd : i ∣ m) :
    m.primeFactorsList = i :: (m / i).primeFactorsList := by
  have hle : i ≤ m := Nat.le_of_dvd hm hdvd
  have hmin : m.minFac = i := by
    apply le_antisymm
    · exact Nat.minFac_le_of_dvd hi hdvd
    · exact hrough _ (Nat.minFac_prime (by omega)) (Nat.minFac_dvd m)
  obtain ⟨k, rfl⟩ : ∃ k, m = k + 2 := ⟨m - 2, by omega⟩
  rw [Nat.primeFactorsList_add_two, hmin]

theorem Rough.div (hrough : Rough i m) (hdvd : i ∣ m) : Rough i (m / i) := fun p hp hpm =>
  hrough p hp (hpm.trans (Nat.div_dvd_of_dvd hdvd))

theorem Rough.succ (hrough : Rough i m) (hdvd : ¬ i ∣ m) : Rough (i + 1) m := by
  intro p hp hpm
  have hle := hrough p hp hpm
  have hne : p ≠ i := fun heq => hdvd (heq ▸ hpm)
  omega

/-- A number without prime factors up to itself is 1. -/
theorem Rough.eq_one (hrough : Rough i m) (hm : 0 < m) (hlt : m < i) : m = 1 := by
  by_contra hne
  have hmin := hrough _ (Nat.minFac_prime hne) (Nat.minFac_dvd m)
  have hle := Nat.minFac_le hm
  omega

theorem divideOut_spec (fuel : ℕ) (primeNumbers : List ℤ) (hm : 0 < m) (hrange : m < 2 ^ 31)
    (hi : 2 ≤ i) (hrough : Rough i m) (hfuel : m ≤ fuel) :
    ∃ (m' : ℕ) (found : List ℕ), divideOut fuel m i primeNumbers =
        some ((m' : ℤ), primeNumbers ++ found.map Nat.cast) ∧ 0 < m' ∧ m' ≤ m ∧
      Rough (i + 1) m' ∧ m.primeFactorsList = found ++ m'.primeFactorsList := by
  induction fuel generalizing m primeNumbers with
  | zero => omega
  | succ fuel ih =>
    have hnumber : u32 m = m := u32_natCast (by omega)
    rw [divideOut, hnumber]
    by_cases hdvd : i ∣ m
    · have hquot : i32 ((m : ℤ) / i) = (m / i : ℕ) := by
        rw [← Int.natCast_ediv]
        exact i32_natCast ((Nat.div_le_self m i).trans_lt hrange)
      have hpos : 0 < m / i := Nat.div_pos (Nat.le_of_dvd hm hdvd) (by omega)
      have hless : m / i < m := Nat.div_lt_self hm (by omega)
      obtain ⟨m', found, hrun, hpos', hle', hrough', hlist⟩ :=
        ih (primeNumbers ++ [(i : ℤ)]) hpos (by omega) (hrough.div hdvd) (by omega)
      refine ⟨m', i :: found, ?_, hpos', by omega, hrough', ?_⟩
      · rw [if_pos (Int.emod_eq_zero_of_dvd (Int.natCast_dvd_natCast.mpr hdvd)), hquot, hrun]
        simp
      · rw [primeFactorsList_of_dvd hrough hi hm hdvd, hlist, List.cons_append]
    · have hmod : ¬ (m : ℤ) % i = 0 := fun h =>
        hdvd (Int.natCast_dvd_natCast.mp (Int.dvd_of_emod_eq_zero h))
      exact ⟨m, [], by simp [hmod], hm, le_rfl, hrough.succ hdvd, rfl⟩

theorem factorLoop_spec (fuel : ℕ) (primeNumbers : List ℤ) (hm : 0 < m) (hrange : m < 2 ^ 31)
    (hi : 2 ≤ i) (hrough : Rough i m) (hfuel : m < fuel + i) :
    factorLoop fuel m i primeNumbers =
      some (primeNumbers ++ m.primeFactorsList.map Nat.cast) := by
  induction fuel generalizing m i primeNumbers with
  | zero =>
    have hnumber : u32 m = m := u32_natCast (by omega)
    have hone := hrough.eq_one hm (by omega)
    rw [factorLoop, hnumber, if_neg (by omega), hone]
    simp
  | succ fuel ih =>
    have hnumber : u32 m = m := u32_natCast (by omega)
    rw [factorLoop, hnumber]
    by_cases hle : i ≤ m
    · obtain ⟨m', found, hrun, hpos', hle', hrough', hlist⟩ :=
        divideOut_spec m primeNumbers hm hrange hi hrough le_rfl
      have hnext : u32 ((i : ℤ) + 1) = (i + 1 : ℕ) := u32_natCast (k := i + 1) (by omega)
      rw [if_pos (by omega)]
      dsimp only
      rw [Int.toNat_natCast, hrun, Option.bind_some, hnext,
        ih (primeNumbers ++ found.map Nat.cast) hpos' (by omega) (by omega) hrough' (by omega),
        hlist, List.map_append, List.append_assoc]
    · have hone := hrough.eq_one hm (by omega)
      rw [if_neg (by omega), hone]
      simp

end Loops

/-- The loop collects the prime factors of the number. -/
theorem factorOut_eq {n fuel : ℕ} (hn : 2 ≤ n) (hrange : n < 2 ^ 31) (hfuel : n ≤ fuel) :
    factorOut fuel (some n) = some (.ok (if n.Prime then .unicode "Prime!"
      else .list (n.primeFactorsList.map Nat.cast))) := by
  have hloop := factorLoop_spec fuel [] (show 0 < n by omega) hrange le_rfl
    (fun p hp _ => hp.two_le) (by omega)
  rw [Nat.cast_ofNat, List.nil_append] at hloop
  have hprime : (n.primeFactorsList.map (Nat.cast : ℕ → ℤ)).length ≤ 1 ↔ n.Prime := by
    rw [List.length_map]
    constructor
    · intro hlen
      have hprod := Nat.prod_primeFactorsList (show n ≠ 0 by omega)
      rcases hlist : n.primeFactorsList with _ | ⟨p, _ | ⟨q, rest⟩⟩
      · rw [hlist, List.prod_nil] at hprod
        omega
      · have hp : p.Prime := Nat.prime_of_mem_primeFactorsList (by rw [hlist]; simp)
        rw [hlist, List.prod_singleton] at hprod
        rwa [← hprod]
      · rw [hlist] at hlen
        simp at hlen
    · intro hp
      rw [Nat.primeFactorsList_prime hp, List.length_singleton]
  rw [factorOut, if_neg (by omega), hloop, Option.map_some]
  by_cases hp : n.Prime
  · rw [if_pos (hprime.mpr hp), if_pos hp]
  · rw [if_neg (mt hprime.mp hp), if_neg hp]

/-- For every number in the range of `int` from 2 on the function returns, `'Prime!'` for the
primes only, and for the others the list of their prime factors in order. -/
theorem factor_out_correct (n fuel : ℕ) (hn : 2 ≤ n) (hrange : n < 2 ^ 31) (hfuel : n ≤ fuel) :
    ∃ result, factorOut fuel (some n) = some (.ok result) ∧
      (result = .unicode "Prime!" ↔ n.Prime) ∧
      (¬ n.Prime → ∃ primes : List ℕ, result = .list (primes.map Nat.cast) ∧
        (∀ p ∈ primes, p.Prime) ∧ primes.Pairwise (· ≤ ·) ∧ primes.prod = n) := by
  refine ⟨_, factorOut_eq hn hrange hfuel, ?_, fun hp => ⟨n.primeFactorsList, ?_, ?_, ?_, ?_⟩⟩
  · split_ifs with hp
    · exact iff_of_true rfl hp
    · exact iff_of_false (fun h => by cases h) hp
  · rw [if_neg hp]
  · exact fun p => Nat.prime_of_mem_primeFactorsList
  · exact (Nat.primeFactorsList_sorted n).pairwise
  · exact Nat.prod_primeFactorsList (by omega)

theorem factor_out_hundred :
    ∃ result, factorOut 100 (some (100 : ℕ)) = some (.ok result) ∧
      (result = .unicode "Prime!" ↔ Nat.Prime 100) ∧
      (¬ Nat.Prime 100 → ∃ primes : List ℕ, result = .list (primes.map Nat.cast) ∧
        (∀ p ∈ primes, p.Prime) ∧ primes.Pairwise (· ≤ ·) ∧ primes.prod = 100) :=
  factor_out_correct 100 100 (by decide) (by decide) le_rfl

end Acos.FactorOut
