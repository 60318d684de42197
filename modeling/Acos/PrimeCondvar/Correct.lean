import Acos.PrimeCondvar.Steps

/-! The two threads deadlock exactly when `[A, B]` has too few primes: `routine` then leaves its
loop with the mutex locked while `main` still waits for a number. -/
namespace Acos.PrimeCondvar
open Acos.MachineInt Acos.Pthread Acos.Transition
open Acos.PrimeSentinel (primesIn primesBelow primesBelow_self primesBelow_mono)

section Progress
variable {A B N : ℤ} {s : State}

/-- A thread that stands before a signal can take it. -/
theorem signal_enabled {x : Thread} (h : ∀ woken, next B N s (.signal x woken) = none) :
    afterSignal { s with monitor := s.monitor } x = none := by
  have hall := Monitor.signal_all s.monitor
  obtain ⟨m', hm'⟩ := Option.isSome_iff_exists.mp hall
  have hnone := h s.monitor.blocked
  simp only [next, hm', Option.bind_some] at hnone
  cases x with
  | generator =>
    simp only [afterSignal] at hnone ⊢
    split at hnone <;> simp_all
  | main =>
    simp only [afterSignal] at hnone ⊢
    split at hnone <;> simp_all

theorem lock_enabled {x : Thread} (hnone : s.monitor.lock x = none) :
    s.monitor.owner ≠ none ∨ x ∈ s.monitor.blocked := by
  by_contra hcon
  obtain ⟨hown, hblk⟩ := not_or.mp hcon
  simp [Monitor.lock, not_not.mp hown, hblk] at hnone

theorem routine_stuck (hs : SyncInv s) (hB : B < 2 ^ 31)
    (hact : next B N s (.act .generator) = none)
    (hsig : ∀ woken, next B N s (.signal .generator woken) = none) :
    s.routinePc = .returned ∨
      (s.routinePc.holds = false ∧ (s.monitor.owner ≠ none ∨ .generator ∈ s.monitor.blocked)) := by
  have hafter := signal_enabled hsig
  have hheld : s.routinePc.holds = true → s.monitor.owner = some .generator := hs.routineHolds.mpr
  simp only [next, routineAct] at hact
  split at hact
  next hpc => exact .inr ⟨by simp [hpc, RoutinePc.holds], lock_enabled (by simpa using hact)⟩
  next hpc =>
    split_ifs at hact with hi
    rw [isPrime_eq (by omega)] at hact
    cases hp : decide s.index.toNat.Prime <;> simp [hp] at hact
  next hpc =>
    split_ifs at hact
    simp [Monitor.wait, hheld (by simp [hpc, RoutinePc.holds])] at hact
  next hpc => exact .inr ⟨by simp [hpc, RoutinePc.holds], lock_enabled (by simpa using hact)⟩
  next hpc => split_ifs at hact
  next hpc => simp [afterSignal, hpc] at hafter
  next hpc => exact .inl hpc

theorem main_stuck (hs : SyncInv s) (hact : next B N s (.act .main) = none)
    (hsig : ∀ woken, next B N s (.signal .main woken) = none) :
    s.mainPc = .returned ∨ (s.mainPc = .join ∧ s.routinePc ≠ .returned) ∨
      ((s.mainPc = .lock ∨ s.mainPc = .waiting) ∧
        (s.monitor.owner ≠ none ∨ .main ∈ s.monitor.blocked)) := by
  have hafter := signal_enabled hsig
  have hheld : s.mainPc.holds = true → s.monitor.owner = some .main := hs.mainHolds.mpr
  simp only [next, mainAct] at hact
  split at hact
  next hpc => exact .inr (.inr ⟨.inl hpc, lock_enabled (by simpa using hact)⟩)
  next hpc => cases hact
  next hpc =>
    split_ifs at hact
    simp [Monitor.wait, hheld (by simp [hpc, MainPc.holds])] at hact
  next hpc => exact .inr (.inr ⟨.inr hpc, lock_enabled (by simpa using hact)⟩)
  next hpc => cases hact
  next hpc => simp [Monitor.unlock, hheld (by simp [hpc, MainPc.holds])] at hact
  next hpc =>
    split_ifs at hact with hdone
    exact .inr (.inl ⟨hpc, hdone⟩)
  next hpc => simp [afterSignal, hpc] at hafter
  next hpc => exact .inl hpc

/-- When enough primes exist, a returned `routine` has had all its numbers printed. -/
theorem returned_printed (hdata : DataInv A B N s) (hprimes : N ≤ (primesIn A B).length)
    (hret : s.routinePc = .returned) : N ≤ s.printed.length := by
  have hp := hdata.produced
  rw [hret] at hp
  obtain ⟨-, hk, hfound⟩ := hp
  omega

theorem not_deadlocked (hdata : DataInv A B N s) (hs : SyncInv s) (hB : B < 2 ^ 31)
    (hprimes : N ≤ (primesIn A B).length) : ¬ Deadlocked B N s := by
  intro ⟨hmain, hact, hsig⟩
  have hc := hdata.consumed
  have hfree : s.routinePc.holds = false → s.mainPc.holds = false → s.monitor.owner = none := by
    intro hr hm
    cases hown : s.monitor.owner with
    | none => rfl
    | some x =>
      cases x with
      | generator => simp [hs.routineHolds.mp hown] at hr
      | main => simp [hs.mainHolds.mp hown] at hm
  have hgen := routine_stuck hs hB (hact .generator) (hsig .generator)
  rcases main_stuck hs (hact .main) (hsig .main) with hret | ⟨hjoin, hrun⟩ | ⟨hpc, hblocked⟩
  · exact hmain hret
  · -- A generator that waits has a number in the cell that `main` has not printed.
    rw [hjoin] at hc
    obtain ⟨hr, hstuck⟩ := hgen.resolve_left hrun
    have hown := hfree hr (by rw [hjoin]; rfl)
    obtain ⟨hwait, hempty⟩ := hs.routineBlocked (hstuck.resolve_left (not_not.mpr hown))
    have hp := hdata.produced
    rw [hwait] at hp
    have hdone : s.done = true := by
      by_contra hno
      simp [hjoin] at hempty
      exact hno hempty
    have hk := hp.printed
    rw [hdone, if_pos rfl] at hk
    have hfew := hp.few
    obtain ⟨hi, hN⟩ := hc
    omega
  · have hm : s.mainPc.holds = false := by
      rcases hpc with hpc | hpc <;> rw [hpc] <;> rfl
    have hmore : (s.printed.length : ℤ) < N := by
      rcases hpc with hpc | hpc <;> rw [hpc] at hc <;> exact hc.1 ▸ hc.2
    rcases hgen with hret | ⟨hr, hstuck⟩
    · have hall := returned_printed hdata hprimes hret
      omega
    · have hown := hfree hr hm
      obtain ⟨hwait, hempty⟩ := hs.routineBlocked (hstuck.resolve_left (not_not.mpr hown))
      obtain ⟨hmwait, hfull⟩ := hs.mainBlocked (hblocked.resolve_left (not_not.mpr hown))
      cases hdone : s.done with
      | false =>
        have hsignal := hempty hdone
        rw [hmwait] at hsignal
        cases hsignal
      | true =>
        have hsignal := hfull hdone
        rw [hwait] at hsignal
        cases hsignal

end Progress

section Deadlock
variable {A B N : ℤ}

/-- The generator is about to try `index` while `main` is blocked until the next number. -/
def scanning (index found num : ℤ) (printed : List ℤ) : State where
  monitor := ⟨some .generator, {.main}⟩
  done := false
  num := num
  routinePc := .loop
  index := index
  found_numbers_count := found
  mainPc := .waiting
  i := found
  printed := printed

/-- One prime goes from the generator to `main`. -/
def handOver : List Label :=
  [.act .generator, .signal .generator {.main}, .act .generator, .act .main, .act .main,
    .act .main, .signal .main {.generator}, .act .main, .act .main, .act .generator,
    .act .generator, .act .generator]

theorem handOver_run {index found num : ℤ} {printed : List ℤ} (hi : index ≤ B)
    (hprime : isPrime index = some true) (hindex : u64 (index + 1) = index + 1)
    (hfound : i32 (found + 1) = found + 1) (hmore : found + 1 < N) :
    run (next B N) (scanning index found num printed) handOver =
      some (scanning (index + 1) (found + 1) index (printed ++ [index])) := by
  have hne : ¬ N = found + 1 := by omega
  simp [handOver, run, next, routineAct, mainAct, afterSignal, scanning, Monitor.signal,
    Monitor.lock, Monitor.wait, hi, hprime, hindex, hfound, hmore, hne]

/-- Once `routine` has returned with the mutex, a `main` that wants it is stuck. -/
theorem deadlocked_of_returned {s : State} (hown : s.monitor.owner = some .generator)
    (hr : s.routinePc = .returned) (hm : s.mainPc = .lock ∨ s.mainPc = .waiting) :
    Deadlocked B N s := by
  have hlock : s.monitor.lock .main = none := by simp [Monitor.lock, hown]
  refine ⟨by rcases hm with h | h <;> simp [h], fun x => ?_, fun x woken => ?_⟩
  · cases x with
    | generator => simp [next, routineAct, hr]
    | main => rcases hm with h | h <;> simp [next, mainAct, h, hlock]
  · cases x with
    | generator => simp [next, afterSignal, hr]
    | main => rcases hm with h | h <;> simp [next, afterSignal, h]

/-- With fewer than `N` primes in `[A, B]` the generator comes to the end of its loop. -/
theorem scanning_deadlocks (hA : 0 ≤ A) (hB : B < 2 ^ 31) (hN : N < 2 ^ 31)
    (hfew : (primesIn A B).length < N) (n : ℕ) : ∀ (index num : ℤ) (printed : List ℤ), A ≤ index →
      index + n = B + 1 → ∃ ls s, run (next B N)
        (scanning index (primesBelow A index).length num printed) ls = some s ∧
        Deadlocked B N s := by
  induction n with
  | zero =>
    intro index num printed hlo hend
    refine ⟨[.act .generator], _, ?_, deadlocked_of_returned
      (s := ⟨⟨some .generator, {.main}⟩, false, num, .returned, index,
        (primesBelow A index).length, .waiting, (primesBelow A index).length, printed⟩)
      rfl rfl (.inr rfl)⟩
    have hover : ¬ index ≤ B := by omega
    simp [run, next, routineAct, scanning, hover]
  | succ n ih =>
    intro index num printed hlo hend
    have hi : index ≤ B := by omega
    have hindex : u64 (index + 1) = index + 1 := u64_of_range (by omega) (by omega)
    have hcount := count_succ hlo
    by_cases hp : index.toNat.Prime
    · rw [if_pos hp] at hcount
      have hle : (primesBelow A (index + 1)).length ≤ (primesIn A B).length := by
        have hall : primesBelow A (B + 1) = primesIn A B := by rw [primesBelow, Int.add_sub_cancel]
        rw [← hall]
        exact (primesBelow_mono (by omega) (by omega)).length_le
      obtain ⟨ls, s, hrun, hdead⟩ := ih (index + 1) index (printed ++ [index]) (by omega)
        (by omega)
      refine ⟨handOver ++ ls, s, ?_, hdead⟩
      rw [run_append, handOver_run hi (by rw [isPrime_eq (by omega)]; simp [hp]) hindex
        (i32_of_range (by omega) (by omega)) (by omega), ← hcount]
      exact hrun
    · rw [if_neg hp, add_zero] at hcount
      obtain ⟨ls, s, hrun, hdead⟩ := ih (index + 1) num printed (by omega) (by omega)
      refine ⟨.act .generator :: ls, s, run_cons_eq_some.mpr ⟨_, ?_, hrun⟩, hdead⟩
      have hprime : isPrime index = some false := by
        rw [isPrime_eq (by omega)]
        simp [hp]
      simp [next, routineAct, scanning, hi, hprime, hindex, hcount]

end Deadlock

/-- No schedule deadlocks if and only if `[A, B]` holds at least `N` primes. -/
theorem no_deadlock_iff {A B N : ℤ} (hA : 0 ≤ A) (hAB : A ≤ B) (hB : B < 2 ^ 31) (hN : 1 ≤ N)
    (hint : N < 2 ^ 31) :
    (∀ s, Reachable (next B N) (initial A) s → ¬ Deadlocked B N s) ↔
      N ≤ (primesIn A B).length := by
  constructor
  · intro hall
    by_contra hfew
    obtain ⟨n, hn⟩ := Int.eq_ofNat_of_zero_le (by omega : 0 ≤ B + 1 - A)
    obtain ⟨ls, s, hrun, hdead⟩ := scanning_deadlocks hA hB hint (not_le.mp hfew) n A 0 [] le_rfl
      (by omega)
    refine hall s ⟨[.act .main, .act .main, .act .main, .act .generator] ++ ls, ?_⟩ hdead
    have hpos : 0 < N := by omega
    rw [run_append]
    simpa [run, next, routineAct, mainAct, initial, Monitor.init, Monitor.lock, Monitor.wait, hpos,
      scanning] using hrun
  · intro hprimes s hs
    obtain ⟨hdata, hsync⟩ := hs.invariant (next_inv hA hB hint)
      ⟨initial_dataInv hAB hN, initial_syncInv A⟩
    exact not_deadlocked hdata hsync hB hprimes

/-- In `[2, 3]` there are two primes. -/
theorem no_deadlock_two_three :
    ¬ ∃ s, Reachable (next 3 2) (initial 2) s ∧ Deadlocked 3 2 s := by
  have hprimes : (2 : ℤ) ≤ (primesIn 2 3).length := by decide
  have hall := (no_deadlock_iff (by decide) (by decide) (by decide) (by decide) (by decide)).mpr
    hprimes
  intro ⟨s, hs, hdead⟩
  exact hall s hs hdead

/-- The generator finds nothing in `[0, 0]` and keeps the mutex. -/
theorem deadlock_without_primes : ¬ ∀ A B N : ℤ, 0 ≤ A → A ≤ B → B < 2 ^ 31 → 1 ≤ N → N < 2 ^ 31 →
    ∀ s, Reachable (next B N) (initial A) s → ¬ Deadlocked B N s := by
  intro hall
  obtain ⟨s, hrun, hown, hr, hm⟩ : ∃ s, run (next 0 1) (initial 0)
      [.act .generator, .act .generator, .act .generator] = some s ∧
      s.monitor.owner = some .generator ∧ s.routinePc = .returned ∧ s.mainPc = .lock :=
    ⟨_, rfl, rfl, rfl, rfl⟩
  exact hall 0 0 1 (by decide) (by decide) (by decide) (by decide) (by decide) s ⟨_, hrun⟩
    (deadlocked_of_returned hown hr (.inl hm))

end Acos.PrimeCondvar
