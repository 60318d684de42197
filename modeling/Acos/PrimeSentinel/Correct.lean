import Acos.PrimeSentinel.Steps

/-! Every schedule prints the primes in order, never deadlocks, and ends complete. -/
namespace Acos.PrimeSentinel
open Acos.MachineInt Acos.Pthread Acos.Transition

section Progress
variable {A B N : ℤ} {s : State}

theorem signal_enabled {x : Thread} (h : ∀ woken, next B N s (.signal x woken) = none)
    (m : Monitor Thread) : afterSignal { s with monitor := m } x = none := by
  have hall := Monitor.signal_all s.monitor
  obtain ⟨m', hm'⟩ := Option.isSome_iff_exists.mp hall
  have hnone := h s.monitor.blocked
  simp only [next, hm', Option.bind_some] at hnone
  cases x with
  | worker =>
    simp only [afterSignal] at hnone ⊢
    split at hnone <;> simp_all
  | main =>
    simp only [afterSignal] at hnone ⊢
    split at hnone <;> simp_all

theorem worker_stuck (hs : SyncInv s) (hact : next B N s (.act .worker) = none)
    (hsig : ∀ woken, next B N s (.signal .worker woken) = none) :
    s.workerPc = .done ∨ s.monitor.owner = some .main ∨ .worker ∈ s.monitor.blocked := by
  have hafter := signal_enabled hsig s.monitor
  have hlock : s.workerPc.holds = false → s.monitor.lock .worker = none →
      s.monitor.owner = some .main ∨ .worker ∈ s.monitor.blocked := by
    intro hholds hnone
    by_contra hcon
    obtain ⟨hmain, hblk⟩ := not_or.mp hcon
    have hown : s.monitor.owner = none := by
      cases ho : s.monitor.owner with
      | none => rfl
      | some x =>
        cases x with
        | worker => simp [hs.workerHolds.mp ho] at hholds
        | main => exact absurd ho hmain
    simp [Monitor.lock, hown, hblk] at hnone
  have hheld : s.workerPc.holds = true → s.monitor.owner = some .worker := hs.workerHolds.mpr
  simp only [next, workerAct] at hact
  split at hact
  next hpc => exact .inr (hlock (by simp [hpc, WorkerPc.holds]) (by simpa using hact))
  next hpc => split_ifs at hact
  next hpc => simp [Monitor.unlock, hheld (by simp [hpc, WorkerPc.holds])] at hact
  next hpc => exact .inr (hlock (by simp [hpc, WorkerPc.holds]) (by simpa using hact))
  next hpc =>
    split_ifs at hact
    simp [Monitor.wait, hheld (by simp [hpc, WorkerPc.holds])] at hact
  next hpc => exact .inr (hlock (by simp [hpc, WorkerPc.holds]) (by simpa using hact))
  next hpc => cases hact
  next hpc => simp [Monitor.unlock, hheld (by simp [hpc, WorkerPc.holds])] at hact
  next hpc => simp [afterSignal, hpc] at hafter
  next hpc => simp [afterSignal, hpc] at hafter
  next hpc => exact .inl hpc

theorem main_stuck (hs : SyncInv s) (hact : next B N s (.act .main) = none)
    (hsig : ∀ woken, next B N s (.signal .main woken) = none) :
    s.mainPc = .done ∨ s.mainPc = .join ∧ s.workerPc ≠ .done ∨
      s.monitor.owner = some .worker ∨ .main ∈ s.monitor.blocked := by
  have hafter := signal_enabled hsig s.monitor
  have hlock : s.mainPc.holds = false → s.monitor.lock .main = none →
      s.monitor.owner = some .worker ∨ .main ∈ s.monitor.blocked := by
    intro hholds hnone
    by_contra hcon
    obtain ⟨hworker, hblk⟩ := not_or.mp hcon
    have hown : s.monitor.owner = none := by
      cases ho : s.monitor.owner with
      | none => rfl
      | some x =>
        cases x with
        | worker => exact absurd ho hworker
        | main => simp [hs.mainHolds.mp ho] at hholds
    simp [Monitor.lock, hown, hblk] at hnone
  have hheld : s.mainPc.holds = true → s.monitor.owner = some .main := hs.mainHolds.mpr
  simp only [next, mainAct] at hact
  split at hact
  next hpc => exact .inr (.inr (hlock (by simp [hpc, MainPc.holds]) (by simpa using hact)))
  next hpc => cases hact
  next hpc => simp [Monitor.unlock, hheld (by simp [hpc, MainPc.holds])] at hact
  next hpc => exact .inr (.inr (hlock (by simp [hpc, MainPc.holds]) (by simpa using hact)))
  next hpc =>
    split_ifs at hact
    simp [Monitor.wait, hheld (by simp [hpc, MainPc.holds])] at hact
  next hpc => exact .inr (.inr (hlock (by simp [hpc, MainPc.holds]) (by simpa using hact)))
  next hpc => split_ifs at hact
  next hpc => simp [Monitor.unlock, hheld (by simp [hpc, MainPc.holds])] at hact
  next hpc =>
    split_ifs at hact with hdone
    exact .inr (.inl ⟨hpc, hdone⟩)
  next hpc => simp [afterSignal, hpc] at hafter
  next hpc => simp [afterSignal, hpc] at hafter
  next hpc => exact .inl hpc

/-- A blocked worker still has a prime in the cell that `main` must take. -/
theorem worker_blocked_unread (hdata : DataInv A B N s) (hs : SyncInv s)
    (hmem : .worker ∈ s.monitor.blocked) (hmain : s.mainPc.signals = false) :
    s.prime_number ≠ -1 ∧ s.prime_number ≠ -2 ∧ s.readed < N := by
  obtain ⟨hpc, hcell⟩ := hs.workerBlocked hmem
  have hone : s.prime_number ≠ -1 := fun h => by simp [hcell h] at hmain
  have hp := hdata.produced
  rw [hpc] at hp
  have htwo := two_le_of_prime hp.isPrime
  have hcount := hp.count
  have hfew := hp.few
  have hread := hdata.readed
  rcases hp.cell with ⟨hi, hprinted⟩ | ⟨hempty, _⟩
  · rw [hprinted] at hread
    exact ⟨hone, by omega, by omega⟩
  · exact absurd hempty hone

theorem not_deadlocked (hdata : DataInv A B N s) (hs : SyncInv s) : ¬ Deadlocked B N s := by
  rintro ⟨hnot, hact, hsig⟩
  have hfree (x : Thread) : s.monitor.owner ≠ some x := by
    intro hown
    cases x with
    | worker =>
      have hholds := hs.workerHolds.mp hown
      rcases worker_stuck hs (hact .worker) (hsig .worker) with h | h | h
      · simp [h, WorkerPc.holds] at hholds
      · simp [hown] at h
      · simp [(hs.workerBlocked h).1, WorkerPc.holds] at hholds
    | main =>
      have hholds := hs.mainHolds.mp hown
      rcases main_stuck hs (hact .main) (hsig .main) with h | h | h | h
      · simp [h, MainPc.holds] at hholds
      · simp [h.1, MainPc.holds] at hholds
      · simp [hown] at h
      · simp [(hs.mainBlocked h).1, MainPc.holds] at hholds
  have hworker : s.workerPc = .done ∨ .worker ∈ s.monitor.blocked := by
    rcases worker_stuck hs (hact .worker) (hsig .worker) with h | h | h
    · exact .inl h
    · exact absurd h (hfree .main)
    · exact .inr h
  have hmain : s.mainPc = .done ∨ s.mainPc = .join ∧ s.workerPc ≠ .done ∨
      .main ∈ s.monitor.blocked := by
    rcases main_stuck hs (hact .main) (hsig .main) with h | h | h | h
    · exact .inl h
    · exact .inr (.inl h)
    · exact absurd h (hfree .worker)
    · exact .inr (.inr h)
  rcases hworker with hdone | hblk
  · rcases hmain with h | h | h
    · exact hnot ⟨hdone, h⟩
    · exact h.2 hdone
    · have hcell := (hs.mainBlocked h).2
      have hp := hdata.produced
      rw [hdone] at hp hcell
      simp [hp.1, WorkerPc.signals] at hcell
  · have hunread := worker_blocked_unread hdata hs hblk
    have hc := hdata.consumed
    rcases hmain with h | h | h
    · rw [h] at hc hunread
      obtain ⟨_, htwo, hread⟩ := hunread rfl
      exact hc.elim (fun h => by omega) htwo
    · rw [h.1] at hc hunread
      obtain ⟨_, htwo, hread⟩ := hunread rfl
      exact hc.elim (fun h => by omega) htwo
    · obtain ⟨hpc, hcell⟩ := hs.mainBlocked h
      rw [hpc] at hunread
      have hsignal := hcell (hunread rfl).1
      simp [(hs.workerBlocked hblk).1, WorkerPc.signals] at hsignal

end Progress

/-- For every interleaving: the output is a prefix of the primes of `[A, B]`, no state is
deadlocked, and the final output has as many primes as were asked for or exist. -/
theorem find_primes_all_interleavings {A B N : ℤ} (hA : -2 ^ 63 ≤ A) (hAB : A ≤ B)
    (hB : B < 2 ^ 63 - 1) (hN : 1 ≤ N) {s : State}
    (hs : Reachable (next B N) (initial A) s) :
    s.printed <+: primesIn A B ∧ ¬ Deadlocked B N s ∧
      (Finished s → (s.printed.length : ℤ) = min N (primesIn A B).length) := by
  obtain ⟨hdata, hsync⟩ := hs.invariant (next_inv hA hB)
    ⟨initial_dataInv hAB hN, initial_syncInv A⟩
  refine ⟨(hdata.produced.printed_prefix hdata.lower).1, not_deadlocked hdata hsync, ?_⟩
  rintro ⟨hdone, _⟩
  have hp := hdata.produced
  rw [hdone] at hp
  exact hp.2.2

/-- A schedule in which `main` prints the only prime it asked for. -/
def firstPrimePrinted : List Label :=
  [.act .worker, .act .worker, .act .worker, .act .main, .act .main, .act .main,
    .signal .main ∅, .act .main, .act .main, .act .main]

theorem find_primes_prints_two :
    ∃ s, run (next 3 1) (initial 2) firstPrimePrinted = some s ∧ s.printed = [2] ∧
      s.printed <+: primesIn 2 3 ∧ ¬ Deadlocked 3 1 s ∧
        (Finished s → (s.printed.length : ℤ) = min 1 (primesIn 2 3).length) := by
  obtain ⟨s, hrun, hprinted⟩ : ∃ s, run (next 3 1) (initial 2) firstPrimePrinted = some s ∧
      s.printed = [2] := ⟨_, rfl, rfl⟩
  exact ⟨s, hrun, hprinted, find_primes_all_interleavings (by norm_num) (by norm_num)
    (by norm_num) (by norm_num) ⟨_, hrun⟩⟩

end Acos.PrimeSentinel
