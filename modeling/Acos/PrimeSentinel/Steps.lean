import Acos.PrimeSentinel.Invariant

/-! Each step of either thread keeps the invariants. -/
namespace Acos.PrimeSentinel
open Acos.MachineInt Acos.Pthread

theorem two_le_of_prime {number : ℤ} (h : prime number = true) : 2 ≤ number := by
  have hp := (prime_iff number).mp h
  have := hp.two_le
  omega

/-- A worker that holds the mutex may change the cell: `main` is not looking at it. -/
theorem Consumed.of_not_holds {N readed cell cell' : ℤ} {pc : MainPc}
    (h : Consumed N pc readed cell) (hpc : pc.holds = false) (hcell : cell = -2 → cell' = -2) :
    Consumed N pc readed cell' := by
  cases pc <;> simp_all only [Consumed, MainPc.holds, reduceCtorEq] <;>
    exact h.imp_right hcell

section Worker
variable {A B N : ℤ} {s t : State}

/-- The search reaches the end of `[A, B]`. -/
theorem Searching.complete {i finded cell : ℤ} {printed : List ℤ} (hA : A ≤ i) (hi : ¬ i ≤ B)
    (h : Searching A B N i finded cell printed) : Complete A B N printed := by
  obtain ⟨hupper, hcount, hfew, _, rfl⟩ := h
  obtain rfl : i = B + 1 := by omega
  have hall : primesBelow A (B + 1) = primesIn A B := by rw [primesBelow, Int.add_sub_cancel]
  rw [hall] at hcount ⊢
  exact ⟨List.prefix_rfl, (min_eq_right (by omega)).symm⟩

/-- The `N`-th prime has been printed. -/
theorem Offered.complete {i finded cell : ℤ} {printed : List ℤ} (hA : A ≤ i)
    (h : Offered A B N i finded cell printed) (hN : finded + 1 = N)
    (hprinted : printed = primesBelow A (i + 1)) : Complete A B N printed := by
  have hlen := h.length_succ hA
  have hpre : primesBelow A (i + 1) <+: primesIn A B :=
    prefix_primesIn (by omega) (by have := h.upper; omega)
  have hle := hpre.length_le
  subst hprinted
  refine ⟨hpre, ?_⟩
  rw [hlen, hN, min_eq_left]
  omega

theorem workerAct_data (hA : -2 ^ 63 ≤ A) (hB : B < 2 ^ 63 - 1) (hs : DataInv A B N s)
    (hsync : SyncInv s) (h : workerAct B N s = some t) : DataInv A B N t := by
  obtain ⟨hlo, hp, hc, hr⟩ := hs
  have hexcl := hsync.exclusive
  have hi64 : s.i ≤ B → i64 (s.i + 1) = s.i + 1 := fun h => i64_of_range (by omega) (by omega)
  unfold workerAct at h
  split at h
  next hpc =>
    obtain ⟨m, _, rfl⟩ := Option.map_eq_some_iff.mp h
    exact ⟨hlo, by simpa only [Produced, hpc] using hp, hc, hr⟩
  next hpc =>
    rw [hpc] at hp hexcl
    have hfree : s.prime_number = -2 → (-1 : ℤ) = -2 := fun h => by
      have := hp.cell
      omega
    split_ifs at h with hi hprime
    · cases h
      refine ⟨hlo, ⟨⟨hi, hprime, hp.count, hp.few, .inl ⟨rfl, hp.printed⟩⟩, rfl⟩, ?_, hr⟩
      exact hc.of_not_holds (hexcl rfl) fun h => absurd (hfree h) (by decide)
    · rw [hi64 hi] at h
      cases h
      have hsame : primesBelow A (s.i + 1) = primesBelow A s.i := by
        rw [primesBelow_succ hlo, if_neg hprime, List.append_nil]
      refine ⟨Int.le_add_one hlo, ?_, hc, hr⟩
      simp only [Produced, hpc]
      exact ⟨by omega, by rw [hsame]; exact hp.count, hp.few, hp.cell, hsame ▸ hp.printed⟩
    · cases h
      exact ⟨hlo, ⟨hp.cell, Searching.complete hlo hi hp⟩, hc, hr⟩
  next hpc =>
    obtain ⟨m, _, rfl⟩ := Option.map_eq_some_iff.mp h
    rw [hpc] at hp
    exact ⟨hlo, hp.1, hc, hr⟩
  next hpc =>
    obtain ⟨m, _, rfl⟩ := Option.map_eq_some_iff.mp h
    exact ⟨hlo, by simpa only [Produced, hpc] using hp, hc, hr⟩
  next hpc =>
    rw [hpc] at hp
    have htwo := two_le_of_prime hp.isPrime
    split_ifs at h with hcell hlast
    · obtain ⟨m, _, rfl⟩ := Option.map_eq_some_iff.mp h
      exact ⟨hlo, hp, hc, hr⟩
    · cases h
      have hprinted : s.printed = primesBelow A (s.i + 1) := by
        rcases hp.cell with h | h
        · omega
        · exact h.2
      exact ⟨hlo, ⟨not_not.mp hcell, Offered.complete hlo hp hlast hprinted⟩, hc, hr⟩
    · rw [hi64 hp.upper] at h
      cases h
      have hprinted : s.printed = primesBelow A (s.i + 1) := by
        rcases hp.cell with h | h
        · omega
        · exact h.2
      have hlen := hp.length_succ hlo
      have hupper : s.i + 1 ≤ B + 1 := Int.add_le_add_right hp.upper 1
      have hfew : s.finded + 1 < N := lt_of_le_of_ne (Int.add_one_le_of_lt hp.few) hlast
      exact ⟨Int.le_add_one hlo, ⟨hupper, hlen.symm, hfew, not_not.mp hcell, hprinted⟩, hc, hr⟩
  next hpc =>
    obtain ⟨m, _, rfl⟩ := Option.map_eq_some_iff.mp h
    exact ⟨hlo, by simpa only [Produced, hpc] using hp, hc, hr⟩
  next hpc =>
    cases h
    rw [hpc] at hp hexcl
    refine ⟨hlo, ⟨rfl, hp.2⟩, hc.of_not_holds (hexcl rfl) fun _ => rfl, hr⟩
  next hpc =>
    obtain ⟨m, _, rfl⟩ := Option.map_eq_some_iff.mp h
    rw [hpc] at hp
    exact ⟨hlo, hp, hc, hr⟩
  all_goals cases h

theorem workerAct_sync (hs : SyncInv s) (h : workerAct B N s = some t) : SyncInv t := by
  obtain ⟨hw, hm, hwb, hmb⟩ := hs
  unfold workerAct at h
  split at h
  next hpc =>
    obtain ⟨m, hmon, rfl⟩ := Option.map_eq_some_iff.mp h
    obtain ⟨hown, hblk, rfl⟩ := Monitor.lock_eq_some.mp hmon
    constructor <;> simp_all [WorkerPc.holds, WorkerPc.signals]
  next hpc =>
    split_ifs at h <;> cases h <;>
      constructor <;> simp_all [WorkerPc.holds, WorkerPc.signals]
  next hpc =>
    obtain ⟨m, hmon, rfl⟩ := Option.map_eq_some_iff.mp h
    obtain ⟨hown, rfl⟩ := Monitor.unlock_eq_some.mp hmon
    constructor <;> simp_all [WorkerPc.holds, WorkerPc.signals]
  next hpc =>
    obtain ⟨m, hmon, rfl⟩ := Option.map_eq_some_iff.mp h
    obtain ⟨hown, hblk, rfl⟩ := Monitor.lock_eq_some.mp hmon
    constructor <;> simp_all [WorkerPc.holds, WorkerPc.signals]
  next hpc =>
    split_ifs at h with hcell hlast
    · obtain ⟨m, hmon, rfl⟩ := Option.map_eq_some_iff.mp h
      obtain ⟨hown, rfl⟩ := Monitor.wait_eq_some.mp hmon
      constructor <;> simp_all [WorkerPc.holds, WorkerPc.signals]
    all_goals
      cases h
      constructor <;> simp_all [WorkerPc.holds, WorkerPc.signals]
  next hpc =>
    obtain ⟨m, hmon, rfl⟩ := Option.map_eq_some_iff.mp h
    obtain ⟨hown, hblk, rfl⟩ := Monitor.lock_eq_some.mp hmon
    constructor <;> simp_all [WorkerPc.holds, WorkerPc.signals]
  next hpc =>
    cases h
    constructor <;> simp_all [WorkerPc.holds, WorkerPc.signals]
  next hpc =>
    obtain ⟨m, hmon, rfl⟩ := Option.map_eq_some_iff.mp h
    obtain ⟨hown, rfl⟩ := Monitor.unlock_eq_some.mp hmon
    constructor <;> simp_all [WorkerPc.holds, WorkerPc.signals]
  all_goals cases h

end Worker

section Main
variable {A B N : ℤ} {s t : State}

theorem Produced.take {pc : WorkerPc} {i finded cell : ℤ} {printed : List ℤ}
    (h : Produced A B N pc i finded cell printed) (hpc : pc.holds = false) (hA : A ≤ i)
    (hone : cell ≠ -1) (htwo : cell ≠ -2) :
    Produced A B N pc i finded (-1) (printed ++ [cell]) := by
  have hoffer : Offered A B N i finded cell printed →
      Offered A B N i finded (-1) (printed ++ [cell]) := by
    rintro ⟨hi, hprime, hcount, hfew, ⟨rfl, rfl⟩ | ⟨hcell, _⟩⟩
    · exact ⟨hi, hprime, hcount, hfew, .inr ⟨rfl, by rw [primesBelow_succ hA, if_pos hprime]⟩⟩
    · exact absurd hcell hone
  cases pc with
  | lock => exact absurd h.cell hone
  | signal => exact hoffer h
  | relock => exact hoffer h
  | waiting => exact hoffer h
  | signalEnd => exact absurd h.1 htwo
  | done => exact absurd h.1 htwo
  | _ => cases hpc

theorem mainAct_data (hs : DataInv A B N s) (hsync : SyncInv s) (h : mainAct N s = some t) :
    DataInv A B N t := by
  obtain ⟨hlo, hp, hc, hr⟩ := hs
  have hexcl := hsync.exclusive
  have hle := (hp.printed_prefix hlo).2
  unfold mainAct at h
  split at h
  next hpc =>
    obtain ⟨m, _, rfl⟩ := Option.map_eq_some_iff.mp h
    exact ⟨hlo, hp, trivial, hr⟩
  next hpc =>
    cases h
    refine ⟨hlo, hp, ?_, hr⟩
    dsimp only
    split_ifs with hread
    · exact hread
    · exact .inl (by omega)
  next hpc =>
    obtain ⟨m, _, rfl⟩ := Option.map_eq_some_iff.mp h
    exact ⟨hlo, hp, by simpa only [Consumed, hpc] using hc, hr⟩
  next hpc =>
    obtain ⟨m, _, rfl⟩ := Option.map_eq_some_iff.mp h
    exact ⟨hlo, hp, by simpa only [Consumed, hpc] using hc, hr⟩
  next hpc =>
    rw [hpc] at hc
    split_ifs at h with hcell
    · obtain ⟨m, _, rfl⟩ := Option.map_eq_some_iff.mp h
      exact ⟨hlo, hp, hc, hr⟩
    · cases h
      exact ⟨hlo, hp, ⟨hc, hcell⟩, hr⟩
  next hpc =>
    obtain ⟨m, _, rfl⟩ := Option.map_eq_some_iff.mp h
    exact ⟨hlo, hp, by simpa only [Consumed, hpc] using hc, hr⟩
  next hpc =>
    rw [hpc] at hc
    have hfree : s.workerPc.holds = false := by
      by_contra hw
      have := hexcl (by simpa using hw)
      simp [hpc, MainPc.holds] at this
    split_ifs at h with hcell
    · cases h
      exact ⟨hlo, hp, .inr hcell, hr⟩
    · cases h
      refine ⟨hlo, hp.take hfree hlo hc.2 hcell, trivial, ?_⟩
      simp [hr]
  next hpc =>
    obtain ⟨m, _, rfl⟩ := Option.map_eq_some_iff.mp h
    exact ⟨hlo, hp, by simpa only [Consumed, hpc] using hc, hr⟩
  next hpc =>
    split_ifs at h with hdone
    cases h
    exact ⟨hlo, hp, by simpa only [Consumed, hpc] using hc, hr⟩
  all_goals cases h

theorem mainAct_sync (hs : SyncInv s) (h : mainAct N s = some t) : SyncInv t := by
  obtain ⟨hw, hm, hwb, hmb⟩ := hs
  unfold mainAct at h
  split at h
  next hpc =>
    obtain ⟨m, hmon, rfl⟩ := Option.map_eq_some_iff.mp h
    obtain ⟨hown, hblk, rfl⟩ := Monitor.lock_eq_some.mp hmon
    constructor <;> simp_all [MainPc.holds, MainPc.signals]
  next hpc =>
    cases h
    rcases ite_eq_or_eq (s.readed < N) MainPc.unlock MainPc.unlockEnd with hite | hite <;>
      rw [hite] <;> constructor <;> simp_all [MainPc.holds, MainPc.signals]
  next hpc =>
    obtain ⟨m, hmon, rfl⟩ := Option.map_eq_some_iff.mp h
    obtain ⟨hown, rfl⟩ := Monitor.unlock_eq_some.mp hmon
    constructor <;> simp_all [MainPc.holds, MainPc.signals]
  next hpc =>
    obtain ⟨m, hmon, rfl⟩ := Option.map_eq_some_iff.mp h
    obtain ⟨hown, hblk, rfl⟩ := Monitor.lock_eq_some.mp hmon
    constructor <;> simp_all [MainPc.holds, MainPc.signals]
  next hpc =>
    split_ifs at h with hcell
    · obtain ⟨m, hmon, rfl⟩ := Option.map_eq_some_iff.mp h
      obtain ⟨hown, rfl⟩ := Monitor.wait_eq_some.mp hmon
      constructor <;> simp_all [MainPc.holds, MainPc.signals]
    · cases h
      constructor <;> simp_all [MainPc.holds, MainPc.signals]
  next hpc =>
    obtain ⟨m, hmon, rfl⟩ := Option.map_eq_some_iff.mp h
    obtain ⟨hown, hblk, rfl⟩ := Monitor.lock_eq_some.mp hmon
    constructor <;> simp_all [MainPc.holds, MainPc.signals]
  next hpc =>
    split_ifs at h <;> cases h <;>
      constructor <;> simp_all [MainPc.holds, MainPc.signals]
  next hpc =>
    obtain ⟨m, hmon, rfl⟩ := Option.map_eq_some_iff.mp h
    obtain ⟨hown, rfl⟩ := Monitor.unlock_eq_some.mp hmon
    constructor <;> simp_all [MainPc.holds, MainPc.signals]
  next hpc =>
    split_ifs at h
    cases h
    constructor <;> simp_all [MainPc.holds, MainPc.signals]
  all_goals cases h

end Main

section Signal
variable {A B N : ℤ} {s t : State} {woken : Finset Thread}

/-- The signaller is not blocked itself, so its signal leaves nobody blocked. -/
theorem signal_blocked {m : Monitor Thread} {x : Thread} (h : s.monitor.signal woken = some m)
    (hx : x ∉ s.monitor.blocked) : m.owner = s.monitor.owner ∧ m.blocked = ∅ := by
  apply Monitor.signal_of_two _ h hx
  intro u v hu hv
  cases x <;> cases u <;> cases v <;> first | rfl | contradiction

theorem signal_data (hs : DataInv A B N s) {x : Thread}
    (h : next B N s (.signal x woken) = some t) : DataInv A B N t := by
  obtain ⟨hlo, hp, hc, hr⟩ := hs
  obtain ⟨m, _, h⟩ := Option.bind_eq_some_iff.mp h
  cases x with
  | worker =>
    simp only [afterSignal] at h
    split at h
    next hpc =>
      cases h
      exact ⟨hlo, by simpa only [Produced, hpc] using hp, hc, hr⟩
    next hpc =>
      cases h
      exact ⟨hlo, by simpa only [Produced, hpc] using hp, hc, hr⟩
    next => cases h
  | main =>
    simp only [afterSignal] at h
    split at h
    next hpc =>
      cases h
      exact ⟨hlo, hp, by simpa only [Consumed, hpc] using hc, hr⟩
    next hpc =>
      cases h
      exact ⟨hlo, hp, by simpa only [Consumed, hpc] using hc, hr⟩
    next => cases h

theorem signal_sync (hs : SyncInv s) {x : Thread}
    (h : next B N s (.signal x woken) = some t) : SyncInv t := by
  obtain ⟨hw, hm, hwb, hmb⟩ := hs
  obtain ⟨m, hmon, h⟩ := Option.bind_eq_some_iff.mp h
  cases x with
  | worker =>
    have hnot : s.workerPc = .signal ∨ s.workerPc = .signalEnd → .worker ∉ s.monitor.blocked := by
      rintro hpc hmem
      rcases hpc with hpc | hpc <;> simp [hpc] at hwb <;> exact hwb hmem
    simp only [afterSignal] at h
    split at h
    next hpc =>
      obtain ⟨hown, hblk⟩ := signal_blocked hmon (hnot (.inl hpc))
      cases h
      constructor <;> simp_all [WorkerPc.holds]
    next hpc =>
      obtain ⟨hown, hblk⟩ := signal_blocked hmon (hnot (.inr hpc))
      cases h
      constructor <;> simp_all [WorkerPc.holds]
    next => cases h
  | main =>
    have hnot : s.mainPc = .signal ∨ s.mainPc = .signalEnd → .main ∉ s.monitor.blocked := by
      rintro hpc hmem
      rcases hpc with hpc | hpc <;> simp [hpc] at hmb <;> exact hmb hmem
    simp only [afterSignal] at h
    split at h
    next hpc =>
      obtain ⟨hown, hblk⟩ := signal_blocked hmon (hnot (.inl hpc))
      cases h
      constructor <;> simp_all [MainPc.holds]
    next hpc =>
      obtain ⟨hown, hblk⟩ := signal_blocked hmon (hnot (.inr hpc))
      cases h
      constructor <;> simp_all [MainPc.holds]
    next => cases h

end Signal

theorem next_inv {A B N : ℤ} (hA : -2 ^ 63 ≤ A) (hB : B < 2 ^ 63 - 1) (s : State) (l : Label)
    (t : State) (hs : DataInv A B N s ∧ SyncInv s) (h : next B N s l = some t) :
    DataInv A B N t ∧ SyncInv t := by
  obtain ⟨hdata, hsync⟩ := hs
  cases l with
  | act x =>
    cases x with
    | worker => exact ⟨workerAct_data hA hB hdata hsync h, workerAct_sync hsync h⟩
    | main => exact ⟨mainAct_data hdata hsync h, mainAct_sync hsync h⟩
  | signal x woken => exact ⟨signal_data hdata h, signal_sync hsync h⟩
  | spurious x =>
    obtain ⟨m, hmon, rfl⟩ := Option.map_eq_some_iff.mp h
    obtain ⟨_, rfl⟩ := Monitor.wake_eq_some.mp hmon
    refine ⟨⟨hdata.lower, hdata.produced, hdata.consumed, hdata.readed⟩,
      ⟨hsync.workerHolds, hsync.mainHolds, ?_, ?_⟩⟩
    · exact fun hmem => hsync.workerBlocked (Finset.mem_of_mem_erase hmem)
    · exact fun hmem => hsync.mainBlocked (Finset.mem_of_mem_erase hmem)

end Acos.PrimeSentinel
