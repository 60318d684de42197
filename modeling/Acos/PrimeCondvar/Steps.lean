import Acos.PrimeCondvar.Primes

/-! What holds in every reachable state of the two threads, and how each step keeps it. -/
namespace Acos.PrimeCondvar
open Acos.MachineInt Acos.Pthread
open Acos.PrimeSentinel (primesIn primesBelow primesBelow_succ prime prime_iff)

/-- The mutex belongs to `routine` for ever once it has returned. -/
def RoutinePc.holds : RoutinePc → Bool
  | .lock | .waiting => false
  | _ => true

def MainPc.holds : MainPc → Bool
  | .loop | .check | .take | .signal | .unlock => true
  | _ => false

/-- The generator is about to try `index`, and `k` numbers have been printed. -/
structure Searching (A B N index found : ℤ) (done : Bool) (k : ℤ) : Prop where
  upper : index ≤ B + 1
  count : found = (primesBelow A index).length
  few : found < N
  empty : done = false
  printed : k = found

/-- The cell holds the prime `index`, or `main` has printed it. -/
structure Offered (A B N index found : ℤ) (done : Bool) (k : ℤ) : Prop where
  upper : index ≤ B
  isPrime : index.toNat.Prime
  count : found = (primesBelow A index).length
  few : found < N
  printed : k = if done then found else found + 1

/-- What the control point of `routine` says of the cell and of the output. -/
def Produced (A B N : ℤ) (pc : RoutinePc) (index found : ℤ) (done : Bool) (k : ℤ) : Prop :=
  match pc with
  | .lock | .loop => Searching A B N index found done k
  | .signal => Offered A B N index found done k ∧ done = true
  | .check | .waiting => Offered A B N index found done k
  | .count => Offered A B N index found done k ∧ done = false
  | .returned => done = false ∧ k = found ∧ (found = N ∨ found = (primesIn A B).length)

/-- What the control point of `main` says of its count. -/
def Consumed (N : ℤ) (pc : MainPc) (i : ℤ) (done : Bool) (k : ℤ) : Prop :=
  match pc with
  | .loop => i = k ∧ i ≤ N
  | .lock | .check | .waiting => i = k ∧ i < N
  | .take => i = k ∧ i < N ∧ done = true
  | .signal => i + 1 = k ∧ i < N
  | .unlock | .join | .returned => i = k ∧ i = N

structure DataInv (A B N : ℤ) (s : State) : Prop where
  lower : A ≤ s.index
  produced : Produced A B N s.routinePc s.index s.found_numbers_count s.done s.printed.length
  consumed : Consumed N s.mainPc s.i s.done s.printed.length

/-- A thread that blocks has just seen a flag that gives it nothing to do, and the other thread
signals after every change of the flag. -/
structure SyncInv (s : State) : Prop where
  routineHolds : s.monitor.owner = some .generator ↔ s.routinePc.holds = true
  mainHolds : s.monitor.owner = some .main ↔ s.mainPc.holds = true
  routineBlocked : .generator ∈ s.monitor.blocked →
    s.routinePc = .waiting ∧ (s.done = false → s.mainPc = .signal)
  mainBlocked : .main ∈ s.monitor.blocked →
    s.mainPc = .waiting ∧ (s.done = true → s.routinePc = .signal)

section
variable {A B N : ℤ} {s t : State}

theorem SyncInv.exclusive (hs : SyncInv s) (h : s.routinePc.holds = true) :
    s.mainPc.holds = false := by
  have hr := hs.routineHolds.mpr h
  have hm := hs.mainHolds
  rw [hr] at hm
  simpa using hm

theorem initial_dataInv (hAB : A ≤ B) (hN : 1 ≤ N) : DataInv A B N (initial A) where
  lower := le_refl A
  produced := ⟨by simp only [initial]; omega, by simp [initial], by simp only [initial]; omega,
    rfl, rfl⟩
  consumed := ⟨rfl, by simp only [initial]; omega⟩

theorem initial_syncInv (A : ℤ) : SyncInv (initial A) := by
  constructor <;> simp [initial, RoutinePc.holds, MainPc.holds, Monitor.init]

/-- While `routine` holds the mutex, `main` does not look at the flag. -/
theorem Consumed.of_not_holds {pc : MainPc} {i k : ℤ} {done done' : Bool}
    (h : Consumed N pc i done k) (hpc : pc.holds = false) : Consumed N pc i done' k := by
  cases pc with
  | take => cases hpc
  | _ => exact h

/-- One more number is passed. -/
theorem count_succ {index : ℤ} (h : A ≤ index) : ((primesBelow A (index + 1)).length : ℤ) =
    (primesBelow A index).length + if index.toNat.Prime then 1 else 0 := by
  rw [primesBelow_succ h]
  by_cases hp : index.toNat.Prime
  · simp [(prime_iff index).mpr hp, hp]
  · have hno : ¬ prime index = true := fun h => hp ((prime_iff index).mp h)
    simp [hno, hp]

theorem routineAct_data (hA : 0 ≤ A) (hB : B < 2 ^ 31) (hN : N < 2 ^ 31) (hs : DataInv A B N s)
    (hsync : SyncInv s) (h : routineAct B N s = some t) : DataInv A B N t := by
  obtain ⟨hlo, hp, hc⟩ := hs
  have hexcl := hsync.exclusive
  have hnext : s.index ≤ B → u64 (s.index + 1) = s.index + 1 :=
    fun h => u64_of_range (by omega) (by omega)
  unfold routineAct at h
  split at h
  next hpc =>
    obtain ⟨m, _, rfl⟩ := Option.map_eq_some_iff.mp h
    exact ⟨hlo, by simpa only [Produced, hpc] using hp, hc⟩
  next hpc =>
    rw [hpc] at hp hexcl
    split_ifs at h with hi
    · rw [isPrime_eq (by omega)] at h
      by_cases hprime : s.index.toNat.Prime
      · simp only [hprime, decide_true] at h
        cases h
        refine ⟨hlo, ⟨⟨hi, hprime, hp.count, hp.few, ?_⟩, rfl⟩, hc.of_not_holds (hexcl rfl)⟩
        simpa using hp.printed
      · simp only [hprime, decide_false, hnext hi] at h
        cases h
        have hcount := count_succ hlo
        rw [if_neg hprime, add_zero, ← hp.count] at hcount
        refine ⟨Int.le_add_one hlo, ?_, hc⟩
        simp only [Produced, hpc]
        exact ⟨by omega, hcount.symm, hp.few, hp.empty, hp.printed⟩
    · cases h
      have hend : s.index = B + 1 := by
        have := hp.upper
        omega
      refine ⟨hlo, ⟨hp.empty, hp.printed, .inr ?_⟩, hc.of_not_holds (hexcl rfl)⟩
      have hcount := hp.count
      rwa [hend, primesBelow, Int.add_sub_cancel] at hcount
  next hpc =>
    rw [hpc] at hp hexcl
    split_ifs at h with hdone
    · obtain ⟨m, _, rfl⟩ := Option.map_eq_some_iff.mp h
      exact ⟨hlo, hp, hc⟩
    · cases h
      exact ⟨hlo, ⟨hp, by simpa using hdone⟩, hc⟩
  next hpc =>
    obtain ⟨m, _, rfl⟩ := Option.map_eq_some_iff.mp h
    exact ⟨hlo, by simpa only [Produced, hpc] using hp, hc⟩
  next hpc =>
    rw [hpc] at hp
    obtain ⟨hoffer, hempty⟩ := hp
    have hfew := hoffer.few
    have hprinted := hoffer.printed
    rw [hempty] at hprinted
    have hzero : 0 ≤ s.found_numbers_count := by
      rw [hoffer.count]
      omega
    rw [i32_of_range (by omega) (by omega), hnext hoffer.upper] at h
    have hcount := count_succ hlo
    rw [if_pos hoffer.isPrime, ← hoffer.count] at hcount
    split_ifs at h with hlast
    · cases h
      exact ⟨hlo, ⟨hempty, by simpa using hprinted, .inl hlast.symm⟩, hc⟩
    · cases h
      have hupper : s.index + 1 ≤ B + 1 := Int.add_le_add_right hoffer.upper 1
      have hmore : s.found_numbers_count + 1 < N :=
        lt_of_le_of_ne (Int.add_one_le_of_lt hfew) (Ne.symm hlast)
      exact ⟨Int.le_add_one hlo, ⟨hupper, hcount.symm, hmore, hempty, by simpa using hprinted⟩,
        hc⟩
  all_goals cases h

theorem mainAct_data (hs : DataInv A B N s) (hsync : SyncInv s) (h : mainAct N s = some t) :
    DataInv A B N t := by
  obtain ⟨hlo, hp, hc⟩ := hs
  have hexcl := hsync.exclusive
  unfold mainAct at h
  split at h
  next hpc =>
    obtain ⟨m, _, rfl⟩ := Option.map_eq_some_iff.mp h
    rw [hpc] at hc
    exact ⟨hlo, hp, hc.1, hc.2.le⟩
  next hpc =>
    rw [hpc] at hc
    cases h
    refine ⟨hlo, hp, ?_⟩
    dsimp only
    split_ifs with hi
    · exact ⟨hc.1, hi⟩
    · exact ⟨hc.1, le_antisymm hc.2 (not_lt.mp hi)⟩
  next hpc =>
    rw [hpc] at hc
    split_ifs at h with hdone
    · cases h
      exact ⟨hlo, hp, hc.1, hc.2, hdone⟩
    · obtain ⟨m, _, rfl⟩ := Option.map_eq_some_iff.mp h
      exact ⟨hlo, hp, hc⟩
  next hpc =>
    obtain ⟨m, _, rfl⟩ := Option.map_eq_some_iff.mp h
    exact ⟨hlo, hp, by simpa only [Consumed, hpc] using hc⟩
  next hpc =>
    rw [hpc] at hc
    obtain ⟨hi, hN, hdone⟩ := hc
    have hfree : s.routinePc.holds = false := by
      by_contra hr
      have := hexcl (by simpa using hr)
      simp [hpc, MainPc.holds] at this
    cases h
    refine ⟨hlo, ?_, by simp [hi], hN⟩
    rw [hdone] at hp
    cases hr : s.routinePc with
    | lock =>
      rw [hr] at hp
      cases hp.empty
    | waiting =>
      rw [hr] at hp
      refine ⟨hp.upper, hp.isPrime, hp.count, hp.few, ?_⟩
      simpa using hp.printed
    | _ => simp [hr, RoutinePc.holds] at hfree
  next hpc =>
    obtain ⟨m, _, rfl⟩ := Option.map_eq_some_iff.mp h
    exact ⟨hlo, hp, by simpa only [Consumed, hpc] using hc⟩
  next hpc =>
    split_ifs at h
    cases h
    exact ⟨hlo, hp, by simpa only [Consumed, hpc] using hc⟩
  all_goals cases h

theorem routineAct_sync (hs : SyncInv s) (h : routineAct B N s = some t) : SyncInv t := by
  obtain ⟨hr, hm, hrb, hmb⟩ := hs
  unfold routineAct at h
  split at h
  next hpc =>
    obtain ⟨m, hmon, rfl⟩ := Option.map_eq_some_iff.mp h
    obtain ⟨hown, hblk, rfl⟩ := Monitor.lock_eq_some.mp hmon
    constructor <;> simp_all [RoutinePc.holds]
  next hpc =>
    split_ifs at h
    · split at h <;> cases h <;> constructor <;> simp_all [RoutinePc.holds]
    · cases h
      constructor <;> simp_all [RoutinePc.holds]
  next hpc =>
    split_ifs at h with hdone
    · obtain ⟨m, hmon, rfl⟩ := Option.map_eq_some_iff.mp h
      obtain ⟨hown, rfl⟩ := Monitor.wait_eq_some.mp hmon
      constructor <;> simp_all [RoutinePc.holds]
    · cases h
      constructor <;> simp_all [RoutinePc.holds]
  next hpc =>
    obtain ⟨m, hmon, rfl⟩ := Option.map_eq_some_iff.mp h
    obtain ⟨hown, hblk, rfl⟩ := Monitor.lock_eq_some.mp hmon
    constructor <;> simp_all [RoutinePc.holds]
  next hpc =>
    split_ifs at h <;> cases h <;> constructor <;> simp_all [RoutinePc.holds]
  all_goals cases h

theorem mainAct_sync (hs : SyncInv s) (h : mainAct N s = some t) : SyncInv t := by
  obtain ⟨hr, hm, hrb, hmb⟩ := hs
  unfold mainAct at h
  split at h
  next hpc =>
    obtain ⟨m, hmon, rfl⟩ := Option.map_eq_some_iff.mp h
    obtain ⟨hown, hblk, rfl⟩ := Monitor.lock_eq_some.mp hmon
    constructor <;> simp_all [MainPc.holds]
  next hpc =>
    cases h
    rcases ite_eq_or_eq (s.i < N) MainPc.check MainPc.unlock with hite | hite <;>
      rw [hite] <;> constructor <;> simp_all [MainPc.holds]
  next hpc =>
    split_ifs at h with hdone
    · cases h
      constructor <;> simp_all [MainPc.holds]
    · obtain ⟨m, hmon, rfl⟩ := Option.map_eq_some_iff.mp h
      obtain ⟨hown, rfl⟩ := Monitor.wait_eq_some.mp hmon
      constructor <;> simp_all [MainPc.holds]
  next hpc =>
    obtain ⟨m, hmon, rfl⟩ := Option.map_eq_some_iff.mp h
    obtain ⟨hown, hblk, rfl⟩ := Monitor.lock_eq_some.mp hmon
    constructor <;> simp_all [MainPc.holds]
  next hpc =>
    cases h
    constructor <;> simp_all [MainPc.holds]
  next hpc =>
    obtain ⟨m, hmon, rfl⟩ := Option.map_eq_some_iff.mp h
    obtain ⟨hown, rfl⟩ := Monitor.unlock_eq_some.mp hmon
    constructor <;> simp_all [MainPc.holds]
  next hpc =>
    split_ifs at h
    cases h
    constructor <;> simp_all [MainPc.holds]
  all_goals cases h

/-- The signaller is not blocked itself, so its signal leaves nobody blocked. -/
theorem signal_blocked {m : Monitor Thread} {x : Thread} {woken : Finset Thread}
    (h : s.monitor.signal woken = some m) (hx : x ∉ s.monitor.blocked) :
    m.owner = s.monitor.owner ∧ m.blocked = ∅ := by
  apply Monitor.signal_of_two _ h hx
  intro u v hu hv
  cases x <;> cases u <;> cases v <;> first | rfl | contradiction

theorem signal_inv {x : Thread} {woken : Finset Thread} (hN : N < 2 ^ 31)
    (hs : DataInv A B N s ∧ SyncInv s) (h : next B N s (.signal x woken) = some t) :
    DataInv A B N t ∧ SyncInv t := by
  obtain ⟨⟨hlo, hp, hc⟩, hr, hm, hrb, hmb⟩ := hs
  obtain ⟨m, hmon, h⟩ := Option.bind_eq_some_iff.mp h
  cases x with
  | generator =>
    simp only [afterSignal] at h
    split at h
    next hpc =>
      have hfree : .generator ∉ s.monitor.blocked := fun hmem => by
        simp [hpc] at hrb
        exact hrb hmem
      obtain ⟨hown, hblk⟩ := signal_blocked hmon hfree
      cases h
      rw [hpc] at hp
      refine ⟨⟨hlo, hp.1, hc⟩, ?_⟩
      constructor <;> simp_all [RoutinePc.holds]
    next => cases h
  | main =>
    simp only [afterSignal] at h
    split at h
    next hpc =>
      have hfree : .main ∉ s.monitor.blocked := fun hmem => by simp [hpc] at hmb; exact hmb hmem
      obtain ⟨hown, hblk⟩ := signal_blocked hmon hfree
      rw [hpc] at hc
      obtain ⟨hi, hfew⟩ := hc
      rw [i32_of_range (by omega) (by omega)] at h
      cases h
      refine ⟨⟨hlo, hp, hi, hfew⟩, ?_⟩
      constructor <;> simp_all [MainPc.holds]
    next => cases h

theorem next_inv (hA : 0 ≤ A) (hB : B < 2 ^ 31) (hN : N < 2 ^ 31) (s : State) (l : Label)
    (t : State) (hs : DataInv A B N s ∧ SyncInv s) (h : next B N s l = some t) :
    DataInv A B N t ∧ SyncInv t := by
  cases l with
  | act x =>
    cases x with
    | generator => exact ⟨routineAct_data hA hB hN hs.1 hs.2 h, routineAct_sync hs.2 h⟩
    | main => exact ⟨mainAct_data hs.1 hs.2 h, mainAct_sync hs.2 h⟩
  | signal x woken => exact signal_inv hN hs h
  | spurious x =>
    obtain ⟨hdata, hsync⟩ := hs
    obtain ⟨m, hmon, rfl⟩ := Option.map_eq_some_iff.mp h
    obtain ⟨_, rfl⟩ := Monitor.wake_eq_some.mp hmon
    refine ⟨⟨hdata.lower, hdata.produced, hdata.consumed⟩,
      ⟨hsync.routineHolds, hsync.mainHolds, ?_, ?_⟩⟩
    · exact fun hmem => hsync.routineBlocked (Finset.mem_of_mem_erase hmem)
    · exact fun hmem => hsync.mainBlocked (Finset.mem_of_mem_erase hmem)

end

end Acos.PrimeCondvar
