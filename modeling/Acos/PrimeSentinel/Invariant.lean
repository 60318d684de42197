import Acos.PrimeSentinel.Primes

/-! What holds in every reachable state of the two threads. -/
namespace Acos.PrimeSentinel
open Acos.MachineInt Acos.Pthread Acos.Transition

def WorkerPc.holds : WorkerPc → Bool
  | .loop | .unlock | .check | .finish | .unlockEnd => true
  | _ => false

def MainPc.holds : MainPc → Bool
  | .loop | .unlock | .check | .take | .unlockEnd => true
  | _ => false

/-- The worker will signal before it can block. -/
def WorkerPc.signals : WorkerPc → Bool
  | .unlock | .signal | .unlockEnd | .signalEnd => true
  | _ => false

def MainPc.signals : MainPc → Bool
  | .loop | .unlock | .signal | .unlockEnd | .signalEnd => true
  | _ => false

/-- Everything there is to print has been printed. -/
def Complete (A B N : ℤ) (printed : List ℤ) : Prop :=
  printed <+: primesIn A B ∧ (printed.length : ℤ) = min N (primesIn A B).length

/-- The cell holds the prime `i` that `main` has not printed, or `main` has emptied it. -/
structure Offered (A B N i finded cell : ℤ) (printed : List ℤ) : Prop where
  upper : i ≤ B
  isPrime : prime i = true
  count : finded = (primesBelow A i).length
  few : finded < N
  cell : cell = i ∧ printed = primesBelow A i ∨ cell = -1 ∧ printed = primesBelow A (i + 1)

/-- The generator is about to try `i`; everything below it has been printed. -/
structure Searching (A B N i finded cell : ℤ) (printed : List ℤ) : Prop where
  upper : i ≤ B + 1
  count : finded = (primesBelow A i).length
  few : finded < N
  cell : cell = -1
  printed : printed = primesBelow A i

/-- What the control point of the worker says of the cell and of the output. -/
def Produced (A B N : ℤ) (pc : WorkerPc) (i finded cell : ℤ) (printed : List ℤ) : Prop :=
  match pc with
  | .lock | .loop => Searching A B N i finded cell printed
  | .unlock => Offered A B N i finded cell printed ∧ cell = i
  | .signal | .relock | .check | .waiting => Offered A B N i finded cell printed
  | .finish => cell = -1 ∧ Complete A B N printed
  | .unlockEnd | .signalEnd | .done => cell = -2 ∧ Complete A B N printed

/-- What the control point of `main` says of its count. -/
def Consumed (N : ℤ) (pc : MainPc) (readed cell : ℤ) : Prop :=
  match pc with
  | .lock | .loop => True
  | .unlock | .signal | .relock | .check | .waiting => readed < N
  | .take => readed < N ∧ cell ≠ -1
  | .unlockEnd | .signalEnd | .join | .done => readed = N ∨ cell = -2

structure DataInv (A B N : ℤ) (s : State) : Prop where
  lower : A ≤ s.i
  produced : Produced A B N s.workerPc s.i s.finded s.prime_number s.printed
  consumed : Consumed N s.mainPc s.readed s.prime_number
  readed : s.readed = s.printed.length

/-- A thread that blocks has just seen a cell that gives it nothing to do, and the other
thread signals after every change of the cell. -/
structure SyncInv (s : State) : Prop where
  workerHolds : s.monitor.owner = some .worker ↔ s.workerPc.holds = true
  mainHolds : s.monitor.owner = some .main ↔ s.mainPc.holds = true
  workerBlocked : .worker ∈ s.monitor.blocked →
    s.workerPc = .waiting ∧ (s.prime_number = -1 → s.mainPc.signals = true)
  mainBlocked : .main ∈ s.monitor.blocked →
    s.mainPc = .waiting ∧ (s.prime_number ≠ -1 → s.workerPc.signals = true)

theorem SyncInv.exclusive {s : State} (hs : SyncInv s) (h : s.workerPc.holds = true) :
    s.mainPc.holds = false := by
  have hw := hs.workerHolds.mpr h
  have hm := hs.mainHolds
  rw [hw] at hm
  simpa using hm

theorem prefix_primesIn {A B i : ℤ} (hA : A ≤ i) (hi : i ≤ B + 1) :
    primesBelow A i <+: primesIn A B := by
  have h := primesBelow_mono hA hi
  rwa [primesBelow, primesBelow, Int.add_sub_cancel] at h

/-- The primes after `i` that the generator still has in front of it. -/
theorem Offered.length_succ {A B N i finded cell : ℤ} {printed : List ℤ} (hA : A ≤ i)
    (h : Offered A B N i finded cell printed) :
    ((primesBelow A (i + 1)).length : ℤ) = finded + 1 := by
  rw [primesBelow_succ hA, h.count]
  simp [h.isPrime]

theorem Produced.printed_prefix {A B N i finded cell : ℤ} {pc : WorkerPc} {printed : List ℤ}
    (hA : A ≤ i) (h : Produced A B N pc i finded cell printed) :
    printed <+: primesIn A B ∧ (printed.length : ℤ) ≤ N := by
  have hsearch : Searching A B N i finded cell printed →
      printed <+: primesIn A B ∧ (printed.length : ℤ) ≤ N := by
    rintro ⟨hi, hcount, hfew, _, rfl⟩
    exact ⟨prefix_primesIn hA hi, by omega⟩
  have hoffer : Offered A B N i finded cell printed →
      printed <+: primesIn A B ∧ (printed.length : ℤ) ≤ N := by
    intro h
    have hlen := h.length_succ hA
    obtain ⟨hi, _, hcount, hfew, ⟨_, rfl⟩ | ⟨_, rfl⟩⟩ := h
    · exact ⟨prefix_primesIn hA (by omega), by omega⟩
    · exact ⟨prefix_primesIn (by omega) (by omega), by omega⟩
  have hend : Complete A B N printed → printed <+: primesIn A B ∧ (printed.length : ℤ) ≤ N :=
    fun h => ⟨h.1, h.2.trans_le (min_le_left _ _)⟩
  cases pc with
  | lock => exact hsearch h
  | loop => exact hsearch h
  | unlock => exact hoffer h.1
  | signal => exact hoffer h
  | relock => exact hoffer h
  | check => exact hoffer h
  | waiting => exact hoffer h
  | finish => exact hend h.2
  | unlockEnd => exact hend h.2
  | signalEnd => exact hend h.2
  | done => exact hend h.2

theorem initial_dataInv {A B N : ℤ} (hAB : A ≤ B) (hN : 1 ≤ N) : DataInv A B N (initial A) where
  lower := le_refl A
  produced := ⟨by simp only [initial]; omega, by simp [initial], by simp only [initial]; omega,
    rfl, by simp [initial]⟩
  consumed := trivial
  readed := rfl

theorem initial_syncInv (A : ℤ) : SyncInv (initial A) := by
  constructor <;> simp [initial, WorkerPc.holds, MainPc.holds, Monitor.init]

end Acos.PrimeSentinel
