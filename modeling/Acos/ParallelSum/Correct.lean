import Acos.Lib.FinSum
import Acos.ParallelSum.Model

/-! What is not yet in `sum` is in the stream, in a thread or in a cell, at every moment; so the
number that is printed does not depend on who takes what. -/
namespace Acos.ParallelSum
open Acos.FinSum Acos.MachineInt Acos.Transition

/-- The number that a thread has taken and not yet added. -/
def Worker.held : Worker → ℤ
  | .adding value => value.toInt
  | _ => 0

/-- How many threads are started. -/
def Main.created (n : ℕ) : Main → ℕ
  | .create i => i
  | _ => n

/-- How many cells are in `sum`. -/
def Main.joined (n : ℕ) : Main → ℕ
  | .create _ => 0
  | .join i => i
  | .printed _ => n

/-- What a thread and its cell have of the numbers, when the cells before `joined` are in `sum`. -/
def share (joined : ℕ) (workers : ℕ → Worker) (part_sums : ℕ → ℤ) (i : ℕ) : ℤ :=
  (workers i).held + if i < joined then 0 else part_sums i

def total (numbers : List Int32) : ℤ := (numbers.map Int32.toInt).sum

/-- The invariant of the threads and `main`. -/
structure Inv (n : ℕ) (numbers : List Int32) (s : State) : Prop where
  exact : (total s.input + ∑ i ∈ Finset.range n, share (s.main.joined n) s.workers s.part_sums i +
    s.sum - total numbers) % 2 ^ 32 = 0
  started : ∀ i, s.workers i ≠ .new ↔ i < s.main.created n
  joined : ∀ i < s.main.joined n, s.workers i = .finished
  ended : ∀ i, s.workers i = .finished → s.input = []
  bounds : s.main.created n ≤ n ∧ s.main.joined n ≤ n
  range : i32 s.sum = s.sum
  output : ∀ value, s.main = .printed value → value = s.sum

section
variable {n i : ℕ} {numbers : List Int32} {s t : State}

theorem initial_inv (n : ℕ) (numbers : List Int32) : Inv n numbers (initial numbers) where
  exact := by
    have hzero : ∑ i ∈ Finset.range n, share 0 (fun _ => .new) (fun _ => 0) i = 0 :=
      Finset.sum_eq_zero fun i _ => by simp [share, Worker.held]
    simp [initial, Main.joined, hzero]
  started i := by simp [initial, Main.created]
  joined i hi := absurd hi (Nat.not_lt_zero i)
  ended i h := by simp [initial] at h
  bounds := ⟨Nat.zero_le n, Nat.zero_le n⟩
  range := show i32 0 = 0 by decide
  output value h := by simp [initial] at h

theorem addToCell_mod (cell : ℤ) (value : Int32) :
    (addToCell cell value - cell - value.toInt) % 2 ^ 32 = 0 := by
  unfold addToCell i32 u32
  omega

theorem addCell_mod (sum cell : ℤ) : (addCell sum cell - sum - cell) % 2 ^ 32 = 0 := by
  unfold addCell i32 u64
  omega

theorem addCell_range (sum cell : ℤ) : i32 (addCell sum cell) = addCell sum cell := by
  unfold addCell i32
  omega

theorem stepMain_inv (h : Inv n numbers s) (hstep : stepMain n s = some t) :
    Inv n numbers t := by
  obtain ⟨hexact, hstarted, hjoined, hended, ⟨hcreated, hle⟩, hrange, houtput⟩ := h
  unfold stepMain at hstep
  cases hmain : s.main with
  | create i =>
    simp only [hmain, Main.created, Main.joined] at *
    split_ifs at hstep with hi
    · obtain rfl := Option.some.inj hstep
      have hnew : s.workers i = .new := by
        by_contra hne
        exact Nat.lt_irrefl i ((hstarted i).mp hne)
      refine ⟨?_, fun j => ?_, fun j hj => absurd hj (Nat.not_lt_zero j), fun j hj => ?_,
        ⟨hi, Nat.zero_le n⟩, hrange, nofun⟩
      · have hshare : ∀ j, share 0 (Function.update s.workers i .scanning) s.part_sums j =
            share 0 s.workers s.part_sums j := by
          intro j
          by_cases heq : j = i
          · simp [share, heq, hnew, Worker.held]
          · simp [share, heq]
        simpa [hshare, Main.joined] using hexact
      · by_cases heq : j = i
        · simp [heq, Main.created]
        · have hlt : j < i + 1 ↔ j < i := by omega
          simp only [Function.update_of_ne heq, hstarted j, Main.created, hlt]
      · by_cases heq : j = i
        · simp [heq] at hj
        · simp only [Function.update_of_ne heq] at hj
          exact hended j hj
    · obtain rfl := Option.some.inj hstep
      have hall : i = n := by omega
      refine ⟨hexact, fun j => ?_, fun j hj => absurd hj (Nat.not_lt_zero j), hended,
        ⟨le_rfl, Nat.zero_le n⟩, hrange, nofun⟩
      rw [hstarted j, hall]
      rfl
  | join i =>
    simp only [hmain, Main.created, Main.joined] at *
    split_ifs at hstep with hi hfinished
    · obtain rfl := Option.some.inj hstep
      refine ⟨?_, hstarted, fun j hj => ?_, hended, ⟨le_rfl, hi⟩, addCell_range _ _, nofun⟩
      · have hother : ∀ j, j ≠ i → share (i + 1) s.workers s.part_sums j =
            share i s.workers s.part_sums j := by
          intro j hj
          have hiff : j < i + 1 ↔ j < i := by omega
          simp only [share, hiff]
        have hsum := sum_change (Finset.mem_range.mpr hi) hother
        have hbefore : share i s.workers s.part_sums i = s.part_sums i := by
          simp [share, hfinished, Worker.held]
        have hafter : share (i + 1) s.workers s.part_sums i = 0 := by
          simp [share, hfinished, Worker.held]
        have hadd := addCell_mod s.sum (s.part_sums i)
        rw [hbefore, hafter] at hsum
        simp only [Main.joined]
        omega
      · rcases Nat.lt_succ_iff_lt_or_eq.mp hj with hlt | rfl
        · exact hjoined j hlt
        · exact hfinished
    · obtain rfl := Option.some.inj hstep
      have hall : i = n := by omega
      subst hall
      exact ⟨hexact, hstarted, hjoined, hended, ⟨le_rfl, le_rfl⟩, hrange,
        fun value hvalue => (Main.printed.inj hvalue).symm⟩
  | printed value => simp [hmain] at hstep

/-- A thread that goes on from a place that is neither its first nor its last one. -/
theorem Inv.worker (h : Inv n numbers s) (hnew : s.workers i ≠ .new)
    (hrunning : s.workers i ≠ .finished) (w : Worker) (input : List Int32) (cell : ℤ)
    (hw : w ≠ .new) (hinput : s.input = [] → input = []) (hend : w = .finished → input = [])
    (hmoved : (total input + w.held + cell - total s.input - (s.workers i).held -
      s.part_sums i) % 2 ^ 32 = 0) :
    Inv n numbers { s with
      input := input
      workers := Function.update s.workers i w
      part_sums := Function.update s.part_sums i cell } := by
  have hi : i < n := Nat.lt_of_lt_of_le ((h.started i).mp hnew) h.bounds.1
  have hlate : ¬ i < s.main.joined n := fun hlt => hrunning (h.joined i hlt)
  refine ⟨?_, fun j => ?_, fun j hj => ?_, fun j hj => ?_, h.bounds, h.range, h.output⟩
  · have hexact := h.exact
    have hsum := sum_change (f := share (s.main.joined n) s.workers s.part_sums)
      (g := share (s.main.joined n) (Function.update s.workers i w)
        (Function.update s.part_sums i cell)) (Finset.mem_range.mpr hi) fun j hj => by simp [share, hj]
    simp only [share, Function.update_self, if_neg hlate] at hsum hexact ⊢
    omega
  · by_cases heq : j = i
    · subst heq
      simp [hw, (h.started j).mp hnew]
    · simp only [Function.update_of_ne heq, h.started j]
  · have hne : j ≠ i := by
      rintro rfl
      exact hlate hj
    simp only [Function.update_of_ne hne]
    exact h.joined j hj
  · by_cases heq : j = i
    · subst heq
      simp only [Function.update_self] at hj
      exact hend hj
    · simp only [Function.update_of_ne heq] at hj
      exact hinput (h.ended j hj)

theorem stepWorker_inv (h : Inv n numbers s) (hstep : stepWorker s i = some t) :
    Inv n numbers t := by
  unfold stepWorker at hstep
  cases hworker : s.workers i with
  | new => simp [hworker] at hstep
  | finished => simp [hworker] at hstep
  | scanning =>
    have hnew : s.workers i ≠ .new := by simp [hworker]
    have hrunning : s.workers i ≠ .finished := by simp [hworker]
    simp only [hworker] at hstep
    cases hinput : s.input with
    | nil =>
      simp only [hinput, Option.some.injEq] at hstep
      subst hstep
      have hnext := h.worker hnew hrunning .finished [] (s.part_sums i) (by simp) (fun _ => rfl)
        (fun _ => rfl) (by simp [hworker, Worker.held, hinput])
      simpa only [Function.update_eq_self] using hnext
    | cons value input =>
      simp only [hinput, Option.some.injEq] at hstep
      subst hstep
      have hmoved : (total input + value.toInt + s.part_sums i - total (value :: input) - 0 -
          s.part_sums i) % 2 ^ 32 = 0 := by
        simp only [total, List.map_cons, List.sum_cons]
        omega
      have hnext := h.worker hnew hrunning (.adding value) input (s.part_sums i) (by simp)
        (by simp [hinput]) (by simp) (by simpa only [hworker, Worker.held, hinput] using hmoved)
      simpa only [Function.update_eq_self] using hnext
  | adding value =>
    simp only [hworker, Option.some.injEq] at hstep
    subst hstep
    have hadd := addToCell_mod (s.part_sums i) value
    refine h.worker (by simp [hworker]) (by simp [hworker]) .scanning s.input _ (by simp) id
      (by simp) ?_
    simp only [hworker, Worker.held]
    omega

/-- How far a thread is from its end, without the numbers that it still takes. -/
def Worker.left : Worker → ℕ
  | .new => 1
  | .scanning => 1
  | .adding _ => 2
  | .finished => 0

@[simp] theorem Worker.left_new : Worker.new.left = 1 := rfl
@[simp] theorem Worker.left_scanning : Worker.scanning.left = 1 := rfl
@[simp] theorem Worker.left_adding (value : Int32) : (Worker.adding value).left = 2 := rfl
@[simp] theorem Worker.left_finished : Worker.finished.left = 0 := rfl

def Main.left (n : ℕ) : Main → ℕ
  | .create i => 2 * n + 2 - i
  | .join i => n + 1 - i
  | .printed _ => 0

/-- The steps that are left, or more. -/
def State.left (n : ℕ) (s : State) : ℕ :=
  2 * s.input.length + ∑ i ∈ Finset.range n, (s.workers i).left + s.main.left n

theorem stepMain_left (h : Inv n numbers s) (hstep : stepMain n s = some t) :
    t.left n < s.left n := by
  have hbounds := h.bounds
  unfold stepMain at hstep
  unfold State.left
  cases hmain : s.main with
  | create i =>
    simp only [hmain] at hstep
    simp only [hmain, Main.created] at hbounds
    split_ifs at hstep with hi
    · obtain rfl := Option.some.inj hstep
      have hnew : s.workers i = .new := by
        by_contra hne
        have hlt := (h.started i).mp hne
        rw [hmain] at hlt
        exact Nat.lt_irrefl i hlt
      have hsum := sum_change (f := fun j => (s.workers j).left)
        (g := fun j => (Function.update s.workers i .scanning j).left) (Finset.mem_range.mpr hi)
        fun j hj => by rw [Function.update_of_ne hj]
      simp only [Function.update_self, hnew, Worker.left_new, Worker.left_scanning] at hsum
      simp only [Main.left]
      omega
    · obtain rfl := Option.some.inj hstep
      simp only [Main.left]
      omega
  | join i =>
    simp only [hmain] at hstep
    simp only [hmain, Main.joined] at hbounds
    split_ifs at hstep
    · obtain rfl := Option.some.inj hstep
      simp only [Main.left]
      omega
    · obtain rfl := Option.some.inj hstep
      simp only [Main.left]
      omega
  | printed value => simp [hmain] at hstep

theorem stepWorker_left (h : Inv n numbers s) (hstep : stepWorker s i = some t) :
    t.left n < s.left n := by
  have hi : s.workers i ≠ .new → i < n := fun hnew =>
    Nat.lt_of_lt_of_le ((h.started i).mp hnew) h.bounds.1
  have hsum : ∀ w : Worker, s.workers i ≠ .new →
      ∑ j ∈ Finset.range n, (Function.update s.workers i w j).left + (s.workers i).left =
        ∑ j ∈ Finset.range n, (s.workers j).left + w.left := by
    intro w hnew
    have hchange := sum_change (f := fun j => (s.workers j).left)
      (g := fun j => (Function.update s.workers i w j).left) (Finset.mem_range.mpr (hi hnew))
      fun j hj => by rw [Function.update_of_ne hj]
    simpa only [Function.update_self] using hchange
  unfold stepWorker at hstep
  unfold State.left
  cases hworker : s.workers i with
  | new => simp [hworker] at hstep
  | finished => simp [hworker] at hstep
  | scanning =>
    simp only [hworker] at hstep
    simp only [hworker, Worker.left_scanning] at hsum
    cases hinput : s.input with
    | nil =>
      simp only [hinput, Option.some.injEq] at hstep
      have hleft := hsum .finished (by simp)
      subst hstep
      simp only [Worker.left_finished] at hleft
      simp only
      omega
    | cons value input =>
      simp only [hinput, Option.some.injEq] at hstep
      have hleft := hsum (.adding value) (by simp)
      subst hstep
      simp only [Worker.left_adding] at hleft
      simp only [List.length_cons]
      omega
  | adding value =>
    simp only [hworker, Option.some.injEq] at hstep
    simp only [hworker, Worker.left_adding] at hsum
    have hleft := hsum .scanning (by simp)
    subst hstep
    simp only [Worker.left_scanning] at hleft
    simp only
    omega

theorem next_inv (s : State) (l : Label) (t : State) (h : Inv n numbers s)
    (hstep : next n s l = some t) : Inv n numbers t := by
  cases l with
  | main => exact stepMain_inv h hstep
  | worker i => exact stepWorker_inv h hstep

theorem next_left {l : Label} (h : Inv n numbers s) (hstep : next n s l = some t) :
    t.left n < s.left n := by
  cases l with
  | main => exact stepMain_left h hstep
  | worker i => exact stepWorker_left h hstep

/-- While `main` waits for a thread, that thread can move. -/
theorem exists_step (h : Inv n numbers s) (hprinted : ∀ value, s.main ≠ .printed value) :
    ∃ l t, next n s l = some t := by
  cases hmain : s.main with
  | create i =>
    by_cases hi : i < n
    · exact ⟨.main, _, by rw [next, stepMain, hmain]; exact if_pos hi⟩
    · exact ⟨.main, _, by rw [next, stepMain, hmain]; exact if_neg hi⟩
  | join i =>
    by_cases hi : i < n
    · cases hworker : s.workers i with
      | new =>
        have hcreated : i < s.main.created n := by rwa [hmain]
        exact absurd hworker ((h.started i).mpr hcreated)
      | scanning =>
        cases hinput : s.input with
        | nil => exact ⟨.worker i, _, by simp [next, stepWorker, hworker, hinput]; rfl⟩
        | cons value input => exact ⟨.worker i, _, by simp [next, stepWorker, hworker, hinput]; rfl⟩
      | adding value => exact ⟨.worker i, _, by simp [next, stepWorker, hworker]; rfl⟩
      | finished => exact ⟨.main, _, by simp [next, stepMain, hmain, hi, hworker]; rfl⟩
    · exact ⟨.main, _, by rw [next, stepMain, hmain]; exact if_neg hi⟩
  | printed value => exact absurd hmain (hprinted value)

/-- When `main` prints, nothing is left in the stream, the threads and the cells. -/
theorem Inv.printed (h : Inv n numbers s) (hn : 0 < n) {value : ℤ}
    (hmain : s.main = .printed value) : value = i32 (total numbers) := by
  have hjoined : ∀ i < n, s.workers i = .finished := by
    have hall := h.joined
    rwa [hmain] at hall
  have hinput : s.input = [] := h.ended 0 (hjoined 0 hn)
  have hshares : ∑ i ∈ Finset.range n, share n s.workers s.part_sums i = 0 := by
    apply Finset.sum_eq_zero
    intro i hi
    have hlt := Finset.mem_range.mp hi
    simp [share, hjoined i hlt, hlt, Worker.held]
  have hexact := h.exact
  rw [hmain, Main.joined, hinput, hshares] at hexact
  have hrange := h.range
  rw [h.output value hmain, ← hrange]
  simp only [total, List.map_nil, List.sum_nil] at hexact
  unfold i32
  simp only [total]
  omega

end

/-- In every schedule of one thread or more, `main` comes to print the sum, and prints nothing
else. -/
theorem parallel_sum_printed {n : ℕ} (hn : 0 < n) (numbers : List Int32) :
    (∀ s value, Reachable (next n) (initial numbers) s → s.main = .printed value →
      value = i32 (total numbers)) ∧
      Inevitably (next n) (fun s => s.main = .printed (i32 (total numbers))) (initial numbers) := by
  constructor
  · intro s value hs hmain
    exact (hs.invariant next_inv (initial_inv n numbers)).printed hn hmain
  · refine inevitably_of_measure (I := Inv n numbers) (State.left n) (fun s hs hnot => ?_)
      (fun s l t hs _ hstep => ⟨next_inv s l t hs hstep, next_left hs hstep⟩)
      (initial_inv n numbers)
    refine exists_step hs fun value hmain => hnot ?_
    rw [hmain, hs.printed hn hmain]

/-- Two threads and three numbers, of which two are below 0. -/
theorem parallel_sum_two :
    (∀ s value, Reachable (next 2) (initial [-3, 5, -4]) s → s.main = .printed value →
      value = i32 (total [-3, 5, -4])) ∧
      Inevitably (next 2) (fun s => s.main = .printed (i32 (total [-3, 5, -4])))
        (initial [-3, 5, -4]) :=
  parallel_sum_printed (by decide) [-3, 5, -4]

end Acos.ParallelSum
