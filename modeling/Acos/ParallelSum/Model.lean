import Acos.Lib.MachineInt
import Acos.Lib.Transition
import Mathlib.Logic.Function.Basic

/-! The threads of `inf18-1_posix_threads_parallel-sum/main.c` take the numbers from one stream; a
call of `scanf` holds the lock of the stream. A label names the thread that moves. -/
namespace Acos.ParallelSum
open Acos.MachineInt

/-- Where a thread stands in `sum_numbers`. -/
inductive Worker where
  | new
  | scanning
  | adding (value : Int32)
  | finished
  deriving DecidableEq

/-- Where `main` stands: in its first loop, in its second one, or behind `printf`. -/
inductive Main where
  | create (i : ℕ)
  | join (i : ℕ)
  | printed (value : ℤ)
  deriving DecidableEq

/-- The cells of `part_sums` are of the type `pthread_t`, of 64 bits without a sign. -/
structure State where
  input : List Int32
  workers : ℕ → Worker
  part_sums : ℕ → ℤ
  main : Main
  sum : ℤ

def initial (input : List Int32) : State where
  input := input
  workers _ := .new
  part_sums _ := 0
  main := .create 0
  sum := 0

/-- `*sum_cell += value`: the cell is used as an `int`, which is its low half. -/
def addToCell (cell : ℤ) (value : Int32) : ℤ :=
  cell - u32 cell + u32 (i32 (i32 cell + value.toInt))

/-- `sum += part_sums[i]`. -/
def addCell (sum cell : ℤ) : ℤ := i32 (u64 (u64 sum + cell))

inductive Label where
  | main
  | worker (i : ℕ)
  deriving DecidableEq

def stepMain (n : ℕ) (s : State) : Option State :=
  match s.main with
  | .create i =>
    if i < n then
      some { s with workers := Function.update s.workers i .scanning, main := .create (i + 1) }
    else some { s with main := .join 0 }
  | .join i =>
    if i < n then
      if s.workers i = .finished then
        some { s with sum := addCell s.sum (s.part_sums i), main := .join (i + 1) }
      else none
    else some { s with main := .printed s.sum }
  | .printed _ => none

def stepWorker (s : State) (i : ℕ) : Option State :=
  match s.workers i with
  | .new => none
  | .scanning =>
    match s.input with
    | [] => some { s with workers := Function.update s.workers i .finished }
    | value :: input =>
      some { s with input := input, workers := Function.update s.workers i (.adding value) }
  | .adding value =>
    some { s with
      part_sums := Function.update s.part_sums i (addToCell (s.part_sums i) value)
      workers := Function.update s.workers i .scanning }
  | .finished => none

/-- One step with `n` threads besides `main`. -/
def next (n : ℕ) (s : State) : Label → Option State
  | .main => stepMain n s
  | .worker i => stepWorker s i

end Acos.ParallelSum
