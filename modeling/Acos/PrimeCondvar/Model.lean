import Acos.Lib.MachineInt
import Acos.Lib.Pthread
import Acos.Lib.Transition

/-! The generator `routine` and the printer of `inf19-1_posix_threads_condvar/main.c`. They
share one cell with a flag under one mutex and one condition variable. -/
namespace Acos.PrimeCondvar
open Acos.MachineInt Acos.Pthread

/-- The loop of `is_prime` from the divisor `div` on, an `int`; `none` when it takes more than
`fuel` rounds. -/
def isPrimeLoop : ℕ → ℤ → ℤ → Option Bool
  | 0, _, _ => none
  | fuel + 1, num, div =>
    if u64 (i32 (div * div)) ≤ num then
      if num % u64 div = 0 then some false else isPrimeLoop fuel num (i32 (div + 1))
    else some true

/-- For `num < 2^63` no more than `46341` divisors are tried. -/
def isPrime (num : ℤ) : Option Bool :=
  if num ≤ 1 then some false else isPrimeLoop 46341 num 2

inductive Thread where
  | generator
  | main
  deriving DecidableEq, Repr

/-- Where `routine` stands: before the named action. -/
inductive RoutinePc where
  | lock
  | loop
  | signal
  | check
  | waiting
  | count
  | returned
  deriving DecidableEq, Repr

/-- Where `main` stands after it has created the generator. -/
inductive MainPc where
  | lock
  | loop
  | check
  | waiting
  | take
  | signal
  | unlock
  | join
  | returned
  deriving DecidableEq, Repr

structure State where
  monitor : Monitor Thread
  done : Bool
  num : ℤ
  routinePc : RoutinePc
  index : ℤ
  found_numbers_count : ℤ
  mainPc : MainPc
  i : ℤ
  printed : List ℤ
  deriving DecidableEq

def initial (A : ℤ) : State where
  monitor := Monitor.init
  done := false
  num := 0
  routinePc := .lock
  index := A
  found_numbers_count := 0
  mainPc := .lock
  i := 0
  printed := []

/-- `signal` carries the threads that `pthread_cond_signal` wakes. -/
inductive Label where
  | act (t : Thread)
  | signal (t : Thread) (woken : Finset Thread)
  | spurious (t : Thread)

/-- A step of `routine` other than a signal. It returns with the mutex locked. -/
def routineAct (B N : ℤ) (s : State) : Option State :=
  match s.routinePc with
  | .lock => (s.monitor.lock .generator).map fun m => { s with monitor := m, routinePc := .loop }
  | .loop =>
    if s.index ≤ B then
      match isPrime s.index with
      | some true => some { s with num := s.index, done := true, routinePc := .signal }
      | some false => some { s with index := u64 (s.index + 1) }
      | none => none
    else some { s with routinePc := .returned }
  | .check =>
    if s.done then
      (s.monitor.wait .generator).map fun m => { s with monitor := m, routinePc := .waiting }
    else some { s with routinePc := .count }
  | .waiting =>
    (s.monitor.lock .generator).map fun m => { s with monitor := m, routinePc := .check }
  | .count =>
    if N = i32 (s.found_numbers_count + 1) then
      some { s with
        found_numbers_count := i32 (s.found_numbers_count + 1)
        routinePc := .returned }
    else some { s with
      found_numbers_count := i32 (s.found_numbers_count + 1)
      index := u64 (s.index + 1)
      routinePc := .loop }
  | .signal => none
  | .returned => none

/-- A step of `main` other than a signal. -/
def mainAct (N : ℤ) (s : State) : Option State :=
  match s.mainPc with
  | .lock => (s.monitor.lock .main).map fun m => { s with monitor := m, mainPc := .loop }
  | .loop => some { s with mainPc := if s.i < N then .check else .unlock }
  | .check =>
    if s.done then some { s with mainPc := .take }
    else (s.monitor.wait .main).map fun m => { s with monitor := m, mainPc := .waiting }
  | .waiting => (s.monitor.lock .main).map fun m => { s with monitor := m, mainPc := .check }
  | .take => some { s with printed := s.printed ++ [s.num], done := false, mainPc := .signal }
  | .unlock => (s.monitor.unlock .main).map fun m => { s with monitor := m, mainPc := .join }
  | .join => if s.routinePc = .returned then some { s with mainPc := .returned } else none
  | .signal => none
  | .returned => none

/-- The state after a signal of the thread, if it stands before one. -/
def afterSignal (s : State) : Thread → Option State
  | .generator =>
    match s.routinePc with
    | .signal => some { s with routinePc := .check }
    | _ => none
  | .main =>
    match s.mainPc with
    | .signal => some { s with i := i32 (s.i + 1), mainPc := .loop }
    | _ => none

def next (B N : ℤ) (s : State) : Label → Option State
  | .act .generator => routineAct B N s
  | .act .main => mainAct N s
  | .signal t woken =>
    (s.monitor.signal woken).bind fun m => afterSignal { s with monitor := m } t
  | .spurious t => (s.monitor.wake t).map fun m => { s with monitor := m }

/-- `main` has not returned, and no thread can take a step other than by waking spuriously. -/
def Deadlocked (B N : ℤ) (s : State) : Prop :=
  s.mainPc ≠ .returned ∧ (∀ t, next B N s (.act t) = none) ∧
    ∀ t woken, next B N s (.signal t woken) = none

end Acos.PrimeCondvar
