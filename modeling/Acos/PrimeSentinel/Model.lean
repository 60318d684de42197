import Acos.Lib.MachineInt
import Acos.Lib.Pthread
import Acos.Lib.Transition

/-! The generator and the printer of `inf19-1_posix_threads_condvar/file.c`. They share
one cell, in which `-1` stands for "empty" and `-2` for "no more primes", under one
mutex and one condition variable. -/
namespace Acos.PrimeSentinel
open Acos.MachineInt Acos.Pthread

/-- The loop of `prime` from the divisor `i` on. -/
def primeLoop (number i : ℤ) : Bool :=
  if i ≤ number / 2 then
    if number % i = 0 then false else primeLoop number (i + 1)
  else true
termination_by (number / 2 + 1 - i).toNat

def prime (number : ℤ) : Bool :=
  if number ≤ 1 then false
  else if number % 2 = 0 then number = 2
  else primeLoop number 2

inductive Thread where
  | worker
  | main
  deriving DecidableEq, Repr

/-- Where `find_primes` stands: before the named action. -/
inductive WorkerPc where
  | lock
  | loop
  | unlock
  | signal
  | relock
  | check
  | waiting
  | finish
  | unlockEnd
  | signalEnd
  | done
  deriving DecidableEq, Repr

/-- Where `main` stands after it has created the worker. -/
inductive MainPc where
  | lock
  | loop
  | unlock
  | signal
  | relock
  | check
  | waiting
  | take
  | unlockEnd
  | signalEnd
  | join
  | done
  deriving DecidableEq, Repr

structure State where
  monitor : Monitor Thread
  prime_number : ℤ
  workerPc : WorkerPc
  i : ℤ
  finded : ℤ
  mainPc : MainPc
  readed : ℤ
  printed : List ℤ
  deriving DecidableEq

def initial (A : ℤ) : State where
  monitor := Monitor.init
  prime_number := -1
  workerPc := .lock
  i := A
  finded := 0
  mainPc := .lock
  readed := 0
  printed := []

/-- `signal` carries the threads that `pthread_cond_signal` wakes. -/
inductive Label where
  | act (t : Thread)
  | signal (t : Thread) (woken : Finset Thread)
  | spurious (t : Thread)

/-- A step of `find_primes` other than a signal. -/
def workerAct (B N : ℤ) (s : State) : Option State :=
  match s.workerPc with
  | .lock => (s.monitor.lock .worker).map fun m => { s with monitor := m, workerPc := .loop }
  | .loop =>
    if s.i ≤ B then
      if prime s.i then some { s with prime_number := s.i, workerPc := .unlock }
      else some { s with i := i64 (s.i + 1) }
    else some { s with workerPc := .finish }
  | .unlock => (s.monitor.unlock .worker).map fun m => { s with monitor := m, workerPc := .signal }
  | .relock => (s.monitor.lock .worker).map fun m => { s with monitor := m, workerPc := .check }
  | .check =>
    if s.prime_number ≠ -1 then
      (s.monitor.wait .worker).map fun m => { s with monitor := m, workerPc := .waiting }
    else if s.finded + 1 = N then
      some { s with finded := s.finded + 1, workerPc := .finish }
    else some { s with finded := s.finded + 1, i := i64 (s.i + 1), workerPc := .loop }
  | .waiting => (s.monitor.lock .worker).map fun m => { s with monitor := m, workerPc := .check }
  | .finish => some { s with prime_number := -2, workerPc := .unlockEnd }
  | .unlockEnd =>
    (s.monitor.unlock .worker).map fun m => { s with monitor := m, workerPc := .signalEnd }
  | .signal => none
  | .signalEnd => none
  | .done => none

/-- A step of `main` other than a signal. -/
def mainAct (N : ℤ) (s : State) : Option State :=
  match s.mainPc with
  | .lock => (s.monitor.lock .main).map fun m => { s with monitor := m, mainPc := .loop }
  | .loop => some { s with mainPc := if s.readed < N then .unlock else .unlockEnd }
  | .unlock => (s.monitor.unlock .main).map fun m => { s with monitor := m, mainPc := .signal }
  | .relock => (s.monitor.lock .main).map fun m => { s with monitor := m, mainPc := .check }
  | .check =>
    if s.prime_number = -1 then
      (s.monitor.wait .main).map fun m => { s with monitor := m, mainPc := .waiting }
    else some { s with mainPc := .take }
  | .waiting => (s.monitor.lock .main).map fun m => { s with monitor := m, mainPc := .check }
  | .take =>
    if s.prime_number = -2 then some { s with mainPc := .unlockEnd }
    else some { s with
      printed := s.printed ++ [s.prime_number]
      readed := s.readed + 1
      prime_number := -1
      mainPc := .loop }
  | .unlockEnd =>
    (s.monitor.unlock .main).map fun m => { s with monitor := m, mainPc := .signalEnd }
  | .join => if s.workerPc = .done then some { s with mainPc := .done } else none
  | .signal => none
  | .signalEnd => none
  | .done => none

/-- The control point after a signal of the thread, if it stands before one. -/
def afterSignal (s : State) : Thread → Option State
  | .worker =>
    match s.workerPc with
    | .signal => some { s with workerPc := .relock }
    | .signalEnd => some { s with workerPc := .done }
    | _ => none
  | .main =>
    match s.mainPc with
    | .signal => some { s with mainPc := .relock }
    | .signalEnd => some { s with mainPc := .join }
    | _ => none

def next (B N : ℤ) (s : State) : Label → Option State
  | .act .worker => workerAct B N s
  | .act .main => mainAct N s
  | .signal t woken =>
    (s.monitor.signal woken).bind fun m => afterSignal { s with monitor := m } t
  | .spurious t => (s.monitor.wake t).map fun m => { s with monitor := m }

def Finished (s : State) : Prop := s.workerPc = .done ∧ s.mainPc = .done

/-- No thread can take a step other than by waking spuriously, though some has work left. -/
def Deadlocked (B N : ℤ) (s : State) : Prop :=
  ¬ Finished s ∧ (∀ t, next B N s (.act t) = none) ∧ ∀ t woken, next B N s (.signal t woken) = none

end Acos.PrimeSentinel
