import Acos.Lib.MachineInt
import Acos.Lib.Transition
import Mathlib.Logic.Function.Basic

/-! `pmap_process` of `inf20-1_posix_shm_sem_map-on-processes/main.c`: one thread for an
element, and one semaphore that bounds the threads at work and tells when all have finished. -/
namespace Acos.ProcessMap
open Acos.MachineInt

/-- The arguments of `pmap_process` and the result of `get_nprocs`. -/
structure Call (α β : Type) where
  func : α → β
  input : List α
  threads_count : ℕ
  /-- An array of `double` fits the address space. -/
  count_lt : input.length < 2 ^ 61
  procs_pos : 1 ≤ threads_count
  procs_lt : threads_count < 2 ^ 31

def Call.count {α β : Type} (p : Call α β) : ℕ := p.input.length

/-- An `arg_t`, with the index of the result for its address. -/
structure Arg (α : Type) where
  value : α
  result_ptr : ℤ

/-- Where a thread is in `thread_safe_func_wrapper`. -/
inductive Pc (β : Type) where
  | entry
  | calling
  | storing (value : β)
  | posting
  | finished

/-- The thread is inside `func`. -/
def Pc.inCall {β : Type} : Pc β → Bool
  | .calling => true
  | _ => false

def Pc.isFinished {β : Type} : Pc β → Bool
  | .finished => true
  | _ => false

structure Thread (α β : Type) where
  arg : Arg α
  pc : Pc β

/-- Where the caller is in `pmap_process`: before the test of the first loop, at `sem_wait`, at
`pthread_create`, and before the tests of the second and the third loop. -/
inductive Main (α : Type) where
  | filling (i : ℤ)
  | waiting (i : ℤ) (arg : Arg α)
  | creating (i : ℤ) (arg : Arg α)
  | draining (i : ℤ)
  | joining (i : ℤ)
  | returned

/-- The semaphore is `none` once it is destroyed, and so is an entry of `out` that has not been
written. -/
structure State (α β : Type) where
  main : Main α
  free_processes : Option ℕ
  threads : List (Thread α β)
  out : ℤ → Option β

variable {α β : Type}

def initial (p : Call α β) : State α β where
  main := .filling 0
  free_processes := some p.threads_count
  threads := []
  out := fun _ => none

def semWait (s : State α β) : Option (State α β) :=
  match s.free_processes with
  | some (n + 1) => some ⟨s.main, some n, s.threads, s.out⟩
  | _ => none

def semPost (s : State α β) : Option (State α β) :=
  match s.free_processes with
  | some n => some ⟨s.main, some (n + 1), s.threads, s.out⟩
  | none => none

def State.goto (s : State α β) (main : Main α) : State α β :=
  ⟨main, s.free_processes, s.threads, s.out⟩

def State.setPc (s : State α β) (k : ℕ) (thread : Thread α β) (pc : Pc β) : State α β :=
  ⟨s.main, s.free_processes, s.threads.set k ⟨thread.arg, pc⟩, s.out⟩

/-- One step of the caller. The index of each loop is an `int`, whose arithmetic wraps around; in a
comparison it is converted to the unsigned type of the bound. -/
def pmapProcess (p : Call α β) (s : State α β) : Option (State α β) :=
  match s.main with
  | .filling i =>
    if u64 i < p.count then
      match p.input[i.toNat]? with
      | some value => some (s.goto (.waiting i ⟨value, i⟩))
      | none => none
    else some (s.goto (.draining 0))
  | .waiting i arg => (semWait s).map fun s => s.goto (.creating i arg)
  | .creating i arg =>
    some ⟨.filling (i32 (i + 1)), s.free_processes, s.threads ++ [⟨arg, .entry⟩], s.out⟩
  | .draining i =>
    if u32 i < p.threads_count then (semWait s).map fun s => s.goto (.draining (i32 (i + 1)))
    else some ⟨.joining 0, none, s.threads, s.out⟩
  | .joining i =>
    if u64 i < p.count then
      match s.threads[i.toNat]? with
      | some thread => if thread.pc.isFinished then some (s.goto (.joining (i32 (i + 1)))) else none
      | none => none
    else some (s.goto .returned)
  | .returned => none

/-- One step of thread `k`. A call of `func` returns at some later step of the thread. -/
def threadSafeFuncWrapper (p : Call α β) (s : State α β) (k : ℕ) : Option (State α β) :=
  match s.threads[k]? with
  | none => none
  | some thread =>
    match thread.pc with
    | .entry => some (s.setPc k thread .calling)
    | .calling => some (s.setPc k thread (.storing (p.func thread.arg.value)))
    | .storing value =>
      some ⟨s.main, s.free_processes, s.threads.set k ⟨thread.arg, .posting⟩,
        Function.update s.out thread.arg.result_ptr (some value)⟩
    | .posting => semPost (s.setPc k thread .finished)
    | .finished => none

inductive Label where
  | main
  | thread (k : ℕ)
  deriving DecidableEq, Repr

def next (p : Call α β) (s : State α β) : Label → Option (State α β)
  | .main => pmapProcess p s
  | .thread k => threadSafeFuncWrapper p s k

/-- The calls of `func` in progress. -/
def State.calls (s : State α β) : ℕ := s.threads.countP fun thread => thread.pc.inCall

/-- `pmap_process` has not returned and no thread can move. -/
def Deadlocked (p : Call α β) (s : State α β) : Prop :=
  s.main ≠ .returned ∧ ∀ l, next p s l = none

/-- What is asked of every state of a run. -/
structure Correct (p : Call α β) (s : State α β) : Prop where
  throttled : s.calls ≤ p.threads_count
  live : ¬ Deadlocked p s
  mapped : s.main = .returned → ∀ (i : ℕ) value, p.input[i]? = some value →
    s.out i = some (p.func value)

end Acos.ProcessMap
