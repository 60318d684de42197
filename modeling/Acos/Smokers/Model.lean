import Acos.Lib.CString
import Mathlib.Logic.Function.Basic

/-! The smokers of `inf20-2-posix_shm_sem_smokers/main.c`: a parent that hands out ingredients
through semaphores, a process for each ingredient, and `SIGTERM` at the end. -/
namespace Acos.Smokers
open Acos.CString

def n_smokers : ℕ := 3

/-- Where `run_smoker` stands in the child: before the named action, or `blocked` in `sem_wait`. -/
inductive SmokerPc where
  | absent
  | sigaction
  | test
  | wait
  | blocked
  | check
  | print
  | post
  | exit
  | dead
  deriving DecidableEq, Repr

/-- A smoker with its two semaphores, its `kick_out` and whether a `SIGTERM` is pending. -/
structure Smoker where
  pc : SmokerPc
  kick_out : Bool
  pending : Bool
  sem : ℕ
  done : ℕ
  deriving DecidableEq, Repr

def Smoker.absent : Smoker := ⟨.absent, false, false, 0, 0⟩

/-- A step of `run_smoker`, and whether it prints its line. -/
def Smoker.step (me : Smoker) : Option (Smoker × Bool) :=
  match me.pc with
  | .absent => none
  | .sigaction => some ({ me with pc := .test }, false)
  | .test => some ({ me with pc := if me.kick_out then .exit else .wait }, false)
  | .wait =>
    if 0 < me.sem then some ({ me with sem := me.sem - 1, pc := .check }, false)
    else some ({ me with pc := .blocked }, false)
  | .blocked =>
    if 0 < me.sem then some ({ me with sem := me.sem - 1, pc := .check }, false) else none
  | .check => some ({ me with pc := if me.kick_out then .exit else .print }, false)
  | .print => some ({ me with pc := .post }, true)
  | .post => some ({ me with done := me.done + 1, pc := .test }, false)
  | .exit => some ({ me with pc := .dead }, false)
  | .dead => none

/-- `SIGTERM` is delivered: it kills the process as long as there is no handler, and a blocked
`sem_wait` returns after the handler. -/
def Smoker.deliver (me : Smoker) : Option Smoker :=
  if me.pending then
    match me.pc with
    | .absent | .dead => none
    | .sigaction => some { me with pending := false, pc := .dead }
    | .blocked => some { me with pending := false, kick_out := true, pc := .check }
    | _ => some { me with pending := false, kick_out := true }
  else none

/-- Where `main` stands: before the named action, in the round `i` of a loop. -/
inductive ParentPc where
  | fork (i : ℕ)
  | read
  | post (i : ℕ)
  | waitDone (i : ℕ)
  | kill (i : ℕ)
  | waitpid (i : ℕ)
  | returned
  deriving DecidableEq, Repr

/-- The smokers are numbered from `0` on; those that are not forked are `absent`. -/
structure State where
  parent : ParentPc
  smokers : ℕ → Smoker
  input : Bytes
  printed : Bytes

def initial (input : Bytes) : State := ⟨.fork 0, fun _ => .absent, input, []⟩

/-- The string `types` with its terminator. -/
def types : ℕ → UInt8
  | 0 => 84
  | 1 => 80
  | 2 => 77
  | _ => 0

/-- The smoker that `action` is for: `t`, `p` or `m`. -/
def smokerOf (action : UInt8) : Option ℕ :=
  if action = 116 then some 0 else if action = 112 then some 1 else if action = 109 then some 2
  else none

def State.set (s : State) (i : ℕ) (smoker : Smoker) : State :=
  { s with smokers := Function.update s.smokers i smoker }

/-- A step of `main`. -/
def parentStep (s : State) : Option State :=
  match s.parent with
  | .fork i =>
    if i < n_smokers then
      some { s.set i ⟨.sigaction, false, false, 0, 0⟩ with parent := .fork (i + 1) }
    else some { s with parent := .read }
  | .read =>
    match s.input with
    | [] => some { s with parent := .kill 0 }
    | action :: input =>
      match smokerOf action with
      | some i => some { s with input := input, parent := .post i }
      | none => some { s with input := input }
  | .post i =>
    some { s.set i { s.smokers i with sem := (s.smokers i).sem + 1 } with parent := .waitDone i }
  | .waitDone i =>
    if 0 < (s.smokers i).done then
      some { s.set i { s.smokers i with done := (s.smokers i).done - 1 } with parent := .read }
    else none
  | .kill i =>
    if i < n_smokers then
      some { s.set i { s.smokers i with pending := true } with parent := .kill (i + 1) }
    else some { s with parent := .waitpid 0 }
  | .waitpid i =>
    if i < n_smokers then
      if (s.smokers i).pc = .dead then some { s with parent := .waitpid (i + 1) } else none
    else some { s with parent := .returned }
  | .returned => none

inductive Label where
  | parent
  | smoker (i : ℕ)
  | deliver (i : ℕ)
  deriving DecidableEq, Repr

def next (s : State) : Label → Option State
  | .parent => parentStep s
  | .smoker i =>
    (s.smokers i).step.map fun (smoker, prints) =>
      { s.set i smoker with printed := if prints then s.printed ++ [types i] else s.printed }
  | .deliver i => (s.smokers i).deliver.map (s.set i)

/-- The lines that are to be printed: `t`, `p` and `m` in upper case. -/
def lines (input : Bytes) : Bytes :=
  (input.filter fun c => c = 116 || c = 112 || c = 109).map (· - 32)

/-- `main` has not yet begun to send signals. -/
def ParentPc.BeforeShutdown : ParentPc → Prop
  | .fork _ | .read | .post _ | .waitDone _ => True
  | _ => False

/-- Between its `sem_wait` and its `sem_post`. -/
def SmokerPc.inside : SmokerPc → Bool
  | .check | .print | .post => true
  | _ => false

/-- `main` waits for a smoker that has handled its `SIGTERM` and is blocked on its semaphore. -/
def ShutdownDeadlock (s : State) : Prop :=
  ∃ i < n_smokers, s.parent = .waitpid i ∧ (s.smokers i).kick_out = true ∧
    (s.smokers i).pending = false ∧ (s.smokers i).pc = .blocked ∧ (s.smokers i).sem = 0

end Acos.Smokers
