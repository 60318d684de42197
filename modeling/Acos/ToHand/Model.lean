import Acos.Lib.CString
import Acos.Lib.Transition
import Mathlib.Logic.Function.Basic

/-! The smokers of `inf20-2-posix_shm_sem_smokers/file.c`: `to_hand` in the parent, `to_smoke` in
each of three children, whose handler of `SIGTERM` ends them. `fork` succeeds. -/
namespace Acos.ToHand
open Acos.CString

def n_smokers : ℕ := 3

/-- Where `to_smoke` stands: before the named action. -/
inductive SmokerPc where
  | absent
  | sigaction
  | wait
  | printf
  | fflush
  | post
  | dead
  deriving DecidableEq

/-- A smoker with its two semaphores, its buffer of `stdout` and whether a `SIGTERM` is pending. -/
structure Smoker where
  pc : SmokerPc
  pending : Bool
  buffer : Bytes
  resources : ℕ
  smoked : ℕ
  deriving DecidableEq

/-- Where `to_hand` stands: before the named action, in the round `i` of a loop. -/
inductive ParentPc where
  | fork (i : ℕ)
  | scanf
  | post (id : ℕ)
  | wait (id : ℕ)
  | kill (i : ℕ)
  | waitpid (i : ℕ)
  | returned
  deriving DecidableEq

structure State where
  parent : ParentPc
  smokers : ℕ → Smoker
  input : Bytes
  printed : Bytes

def initial (input : Bytes) : State :=
  ⟨.fork 0, fun _ => ⟨.absent, false, [], 0, 0⟩, input, []⟩

/-- The smoker that a character of the input is for. -/
def idOf (to_hand : UInt8) : ℕ :=
  let id := 2
  let id := if to_hand = 112 then 1 else id
  if to_hand = 116 then 0 else id

/-- `P`, `T` or `M` -/
def was_given (smoker_id : ℕ) : UInt8 :=
  if smoker_id = 1 then 80 else if smoker_id = 0 then 84 else 77

def line (smoker_id : ℕ) : Bytes := [was_given smoker_id, 10]

def State.set (s : State) (i : ℕ) (smoker : Smoker) : State :=
  { s with smokers := Function.update s.smokers i smoker }

/-- A step of `to_hand`; the forks of `main` are before it. -/
def parentStep (s : State) : Option State :=
  match s.parent with
  | .fork i =>
    if i < n_smokers then
      some { s.set i ⟨.sigaction, false, [], 0, 0⟩ with parent := .fork (i + 1) }
    else some { s with parent := .scanf }
  | .scanf =>
    match s.input with
    | [] => some { s with parent := .kill 0 }
    | to_hand :: input => some { s with input := input, parent := .post (idOf to_hand) }
  | .post id =>
    some { s.set id { s.smokers id with resources := (s.smokers id).resources + 1 } with
      parent := .wait id }
  | .wait id =>
    if 0 < (s.smokers id).smoked then
      some { s.set id { s.smokers id with smoked := (s.smokers id).smoked - 1 } with
        parent := .scanf }
    else none
  | .kill i =>
    if i < n_smokers then
      some { s.set i { s.smokers i with pending := true } with parent := .waitpid i }
    else some { s with parent := .returned }
  | .waitpid i => if (s.smokers i).pc = .dead then some { s with parent := .kill (i + 1) } else none
  | .returned => none

/-- A step of `to_smoke` and what it writes. On a terminal the end of the line flushes `stdout`. -/
def Smoker.step (terminal : Bool) (smoker_id : ℕ) (me : Smoker) : Option (Smoker × Bytes) :=
  match me.pc with
  | .sigaction => some ({ me with pc := .wait }, [])
  | .wait =>
    if 0 < me.resources then some ({ me with resources := me.resources - 1, pc := .printf }, [])
    else none
  | .printf =>
    if terminal then some ({ me with buffer := [], pc := .fflush }, me.buffer ++ line smoker_id)
    else some ({ me with buffer := me.buffer ++ line smoker_id, pc := .fflush }, [])
  | .fflush => some ({ me with buffer := [], pc := .post }, me.buffer)
  | .post => some ({ me with smoked := me.smoked + 1, pc := .wait }, [])
  | .absent | .dead => none

/-- `SIGTERM` ends the process before there is a handler, and `_exit` does so in the handler. -/
def Smoker.deliver (me : Smoker) : Option Smoker :=
  if me.pending ∧ me.pc ≠ .absent ∧ me.pc ≠ .dead then
    some { me with pc := .dead, pending := false }
  else none

inductive Label where
  | parent
  | smoker (i : ℕ)
  | deliver (i : ℕ)
  deriving DecidableEq

def next (terminal : Bool) (s : State) : Label → Option State
  | .parent => parentStep s
  | .smoker i =>
    ((s.smokers i).step terminal i).map fun (smoker, out) =>
      { s.set i smoker with printed := s.printed ++ out }
  | .deliver i => (s.smokers i).deliver.map (s.set i)

end Acos.ToHand
