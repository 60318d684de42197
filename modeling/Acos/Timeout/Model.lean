import Acos.Lib.WaitStatus

/-! `inf14-2_posix_signals_timeout/main.c`: a parent that runs a program for at most so many
seconds, with the signals and the child's states that decide what it prints. -/
namespace Acos.Timeout
open Acos.WaitStatus

def SIGTERM : Signal := ⟨15, by decide, by decide⟩

/-- The child as the kernel sees it. It ends with a code of its program, with the `1` of a failed
`execvp`, or by a signal. -/
inductive Child where
  | absent
  | running
  | stopped
  | zombie (ending : Ending)
  | reaped

def Child.alive : Child → Bool
  | .running | .stopped => true
  | _ => false

/-- Where `main` stands in the parent: before the named action, or inside `sleep`. -/
inductive ParentPc where
  | fork
  | set_signals_handler
  | sleep
  | sleeping
  | prohibit_all_signals
  | kill
  | wait
  | print
  | exited (code : ℕ)
  deriving DecidableEq, Repr

/-- Where `handle_signal` stands when it has interrupted `main`. -/
inductive HandlerPc where
  | wait
  | check (status : ℕ)
  deriving DecidableEq, Repr

/-- The lines that go to the standard output. -/
inductive Line where
  | ok
  | signaled
  | timeout
  deriving DecidableEq, Repr

/-- `handler`, `mask` and `pending` are about `SIGCHLD`. `sigterm` is the signal on its way to the
child, and `early` remembers how the child ended if it did before the sleep expired. -/
structure State where
  parent : ParentPc
  frame : Option HandlerPc
  handler : Bool
  mask : Bool
  pending : Bool
  child : Child
  sigterm : Bool
  expired : Bool
  early : Option Ending
  printed : Option Line

/-- The start of `main`; with too few arguments it is also the end. -/
def initial (argc : ℕ) : State where
  parent := if argc < 3 then .exited 1 else .fork
  frame := none
  handler := false
  mask := false
  pending := false
  child := .absent
  sigterm := false
  expired := false
  early := none
  printed := none

/-- `SIGCHLD` waits to be delivered, and the handler is not running already. -/
def State.deliverable (s : State) : Bool :=
  s.pending && s.handler && !s.mask && s.frame.isNone

/-- `SIGCHLD` is sent to the parent; without a handler it is discarded. -/
def State.notify (s : State) : State := { s with pending := s.pending || s.handler }

/-- The process prints and ends, and what is pending for it is dropped. -/
def State.exit (s : State) (line : Line) (code : ℕ) : State :=
  { s with printed := some line, frame := none, pending := false, parent := .exited code }

/-- `wait`, which fails and stores no status where there is no child. -/
def State.wait (s : State) : Option (Option Ending × State) :=
  match s.child with
  | .zombie ending => some (some ending, { s with child := .reaped })
  | .absent | .reaped => some (none, s)
  | .running | .stopped => none

/-- A step of `handle_signal`. Where it returns, an interrupted `sleep` returns too. -/
def handlerStep (s : State) : HandlerPc → Option State
  | .wait => s.wait.map fun (ending, t) =>
    { t with frame := some (.check ((ending.map Ending.status).getD 0)) }
  | .check status =>
    if WIFEXITED status then some (s.exit .ok 0)
    else if WIFSIGNALED status then some (s.exit .signaled 1)
    else some { s with
      frame := none
      parent := if s.parent = .sleeping then .prohibit_all_signals else s.parent }

/-- A step of `main`. A sleep with a signal to deliver does not return before the handler ran. -/
def mainStep (s : State) : Option State :=
  match s.parent with
  | .fork => some { s with parent := .set_signals_handler, child := .running }
  | .set_signals_handler => some { s with parent := .sleep, handler := true }
  | .sleep => some { s with parent := .sleeping }
  | .sleeping =>
    if s.deliverable || !s.expired then none else some { s with parent := .prohibit_all_signals }
  | .prohibit_all_signals => some { s with parent := .kill, mask := true }
  | .kill => some { s with parent := .wait, sigterm := true }
  | .wait => s.wait.map fun (_, t) => { t with parent := .print }
  | .print => some (s.exit .timeout 2)
  | .exited _ => none

/-- The child ends by itself, which is early as long as the sleep has not expired. -/
def State.childEnd (s : State) (ending : Ending) : State :=
  { s with child := .zombie ending, early := if s.expired then s.early else some ending }

/-- A step of the parent, what becomes of its `fork`, its signal and its sleep, and what
happens to the child. -/
inductive Label where
  | parent
  | forkFails
  | deliver
  | expire
  | childEnd (ending : Ending)
  | childTerm
  | childStop
  | childCont

def next (s : State) : Label → Option State
  | .parent =>
    match s.frame with
    | some pc => handlerStep s pc
    | none => mainStep s
  | .forkFails => if s.parent = .fork then some { s with parent := .exited 1 } else none
  | .deliver =>
    if s.deliverable then some { s with pending := false, frame := some .wait } else none
  | .expire =>
    if s.parent = .sleeping && !s.expired then some { s with expired := true } else none
  | .childEnd ending => if s.child.alive then some (s.childEnd ending).notify else none
  | .childTerm =>
    match s.child with
    | .running =>
      if s.sigterm then some { s with child := .zombie (.killed SIGTERM false) }.notify else none
    | _ => none
  | .childStop =>
    match s.child with
    | .running => some { s with child := .stopped }.notify
    | _ => none
  | .childCont =>
    match s.child with
    | .stopped => some { s with child := .running }.notify
    | _ => none

/-- The line that is to be printed for a child that ended by itself. -/
def lineOf : Ending → Line
  | .exited _ => .ok
  | .killed _ _ => .signaled

/-- The program has ended and printed the line for the child's end. -/
def Answered (ending : Ending) (s : State) : Prop :=
  s.printed = some (lineOf ending) ∧ ∃ code, s.parent = .exited code

/-- The child does not end before the parent has installed its handler. -/
def HandlerFirst (s : State) : Label → Prop
  | .childEnd _ => s.parent ≠ .set_signals_handler
  | _ => True

end Acos.Timeout
