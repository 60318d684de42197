import Acos.Lib.MachineInt
import Acos.Lib.Transition
import Mathlib.Logic.Function.Basic

/-! The two threads of `inf18-2_posix_threads_ping-pong-threads-socketpair/main.c`. Every message is
one `int`, written and read by one call, so an end of the socket pair is a queue of numbers. A label
is the thread that moves. -/
namespace Acos.PingPong
open Acos.MachineInt

inductive Thread where
  | first
  | second
  deriving DecidableEq, Repr

def Thread.other : Thread → Thread
  | .first => .second
  | .second => .first

/-- Where a thread stands: before `read`, behind it, behind `printf`, or at its end. -/
inductive Pc where
  | reading
  | received (value : ℤ)
  | printed (value : ℤ)
  | finished
  deriving DecidableEq, Repr

/-- `inbox` is what a thread can still read. -/
structure State where
  pc : Thread → Pc
  inbox : Thread → List ℤ
  output : List ℤ

/-- `main` has written its argument for the first thread. -/
def initial (x : ℤ) : State where
  pc _ := .reading
  inbox := Function.update (fun _ => []) .first [i32 x]
  output := []

/-- `value == 0 || value > 100`. -/
def Stop (value : ℤ) : Prop := value = 0 ∨ 100 < value

instance (value : ℤ) : Decidable (Stop value) := inferInstanceAs (Decidable (_ ∨ _))

/-- One step of a thread that adds `delta` to every number. -/
def threadFunc (delta : ℤ) (t : Thread) (s : State) : Option State :=
  match s.pc t with
  | .reading =>
    match s.inbox t with
    | [] => none
    | value :: rest =>
      some { s with
        pc := Function.update s.pc t (.received value)
        inbox := Function.update s.inbox t rest }
  | .received value =>
    if value = 200 then some { s with pc := Function.update s.pc t .finished }
    else
      let value := i32 (value + delta)
      some { s with
        pc := Function.update s.pc t (.printed value)
        output := s.output ++ [value] }
  | .printed value =>
    if Stop value then
      some { s with
        pc := Function.update s.pc t .finished
        inbox := Function.update s.inbox t.other (s.inbox t.other ++ [200]) }
    else
      some { s with
        pc := Function.update s.pc t .reading
        inbox := Function.update s.inbox t.other (s.inbox t.other ++ [value]) }
  | .finished => none

def firstThreadFunc (s : State) : Option State := threadFunc (-3) .first s

def secondThreadFunc (s : State) : Option State := threadFunc 5 .second s

def next (s : State) : Thread → Option State
  | .first => firstThreadFunc s
  | .second => secondThreadFunc s

def Finished (s : State) : Prop := ∀ t, s.pc t = .finished

/-- A thread is not at its end, and none can move. -/
def Deadlocked (s : State) : Prop := ¬ Finished s ∧ ∀ t, next s t = none

end Acos.PingPong
