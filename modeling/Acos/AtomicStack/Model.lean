import Acos.Lib.ForkJoin
import Acos.Lib.MachineInt

/-! The list of `inf19-2_posix_threads_atomic/file.c`: the threads put their items in front of it
with an atomic exchange of its head. What `malloc` returns is not set. -/
namespace Acos.AtomicStack
open Acos.ForkJoin Acos.MachineInt

abbrev Addr := ℕ

/-- `item_t`; a field without a value is not set yet. -/
structure Item where
  value : Option ℤ
  next : Option (Option Addr)
  deriving DecidableEq

structure Shared where
  items : Addr → Option Item
  head : Option Addr

/-- Where a thread stands in `fill_list` and in the call of `add_item` that it is making. -/
inductive Pc where
  | test
  | exchange (new_item : Addr)
  | link (new_item : Addr) (old : Option Addr)
  | store (new_item : Addr)
  | finished
  deriving DecidableEq

structure Worker where
  pc : Pc
  i : ℤ
  deriving DecidableEq

/-- `args[i].start_val` -/
def start_val (k i : ℕ) : ℤ := i32 (i * k)

/-- `args[i].end_val` -/
def end_val (k i : ℕ) : ℤ := i32 ((i + 1) * k)

/-- The address that `malloc` returns, or a step that has only one outcome. -/
inductive Action where
  | malloc (new_item : Addr)
  | go
  deriving DecidableEq

/-- One atomic step of the thread `w`. -/
def step (k w : ℕ) (s : Shared) (me : Worker) : Action → Option (Shared × Worker)
  | .malloc new_item =>
    if me.pc = .test ∧ me.i < end_val k w ∧ s.items new_item = none then
      some ({ s with items := Function.update s.items new_item (some ⟨none, none⟩) },
        { me with pc := .exchange new_item })
    else none
  | .go =>
    match me.pc with
    | .test => if me.i < end_val k w then none else some (s, { me with pc := .finished })
    | .exchange new_item =>
      some ({ s with head := some new_item }, { me with pc := .link new_item s.head })
    | .link new_item old =>
      (s.items new_item).map fun item =>
        ({ s with items := Function.update s.items new_item (some { item with next := some old }) },
          { me with pc := .store new_item })
    | .store new_item =>
      (s.items new_item).map fun item =>
        ({ s with items := Function.update s.items new_item (some { item with value := some me.i }) },
          ⟨.test, me.i + 1⟩)
    | .finished => none

/-- `main` up to the last `pthread_join`. -/
def program (N k : ℕ) : Program Shared Worker Action where
  count := N
  start w := ⟨.test, start_val k w⟩
  step := step k
  done me := me.pc = .finished

def empty : Shared := ⟨fun _ => none, none⟩

/-- The numbers that `print_list` prints in this many calls; it has no result where it reads through
`NULL` or a field that is not set. -/
def print_list (items : Addr → Option Item) : ℕ → Option Addr → Option (List ℤ)
  | 0, _ => none
  | _ + 1, none => none
  | calls + 1, some cur =>
    match items cur with
    | some ⟨some value, some none⟩ => some [value]
    | some ⟨some value, some (some next)⟩ =>
      (print_list items calls (some next)).map (value :: ·)
    | _ => none

end Acos.AtomicStack
