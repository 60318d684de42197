import Acos.Lib.Transition
import Mathlib.Algebra.Group.Nat.Defs
import Mathlib.Logic.Function.Basic

/-! The list of `inf19-2_posix_threads_atomic`: `n` workers push to one linked list
with an atomic exchange of the tail. A label names the worker that moves, so runs are
the interleavings of the atomic steps of `list_push`. -/
namespace Acos.AtomicList

abbrev Addr := ℕ

/-- `item_t`; the values the workers push are never negative. -/
structure Item where
  value : ℕ
  next : Option Addr
  deriving DecidableEq, Repr

/-- `list_t`. -/
structure ListT where
  head : Option Addr
  tail : Option Addr
  size : ℕ
  deriving DecidableEq, Repr

/-- Where a worker stands in `worker` and in the call of `list_push` it is making. -/
inductive Pc where
  | test
  | exchange (item : Addr)
  | link (item : Addr) (tail : Option Addr)
  | count
  | finished
  deriving DecidableEq, Repr

structure Worker where
  pc : Pc
  i : ℕ
  deriving DecidableEq, Repr

structure State (n : ℕ) where
  items : Addr → Option Item
  list : ListT
  workers : Fin n → Worker

/-- Arithmetic of `uint64_t`. -/
def u64 (x : ℕ) : ℕ := x % 2 ^ 64

/-- `index * k`, where the loop of `worker` starts. -/
def loopStart (k index : ℕ) : ℕ := u64 (index * k)

/-- `(index + 1) * k`, where it ends. -/
def loopEnd (k index : ℕ) : ℕ := u64 (u64 (index + 1) * k)

/-- `list_init`, and the workers as `pthread_create` starts them. -/
def initial (n k : ℕ) : State n where
  items _ := none
  list := { head := none, tail := none, size := 0 }
  workers w := { pc := .test, i := loopStart k w }

/-- The address in `alloc` is the one `malloc` returns, the value in `exchange` is the
one stored in the item that becomes the tail. -/
inductive Label (n : ℕ) where
  | alloc (w : Fin n) (item : Addr)
  | exchange (w : Fin n) (value : ℕ)
  | link (w : Fin n)
  | count (w : Fin n)
  | leave (w : Fin n)
  deriving DecidableEq, Repr

variable {n : ℕ}

def State.setWorker (s : State n) (w : Fin n) (t : Worker) : State n :=
  { s with workers := Function.update s.workers w t }

/-- `tail->next = item`. -/
def setNext (items : Addr → Option Item) (tail item : Addr) : Addr → Option Item :=
  Function.update items tail ((items tail).map fun it => { it with next := some item })

/-- One atomic step of a worker. -/
def next (k : ℕ) (s : State n) : Label n → Option (State n)
  | .alloc w item =>
    let t := s.workers w
    if t.pc = .test ∧ t.i < loopEnd k w ∧ s.items item = none then
      some ({ s with items := Function.update s.items item (some ⟨t.i, none⟩) }.setWorker w
        { t with pc := .exchange item })
    else none
  | .exchange w value =>
    let t := s.workers w
    match t.pc with
    | .exchange item =>
      if value = t.i then
        some ({ s with list.tail := some item }.setWorker w
          { t with pc := .link item s.list.tail })
      else none
    | _ => none
  | .link w =>
    let t := s.workers w
    match t.pc with
    | .link item none =>
      some ({ s with list.head := some item }.setWorker w { t with pc := .count })
    | .link item (some tail) =>
      some ({ s with items := setNext s.items tail item }.setWorker w { t with pc := .count })
    | _ => none
  | .count w =>
    let t := s.workers w
    if t.pc = .count then
      some ({ s with list.size := u64 (s.list.size + 1) }.setWorker w ⟨.test, t.i + 1⟩)
    else none
  | .leave w =>
    let t := s.workers w
    if t.pc = .test ∧ ¬ t.i < loopEnd k w then some (s.setWorker w { t with pc := .finished })
    else none

/-- The values of the exchanges of a run, in the order in which they happened. -/
def exchanged : List (Label n) → List ℕ
  | [] => []
  | .exchange _ v :: ls => v :: exchanged ls
  | _ :: ls => exchanged ls

/-- The values that worker `w` exchanged, in the order in which it did. -/
def exchangedBy (w : Fin n) : List (Label n) → List ℕ
  | [] => []
  | .exchange w' v :: ls => if w' = w then v :: exchangedBy w ls else exchangedBy w ls
  | _ :: ls => exchangedBy w ls

/-- Following `next` from `p` visits exactly these items and then ends. -/
def Visits (items : Addr → Option Item) : Option Addr → List Addr → Prop
  | p, [] => p = none
  | p, a :: as => p = some a ∧ ∃ it, items a = some it ∧ Visits items it.next as

def valueAt (items : Addr → Option Item) (a : Addr) : Option ℕ := (items a).map Item.value

end Acos.AtomicList
