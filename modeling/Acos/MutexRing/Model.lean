import Acos.Lib.ForkJoin

/-! The threads of `inf19-0_posix_threads_mutex/main.c`, which add to the cells of a ring under one
mutex. What `double` adds to what is a parameter. -/
namespace Acos.MutexRing
open Acos.ForkJoin

/-- The operations of `double` that `routine` uses. -/
structure Double (α : Type*) where
  zero : α
  add : α → α → α
  /-- `.99`, `1` and `1.01` -/
  constant : ℕ → α

variable {α : Type*}

structure Shared (α : Type*) where
  array : ℕ → α
  mutex : Option ℕ

/-- Where a thread stands in `routine`; the addition `k` reads its cell and then writes it. -/
inductive Pc (α : Type*) where
  | test
  | lock
  | load (k : ℕ)
  | store (k : ℕ) (value : α)
  | unlock
  | finished

structure Worker (α : Type*) where
  pc : Pc α
  i : ℕ

/-- The cell of the addition `k`. -/
def cell (length idx k : ℕ) : ℕ :=
  if k = 0 then (idx + length - 1) % length
  else if k = 1 then idx
  else (idx + length + 1) % length

/-- One step of `routine`. -/
def step (D : Double α) (N length idx : ℕ) (s : Shared α) (me : Worker α) :
    Option (Shared α × Worker α) :=
  match me.pc with
  | .test => some (s, { me with pc := if me.i < N then .lock else .finished })
  | .lock =>
    if s.mutex = none then some ({ s with mutex := some idx }, { me with pc := .load 0 }) else none
  | .load k => some (s, { me with pc := .store k (s.array (cell length idx k)) })
  | .store k value =>
    some
      ({ s with
          array := Function.update s.array (cell length idx k) (D.add value (D.constant k)) },
        { me with pc := if k < 2 then .load (k + 1) else .unlock })
  | .unlock => some ({ s with mutex := none }, ⟨.test, me.i + 1⟩)
  | .finished => none

def Pc.isFinished : Pc α → Bool
  | .finished => true
  | _ => false

/-- `main` up to the last `pthread_join`. -/
def program (D : Double α) (N K : ℕ) : Program (Shared α) (Worker α) Unit where
  count := K
  start _ := ⟨.test, 0⟩
  step idx s me _ := step D N K idx s me
  done me := me.pc.isFinished

def shared (D : Double α) : Shared α := ⟨fun _ => D.zero, none⟩

end Acos.MutexRing
