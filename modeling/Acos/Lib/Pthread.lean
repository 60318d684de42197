import Mathlib.Data.Finset.Basic
import Mathlib.Data.Finset.Insert

/-! One mutex with one condition variable, as POSIX threads use them. A thread that
`pthread_cond_wait` has blocked must be woken and then take the mutex again. -/
namespace Acos.Pthread

variable {τ : Type*} [DecidableEq τ]

/-- Who holds the mutex, and which threads are blocked on the condition variable. -/
structure Monitor (τ : Type*) where
  owner : Option τ
  blocked : Finset τ
  deriving DecidableEq

namespace Monitor

def init : Monitor τ := ⟨none, ∅⟩

/-- `pthread_mutex_lock`; a thread woken from `pthread_cond_wait` returns by the same step. -/
def lock (m : Monitor τ) (t : τ) : Option (Monitor τ) :=
  if m.owner = none ∧ t ∉ m.blocked then some { m with owner := some t } else none

/-- `pthread_mutex_unlock` -/
def unlock (m : Monitor τ) (t : τ) : Option (Monitor τ) :=
  if m.owner = some t then some { m with owner := none } else none

/-- The first half of `pthread_cond_wait`: release the mutex and block, in one step. -/
def wait (m : Monitor τ) (t : τ) : Option (Monitor τ) :=
  if m.owner = some t then some ⟨none, insert t m.blocked⟩ else none

/-- `pthread_cond_signal` wakes at least one blocked thread, if there is any. -/
def signal (m : Monitor τ) (woken : Finset τ) : Option (Monitor τ) :=
  if woken ⊆ m.blocked ∧ (m.blocked.Nonempty → woken.Nonempty) then
    some { m with blocked := m.blocked \ woken }
  else none

/-- A spurious wake-up. -/
def wake (m : Monitor τ) (t : τ) : Option (Monitor τ) :=
  if t ∈ m.blocked then some { m with blocked := m.blocked.erase t } else none

variable {m m' : Monitor τ} {t : τ}

theorem lock_eq_some : m.lock t = some m' ↔
    m.owner = none ∧ t ∉ m.blocked ∧ { m with owner := some t } = m' := by
  simp only [lock, Option.ite_none_right_eq_some, Option.some.injEq, and_assoc]

theorem unlock_eq_some : m.unlock t = some m' ↔
    m.owner = some t ∧ { m with owner := none } = m' := by
  simp only [unlock, Option.ite_none_right_eq_some, Option.some.injEq]

theorem wait_eq_some : m.wait t = some m' ↔
    m.owner = some t ∧ ⟨none, insert t m.blocked⟩ = m' := by
  simp only [wait, Option.ite_none_right_eq_some, Option.some.injEq]

theorem signal_eq_some {woken : Finset τ} : m.signal woken = some m' ↔
    woken ⊆ m.blocked ∧ (m.blocked.Nonempty → woken.Nonempty) ∧
      { m with blocked := m.blocked \ woken } = m' := by
  simp only [signal, Option.ite_none_right_eq_some, Option.some.injEq, and_assoc]

theorem wake_eq_some : m.wake t = some m' ↔
    t ∈ m.blocked ∧ { m with blocked := m.blocked.erase t } = m' := by
  simp only [wake, Option.ite_none_right_eq_some, Option.some.injEq]

/-- Of two threads a signal wakes the one that is blocked, if the other is not. -/
theorem signal_of_two {x : τ} {woken : Finset τ} (htwo : ∀ u v : τ, u ≠ x → v ≠ x → u = v)
    (h : m.signal woken = some m') (hx : x ∉ m.blocked) :
    m'.owner = m.owner ∧ m'.blocked = ∅ := by
  obtain ⟨hsub, hne, rfl⟩ := signal_eq_some.mp h
  refine ⟨rfl, Finset.sdiff_eq_empty_iff_subset.mpr fun u hu => ?_⟩
  obtain ⟨v, hv⟩ := hne ⟨u, hu⟩
  have heq : u = v := htwo u v (fun hux => hx (hux ▸ hu)) (fun hvx => hx (hvx ▸ hsub hv))
  rw [heq]
  exact hv

/-- Waking everybody is always allowed. -/
theorem signal_all (m : Monitor τ) : (m.signal m.blocked).isSome := by
  simp [signal]

end Monitor
end Acos.Pthread
