import Acos.AtomicList.Model
import Acos.Lib.FinSum
import Acos.Lib.Lists
import Mathlib.Algebra.BigOperators.Fin
import Mathlib.Data.List.FinRange
import Mathlib.Tactic.Ring

/-! What the workers have exchanged and counted, whatever the list looks like meanwhile. -/
namespace Acos.AtomicList
open Acos.FinSum Acos.Lists

variable {n : ℕ}

@[simp] theorem setWorker_self (s : State n) (w : Fin n) (t : Worker) :
    (s.setWorker w t).workers w = t := by simp [State.setWorker]

theorem setWorker_ne (s : State n) {w v : Fin n} (h : v ≠ w) (t : Worker) :
    (s.setWorker w t).workers v = s.workers v := by simp [State.setWorker, h]

@[simp] theorem setWorker_workers (s : State n) (w : Fin n) (t : Worker) :
    (s.setWorker w t).workers = Function.update s.workers w t := rfl

@[simp] theorem setWorker_items (s : State n) (w : Fin n) (t : Worker) :
    (s.setWorker w t).items = s.items := rfl

@[simp] theorem setWorker_list (s : State n) (w : Fin n) (t : Worker) :
    (s.setWorker w t).list = s.list := rfl

section Steps
variable {k : ℕ} {s t : State n} {w : Fin n}

theorem next_alloc {item : Addr} (h : next k s (.alloc w item) = some t) :
    (s.workers w).pc = .test ∧ (s.workers w).i < loopEnd k w ∧ s.items item = none ∧
      t = { s with
          items := Function.update s.items item (some ⟨(s.workers w).i, none⟩) }.setWorker w
        { s.workers w with pc := .exchange item } := by
  simp only [next, Option.ite_none_right_eq_some, Option.some.injEq] at h
  exact ⟨h.1.1, h.1.2.1, h.1.2.2, h.2.symm⟩

theorem next_exchange {v : ℕ} (h : next k s (.exchange w v) = some t) :
    ∃ item, (s.workers w).pc = .exchange item ∧ v = (s.workers w).i ∧
      t = { s with list.tail := some item }.setWorker w
        { s.workers w with pc := .link item s.list.tail } := by
  simp only [next] at h
  split at h
  next item hpc =>
    simp only [Option.ite_none_right_eq_some, Option.some.injEq] at h
    exact ⟨item, hpc, h.1, h.2.symm⟩
  next => cases h

theorem next_link (h : next k s (.link w) = some t) :
    ∃ item, (s.workers w).pc = .link item none ∧
        t = { s with list.head := some item }.setWorker w { s.workers w with pc := .count } ∨
      ∃ tail, (s.workers w).pc = .link item (some tail) ∧
        t = { s with items := setNext s.items tail item }.setWorker w
          { s.workers w with pc := .count } := by
  simp only [next] at h
  split at h
  next item hpc => exact ⟨item, .inl ⟨hpc, (Option.some.inj h).symm⟩⟩
  next item tail hpc => exact ⟨item, .inr ⟨tail, hpc, (Option.some.inj h).symm⟩⟩
  next => cases h

theorem next_count (h : next k s (.count w) = some t) :
    (s.workers w).pc = .count ∧
      t = { s with list.size := u64 (s.list.size + 1) }.setWorker w
        ⟨.test, (s.workers w).i + 1⟩ := by
  simp only [next, Option.ite_none_right_eq_some, Option.some.injEq] at h
  exact ⟨h.1, h.2.symm⟩

theorem next_leave (h : next k s (.leave w) = some t) :
    (s.workers w).pc = .test ∧ loopEnd k w ≤ (s.workers w).i ∧
      t = s.setWorker w { s.workers w with pc := .finished } := by
  simp only [next, Option.ite_none_right_eq_some, Option.some.injEq] at h
  exact ⟨h.1.1, Nat.le_of_not_lt h.1.2, h.2.symm⟩

end Steps

/-- A worker between its exchange and its increment of `size`. -/
def Pc.uncounted : Pc → ℕ
  | .link _ _ => 1
  | .count => 1
  | _ => 0

def uncounted (workers : Fin n → Worker) : ℕ := ∑ w, (workers w).pc.uncounted

theorem uncounted_update (workers : Fin n → Worker) (w : Fin n) (t : Worker) :
    uncounted (Function.update workers w t) + (workers w).pc.uncounted =
      uncounted workers + t.pc.uncounted := by
  have hchange := sum_change (f := fun v => (workers v).pc.uncounted)
    (g := fun v => (Function.update workers w t v).pc.uncounted) (Finset.mem_univ w)
    fun v hv => by rw [Function.update_of_ne hv]
  rwa [Function.update_self] at hchange

/-- The loop variable of a worker at one of its control points. -/
structure InLoop (lo hi : ℕ) (t : Worker) : Prop where
  lower : lo ≤ t.i
  upper : t.i ≤ hi
  inside : t.pc ≠ .test → t.pc ≠ .finished → t.i < hi
  done : t.pc = .finished → t.i = hi

def Label.worker : Label n → Fin n
  | .alloc w _ => w
  | .exchange w _ => w
  | .link w => w
  | .count w => w
  | .leave w => w

/-- A step moves one worker and leaves the control of the others alone. -/
theorem next_frame {k : ℕ} {s t : State n} {l : Label n} (h : next k s l = some t) {v : Fin n}
    (hv : v ≠ l.worker) : t.workers v = s.workers v := by
  cases l with
  | alloc w item =>
    obtain ⟨_, _, _, rfl⟩ := next_alloc h
    exact setWorker_ne _ hv _
  | exchange w value =>
    obtain ⟨_, _, _, rfl⟩ := next_exchange h
    exact setWorker_ne _ hv _
  | link w =>
    obtain ⟨_, ⟨_, rfl⟩ | ⟨_, _, rfl⟩⟩ := next_link h
    · exact setWorker_ne _ hv _
    · exact setWorker_ne _ hv _
  | count w =>
    obtain ⟨_, rfl⟩ := next_count h
    exact setWorker_ne _ hv _
  | leave w =>
    obtain ⟨_, _, rfl⟩ := next_leave h
    exact setWorker_ne _ hv _

theorem exchanged_append (ls ms : List (Label n)) :
    exchanged (ls ++ ms) = exchanged ls ++ exchanged ms := by
  induction ls with
  | nil => rfl
  | cons l ls ih => cases l <;> simp [exchanged, ih]

theorem exchangedBy_append (w : Fin n) (ls ms : List (Label n)) :
    exchangedBy w (ls ++ ms) = exchangedBy w ls ++ exchangedBy w ms := by
  induction ls with
  | nil => rfl
  | cons l ls ih =>
    cases l <;> simp only [List.cons_append, exchangedBy, ih]
    split <;> simp

theorem exchangedBy_snoc_ne {past : List (Label n)} {l : Label n} {v : Fin n}
    (hv : v ≠ l.worker) : exchangedBy v (past ++ [l]) = exchangedBy v past := by
  cases l <;> simp_all [exchangedBy_append, exchangedBy, Label.worker, eq_comm]

/-- What worker `w` has done so far: it has exchanged an initial part of its block of
values, in increasing order, and its control is inside its loop. -/
structure Progress (k : ℕ) (past : List (Label n)) (s : State n) (w : Fin n) : Prop where
  inLoop : InLoop (loopStart k w) (loopEnd k w) (s.workers w)
  block : exchangedBy w past = List.range' (loopStart k w)
    ((s.workers w).i - loopStart k w + (s.workers w).pc.uncounted)

/-- `size` lags behind the exchanges by the workers that have not incremented it yet. -/
structure Counted (k : ℕ) (past : List (Label n)) (s : State n) : Prop where
  progress : ∀ w, Progress k past s w
  size : u64 (s.list.size + uncounted s.workers) = u64 (exchanged past).length
  size_lt : s.list.size < 2 ^ 64

theorem initial_counted {k : ℕ} (hle : ∀ w : Fin n, loopStart k w ≤ loopEnd k w) :
    Counted k [] (initial n k) := by
  refine ⟨fun w => ⟨?_, ?_⟩, ?_, Nat.two_pow_pos 64⟩
  · constructor <;> simp [initial, hle w]
  · simp [exchangedBy, initial, Pc.uncounted]
  · simp [uncounted, initial, Pc.uncounted, exchanged]

theorem progress_step {k : ℕ} {past : List (Label n)} {s t : State n} {l : Label n}
    (hp : ∀ w, Progress k past s w) (h : next k s l = some t) (v : Fin n) :
    Progress k (past ++ [l]) t v := by
  by_cases hv : v = l.worker
  · subst hv
    obtain ⟨⟨hlo, hhi, hin, _⟩, hblock⟩ := hp l.worker
    cases l with
    | alloc w item =>
      obtain ⟨hpc, hlt, _, rfl⟩ := next_alloc h
      simp only [Label.worker, hpc, Pc.uncounted] at *
      refine ⟨⟨?_, ?_, ?_, ?_⟩, ?_⟩ <;>
        simp_all [exchangedBy_append, exchangedBy, Pc.uncounted]
    | exchange w value =>
      obtain ⟨item, hpc, rfl, rfl⟩ := next_exchange h
      simp only [Label.worker, hpc, Pc.uncounted] at *
      refine ⟨⟨?_, ?_, ?_, ?_⟩, ?_⟩ <;>
        simp_all [exchangedBy_append, exchangedBy, Pc.uncounted, List.range'_concat]
    | link w =>
      obtain ⟨item, ⟨hpc, rfl⟩ | ⟨tail, hpc, rfl⟩⟩ := next_link h
      all_goals
        simp only [Label.worker, hpc, Pc.uncounted] at *
        refine ⟨⟨?_, ?_, ?_, ?_⟩, ?_⟩ <;>
          simp_all [exchangedBy_append, exchangedBy, Pc.uncounted]
    | count w =>
      obtain ⟨hpc, rfl⟩ := next_count h
      simp only [Label.worker, hpc, Pc.uncounted] at *
      have hlt := hin (by simp) (by simp)
      refine ⟨⟨?_, ?_, ?_, ?_⟩, ?_⟩ <;>
        simp_all [exchangedBy_append, exchangedBy, Pc.uncounted]
      all_goals omega
    | leave w =>
      obtain ⟨hpc, hge, rfl⟩ := next_leave h
      simp only [Label.worker, hpc, Pc.uncounted] at *
      refine ⟨⟨?_, ?_, ?_, ?_⟩, ?_⟩ <;>
        simp_all [exchangedBy_append, exchangedBy, Pc.uncounted]
      omega
  · have hframe := next_frame h hv
    obtain ⟨hloop, hblock⟩ := hp v
    exact ⟨hframe ▸ hloop, by rw [exchangedBy_snoc_ne hv, hframe, hblock]⟩

/-- The exchanges that a step adds, and its change to `size` and to the uncounted ones. -/
theorem size_step {k : ℕ} {s t : State n} {l : Label n} (h : next k s l = some t) :
    t.list.size = s.list.size ∧
        uncounted t.workers = uncounted s.workers + (exchanged [l]).length ∨
      t.list.size = u64 (s.list.size + 1) ∧ exchanged [l] = [] ∧
        uncounted t.workers + 1 = uncounted s.workers := by
  cases l with
  | alloc w item =>
    obtain ⟨hpc, _, _, rfl⟩ := next_alloc h
    have hu := uncounted_update s.workers w { s.workers w with pc := .exchange item }
    simp only [hpc, Pc.uncounted] at hu
    exact .inl ⟨rfl, hu⟩
  | exchange w value =>
    obtain ⟨item, hpc, _, rfl⟩ := next_exchange h
    have hu := uncounted_update s.workers w { s.workers w with pc := .link item s.list.tail }
    simp only [hpc, Pc.uncounted] at hu
    exact .inl ⟨rfl, hu⟩
  | link w =>
    obtain ⟨item, ⟨hpc, rfl⟩ | ⟨tail, hpc, rfl⟩⟩ := next_link h
    all_goals
      have hu := uncounted_update s.workers w { s.workers w with pc := .count }
      simp only [hpc, Pc.uncounted, Nat.add_right_cancel_iff] at hu
      exact .inl ⟨rfl, hu⟩
  | count w =>
    obtain ⟨hpc, rfl⟩ := next_count h
    have hu := uncounted_update s.workers w ⟨.test, (s.workers w).i + 1⟩
    simp only [hpc, Pc.uncounted] at hu
    exact .inr ⟨rfl, rfl, hu⟩
  | leave w =>
    obtain ⟨hpc, _, rfl⟩ := next_leave h
    have hu := uncounted_update s.workers w { s.workers w with pc := .finished }
    simp only [hpc, Pc.uncounted] at hu
    exact .inl ⟨rfl, hu⟩

theorem counted_step {k : ℕ} {past : List (Label n)} {s t : State n} {l : Label n}
    (hs : Counted k past s) (h : next k s l = some t) : Counted k (past ++ [l]) t := by
  obtain ⟨hp, hsize, hlt⟩ := hs
  rcases size_step h with ⟨hsz, hu⟩ | ⟨hsz, he, hu⟩
  · refine ⟨progress_step hp h, ?_, by rw [hsz]; exact hlt⟩
    simp only [exchanged_append, List.length_append, hsz, hu, u64] at hsize ⊢
    omega
  · refine ⟨progress_step hp h, ?_, by rw [hsz]; exact Nat.mod_lt _ (Nat.two_pow_pos 64)⟩
    simp only [exchanged_append, List.length_append, hsz, he, List.length_nil, u64] at hsize ⊢
    omega

/-- Once every worker is done, its whole block has been exchanged and counted. -/
theorem Counted.finished {k : ℕ} {past : List (Label n)} {s : State n} (hs : Counted k past s)
    (hdone : ∀ w, (s.workers w).pc = .finished) :
    (∀ w : Fin n, exchangedBy w past =
        List.range' (loopStart k w) (loopEnd k w - loopStart k w)) ∧
      s.list.size = u64 (exchanged past).length := by
  constructor
  · intro w
    have hp := hs.progress w
    rw [hp.block, hp.inLoop.done (hdone w), hdone w]
    rfl
  · have hzero : uncounted s.workers = 0 := by
      simp [uncounted, hdone, Pc.uncounted]
    have hsize := hs.size
    rw [hzero, Nat.add_zero] at hsize
    rw [← hsize]
    exact (Nat.mod_eq_of_lt hs.size_lt).symm

/-- The exchanges of a run are those of the workers, interleaved. -/
theorem exchanged_perm (ls : List (Label n)) :
    (exchanged ls).Perm ((List.finRange n).flatMap fun w => exchangedBy w ls) := by
  induction ls with
  | nil => simp [exchanged, exchangedBy]
  | cons l ls ih =>
    cases l with
    | exchange w v =>
      have hins := flatMap_insert_perm (fun w => exchangedBy w ls) v
        (List.nodup_finRange n) (List.mem_finRange w)
      simpa only [exchanged, exchangedBy] using (ih.cons v).trans hins.symm
    | _ => simpa only [exchanged, exchangedBy] using ih

/-- No product of the loop bounds overflows for `int` arguments. -/
theorem loop_bounds {n k : ℕ} (hn : n < 2 ^ 31) (hk : k < 2 ^ 31) {w : ℕ} (hw : w < n) :
    loopStart k w = w * k ∧ loopEnd k w = (w + 1) * k := by
  have hbound : (w + 1) * k < 2 ^ 64 := by
    calc (w + 1) * k ≤ 2 ^ 31 * 2 ^ 31 := Nat.mul_le_mul (by omega) hk.le
      _ < 2 ^ 64 := by decide
  have hstart : w * k ≤ (w + 1) * k := Nat.mul_le_mul_right k (Nat.le_succ w)
  have hw64 : w + 1 < 2 ^ 64 := by omega
  simp only [loopStart, loopEnd, u64, Nat.mod_eq_of_lt hw64, Nat.mod_eq_of_lt hbound,
    Nat.mod_eq_of_lt (hstart.trans_lt hbound), and_self]

end Acos.AtomicList
