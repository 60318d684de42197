import Acos.Lib.FinSum
import Acos.Lib.Transition
import Mathlib.Algebra.BigOperators.Group.Finset.Basic
import Mathlib.Logic.Function.Basic

/-! A thread that creates others, one after the other, and then joins them in the same order. What
the threads share and what one step of a thread does are parameters. -/
namespace Acos.ForkJoin
open Acos.FinSum Acos.Transition

/-- The threads are numbered from `0` on. An action fixes what the environment chooses in a step of
a thread. -/
structure Program (σ τ ℓ : Type*) where
  count : ℕ
  start : ℕ → τ
  step : ℕ → σ → τ → ℓ → Option (σ × τ)
  done : τ → Bool

/-- Where the creating thread stands: in its first loop, in its second one, or behind both. -/
inductive Main where
  | create (i : ℕ)
  | join (i : ℕ)
  | joined
  deriving DecidableEq

structure State (σ τ : Type*) where
  shared : σ
  threads : ℕ → Option τ
  main : Main

inductive Label (ℓ : Type*) where
  | main
  | thread (i : ℕ) (action : ℓ)

variable {σ τ ℓ : Type*}

def initial (shared : σ) : State σ τ := ⟨shared, fun _ => none, .create 0⟩

def stepMain (P : Program σ τ ℓ) (s : State σ τ) : Option (State σ τ) :=
  match s.main with
  | .create i =>
    if i < P.count then
      some ⟨s.shared, Function.update s.threads i (some (P.start i)), .create (i + 1)⟩
    else some { s with main := .join 0 }
  | .join i =>
    if i < P.count then
      if (s.threads i).any P.done then some { s with main := .join (i + 1) } else none
    else some { s with main := .joined }
  | .joined => none

def next (P : Program σ τ ℓ) (s : State σ τ) : Label ℓ → Option (State σ τ)
  | .main => stepMain P s
  | .thread i action =>
    (s.threads i).bind fun x => (P.step i s.shared x action).map fun (shared, x') =>
      ⟨shared, Function.update s.threads i (some x'), s.main⟩

/-- How many threads are created. -/
def Main.created (n : ℕ) : Main → ℕ
  | .create i => i
  | _ => n

/-- How many threads are joined. -/
def Main.past (n : ℕ) : Main → ℕ
  | .create _ => 0
  | .join i => i
  | .joined => n

/-- The steps that the creating thread has before it. -/
def Main.remaining (n : ℕ) : Main → ℕ
  | .create i => 2 * n + 2 - i
  | .join i => n + 1 - i
  | .joined => 0

/-- The creating thread goes through its loops. -/
structure Ordered (P : Program σ τ ℓ) (s : State σ τ) : Prop where
  created : ∀ i, (s.threads i).isSome ↔ i < s.main.created P.count
  past : ∀ i < s.main.past P.count, (s.threads i).any P.done
  bounds : s.main.created P.count ≤ P.count ∧ s.main.past P.count ≤ P.count

/-- What the threads keep between them, whichever of them are created; a step of a thread brings it
closer to its end, a thread at its end takes none, and while one is not there some thread moves. -/
structure Rules (P : Program σ τ ℓ) (I : σ → (ℕ → Option τ) → Prop) (rank : ℕ → τ → ℕ) : Prop where
  start : ∀ {shared threads i}, I shared threads → i < P.count → threads i = none →
    I shared (Function.update threads i (some (P.start i)))
  step : ∀ {shared threads i x action shared' x'}, I shared threads → threads i = some x →
    P.step i shared x action = some (shared', x') →
    I shared' (Function.update threads i (some x')) ∧ rank i x' < rank i x
  stays : ∀ {i shared x action}, P.done x → P.step i shared x action = none
  moves : ∀ {shared threads i x}, I shared threads → threads i = some x → ¬ P.done x →
    ∃ j y action, threads j = some y ∧ (P.step j shared y action).isSome

section
variable {P : Program σ τ ℓ} {I : σ → (ℕ → Option τ) → Prop} {rank : ℕ → τ → ℕ}
  {s t : State σ τ} {i : ℕ} {action : ℓ}

theorem next_thread (h : next P s (.thread i action) = some t) :
    ∃ x shared x', s.threads i = some x ∧ P.step i s.shared x action = some (shared, x') ∧
      t = ⟨shared, Function.update s.threads i (some x'), s.main⟩ := by
  obtain ⟨x, hx, hstep⟩ := Option.bind_eq_some_iff.mp h
  obtain ⟨⟨shared, x'⟩, hx', ht⟩ := Option.map_eq_some_iff.mp hstep
  exact ⟨x, shared, x', hx, hx', ht.symm⟩

theorem next_main (h : next P s .main = some t) :
    (∃ i < P.count, s.main = .create i ∧
        t = ⟨s.shared, Function.update s.threads i (some (P.start i)), .create (i + 1)⟩) ∨
      (∃ i, ¬ i < P.count ∧ s.main = .create i ∧ t = { s with main := .join 0 }) ∨
      (∃ i < P.count, s.main = .join i ∧ (s.threads i).any P.done ∧
        t = { s with main := .join (i + 1) }) ∨
      ∃ i, ¬ i < P.count ∧ s.main = .join i ∧ t = { s with main := .joined } := by
  simp only [next, stepMain] at h
  cases hmain : s.main with
  | create i =>
    simp only [hmain] at h
    split_ifs at h with hi
    · exact .inl ⟨i, hi, rfl, (Option.some.inj h).symm⟩
    · exact .inr (.inl ⟨i, hi, rfl, (Option.some.inj h).symm⟩)
  | join i =>
    simp only [hmain] at h
    split_ifs at h with hi hdone
    · exact .inr (.inr (.inl ⟨i, hi, rfl, hdone, (Option.some.inj h).symm⟩))
    · exact .inr (.inr (.inr ⟨i, hi, rfl, (Option.some.inj h).symm⟩))
  | joined => simp [hmain] at h

theorem initial_ordered (P : Program σ τ ℓ) (shared : σ) :
    Ordered P (initial shared : State σ τ) where
  created i := by simp [initial, Main.created]
  past i hi := absurd hi (Nat.not_lt_zero i)
  bounds := ⟨Nat.zero_le _, Nat.zero_le _⟩

/-- A thread that is not at its end is not joined. -/
theorem Ordered.not_past {x : τ} (h : Ordered P s) (hx : s.threads i = some x)
    (hdone : ¬ P.done x) : ¬ i < s.main.past P.count := by
  intro hlt
  have hany := h.past i hlt
  rw [hx] at hany
  exact hdone hany

theorem Ordered.thread {x x' : τ} {shared : σ} (h : Ordered P s) (hx : s.threads i = some x)
    (hdone : ¬ P.done x) : Ordered P ⟨shared, Function.update s.threads i (some x'), s.main⟩ := by
  refine ⟨fun j => ?_, fun j hj => ?_, h.bounds⟩
  · by_cases hji : j = i
    · have hcreated := (h.created i).mp (by rw [hx]; rfl)
      simp [hji, hcreated]
    · rw [← h.created j]
      simp [hji]
  · have hji : j ≠ i := by
      rintro rfl
      exact h.not_past hx hdone hj
    simpa [hji] using h.past j hj

theorem Ordered.main (h : Ordered P s) (hstep : next P s .main = some t) : Ordered P t := by
  obtain ⟨hcreated, hpast, hbounds⟩ := h
  rcases next_main hstep with ⟨i, hi, hmain, rfl⟩ | ⟨i, hi, hmain, rfl⟩ |
    ⟨i, hi, hmain, hdone, rfl⟩ | ⟨i, hi, hmain, rfl⟩
  · simp only [hmain, Main.created, Main.past] at *
    refine ⟨fun j => ?_, fun j hj => absurd hj (Nat.not_lt_zero j), hi, Nat.zero_le _⟩
    by_cases hji : j = i
    · simp [hji, Main.created]
    · have hlt : j < i + 1 ↔ j < i := by omega
      simp only [Function.update_of_ne hji, hcreated, Main.created, hlt]
  · simp only [hmain, Main.created, Main.past] at *
    have hall : i = P.count := by omega
    exact ⟨fun j => (hcreated j).trans (by rw [hall]; rfl),
      fun j hj => absurd hj (Nat.not_lt_zero j), le_rfl, Nat.zero_le _⟩
  · simp only [hmain, Main.created, Main.past] at *
    refine ⟨hcreated, fun j hj => ?_, le_rfl, hi⟩
    rcases Nat.lt_succ_iff_lt_or_eq.mp hj with hlt | rfl
    · exact hpast j hlt
    · exact hdone
  · simp only [hmain, Main.created, Main.past] at *
    exact ⟨hcreated, fun j hj => hpast j (by simp only [Main.past] at hj; omega), le_rfl, le_rfl⟩

theorem Rules.next_inv (h : Rules P I rank) (l : Label ℓ)
    (hs : Ordered P s ∧ I s.shared s.threads) (hstep : next P s l = some t) :
    Ordered P t ∧ I t.shared t.threads := by
  obtain ⟨hordered, hinv⟩ := hs
  cases l with
  | main =>
    refine ⟨hordered.main hstep, ?_⟩
    rcases next_main hstep with ⟨i, hi, hmain, rfl⟩ | ⟨i, hi, hmain, rfl⟩ |
      ⟨i, hi, hmain, hdone, rfl⟩ | ⟨i, hi, hmain, rfl⟩
    · apply h.start hinv hi
      rw [← Option.not_isSome_iff_eq_none, hordered.created, hmain]
      exact Nat.lt_irrefl i
    · exact hinv
    · exact hinv
    · exact hinv
  | thread i action =>
    obtain ⟨x, shared, x', hx, hx', rfl⟩ := next_thread hstep
    have hdone : ¬ P.done x := by
      intro hdone
      rw [h.stays hdone] at hx'
      cases hx'
    exact ⟨hordered.thread hx hdone, (h.step hinv hx hx').1⟩

/-- The threads that are not yet created count as standing at their start. -/
def State.remaining (P : Program σ τ ℓ) (rank : ℕ → τ → ℕ) (s : State σ τ) : ℕ :=
  ∑ i ∈ Finset.range P.count, rank i ((s.threads i).getD (P.start i)) + s.main.remaining P.count

theorem Rules.next_rank (h : Rules P I rank) (l : Label ℓ)
    (hs : Ordered P s ∧ I s.shared s.threads) (hstep : next P s l = some t) :
    t.remaining P rank < s.remaining P rank := by
  obtain ⟨hordered, hinv⟩ := hs
  cases l with
  | main =>
    rcases next_main hstep with ⟨i, hi, hmain, rfl⟩ | ⟨i, hi, hmain, rfl⟩ |
      ⟨i, hi, hmain, hdone, rfl⟩ | ⟨i, hi, hmain, rfl⟩
    · have hnone : s.threads i = none := by
        rw [← Option.not_isSome_iff_eq_none, hordered.created, hmain]
        exact Nat.lt_irrefl i
      have hsame : ∀ j, (Function.update s.threads i (some (P.start i)) j).getD (P.start j) =
          (s.threads j).getD (P.start j) := by
        intro j
        by_cases hji : j = i
        · simp [hji, hnone]
        · simp [hji]
      simp only [State.remaining, hsame, hmain, Main.remaining]
      omega
    · simp only [State.remaining, hmain, Main.remaining]
      have hbound := hordered.bounds.1
      simp only [hmain, Main.created] at hbound
      omega
    · simp only [State.remaining, hmain, Main.remaining]
      omega
    · simp only [State.remaining, hmain, Main.remaining]
      have hbound := hordered.bounds.2
      simp only [hmain, Main.past] at hbound
      omega
  | thread i action =>
    obtain ⟨x, shared, x', hx, hx', rfl⟩ := next_thread hstep
    have hlt := (h.step hinv hx hx').2
    have hi : i < P.count :=
      ((hordered.created i).mp (by rw [hx]; rfl)).trans_le hordered.bounds.1
    have hsum := sum_change (f := fun j => rank j ((s.threads j).getD (P.start j)))
      (g := fun j => rank j ((Function.update s.threads i (some x') j).getD (P.start j)))
      (Finset.mem_range.mpr hi) fun j hj => by simp [hj]
    simp only [Function.update_self, hx, Option.getD_some] at hsum
    simp only [State.remaining]
    omega

/-- A joining thread waits only for one that is not at its end. -/
theorem Rules.exists_next (h : Rules P I rank) (hs : Ordered P s ∧ I s.shared s.threads)
    (hmain : s.main ≠ .joined) : ∃ l t, next P s l = some t := by
  obtain ⟨hordered, hinv⟩ := hs
  by_cases hnone : next P s .main = none
  · obtain ⟨i, hi, hjoin, hdone⟩ : ∃ i < P.count, s.main = .join i ∧ ¬ (s.threads i).any P.done := by
      simp only [next, stepMain] at hnone
      cases hm : s.main with
      | create i =>
        simp only [hm] at hnone
        split_ifs at hnone
      | join i =>
        simp only [hm] at hnone
        split_ifs at hnone with hi hdone
        exact ⟨i, hi, rfl, hdone⟩
      | joined => exact absurd hm hmain
    have hcreated : (s.threads i).isSome := by
      rw [hordered.created, hjoin]
      exact hi
    obtain ⟨x, hx⟩ := Option.isSome_iff_exists.mp hcreated
    rw [hx] at hdone
    obtain ⟨j, y, action, hy, hmove⟩ := h.moves hinv hx hdone
    obtain ⟨⟨shared, y'⟩, hy'⟩ := Option.isSome_iff_exists.mp hmove
    refine ⟨.thread j action, ⟨shared, Function.update s.threads j (some y'), s.main⟩, ?_⟩
    simp only [next, hy, Option.bind_some, hy', Option.map_some]
  · obtain ⟨t, ht⟩ := Option.ne_none_iff_exists'.mp hnone
    exact ⟨.main, t, ht⟩

/-- All threads are at their end. -/
def State.Joined (P : Program σ τ ℓ) (s : State σ τ) : Prop :=
  s.main = .joined ∧ ∀ i < P.count, ∃ x, s.threads i = some x ∧ P.done x

theorem Ordered.joined (h : Ordered P s) (hmain : s.main = .joined) : s.Joined P := by
  refine ⟨hmain, fun i hi => ?_⟩
  have hany := h.past i (by rw [hmain]; exact hi)
  cases hx : s.threads i with
  | none =>
    rw [hx] at hany
    cases hany
  | some x =>
    rw [hx] at hany
    exact ⟨x, rfl, hany⟩

/-- Whatever the order of the steps, all threads come to their end and are joined. -/
theorem Rules.inevitably_joined (h : Rules P I rank) {shared : σ} (hinv : I shared fun _ => none) :
    Inevitably (next P) (fun s => s.Joined P ∧ I s.shared s.threads) (initial shared) := by
  apply inevitably_of_measure (I := fun s => Ordered P s ∧ I s.shared s.threads) (State.remaining P rank)
  · intro s hs hnot
    exact h.exists_next hs fun hmain => hnot ⟨hs.1.joined hmain, hs.2⟩
  · intro s l t hs _ hstep
    exact ⟨h.next_inv l hs hstep, h.next_rank l hs hstep⟩
  · exact ⟨initial_ordered P shared, hinv⟩

end
end Acos.ForkJoin
