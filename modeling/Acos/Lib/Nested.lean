import Acos.Lib.Transition
import Mathlib.Logic.Function.Basic
import Mathlib.Order.Nat

/-! Threads or processes each of which starts at most one other and then waits for it. Together they
do what one thread does that makes calls in place of starting others. -/
namespace Acos.Nested
open Acos.Transition

/-- `enter` is what a worker does until it has started another one, or ends; a label fixes what the
environment chooses. `finish` is what it does after it has waited. -/
structure Program (σ α ℓ : Type*) where
  enter : σ → α → ℓ → Option (σ × α × Option α)
  finish : σ → α → σ × α

inductive Phase (α : Type*) where
  | running (x : α)
  | waiting (x : α)
  | joined (x : α)
  | done (x : α)
  deriving DecidableEq

/-- The worker that worker `i` starts is worker `i + 1`. -/
structure State (σ α : Type*) where
  shared : σ
  workers : ℕ → Option (Phase α)

variable {σ α ℓ : Type*}

def initial (shared : σ) (x : α) : State σ α :=
  ⟨shared, Function.update (fun _ => none) 0 (some (.running x))⟩

/-- The shared state and the own memory of a worker after what it does at once. -/
def State.entered (s : State σ α) (i : ℕ) : σ × α × Option α → State σ α
  | (shared, x, none) => ⟨shared, Function.update s.workers i (some (.done x))⟩
  | (shared, x, some y) =>
    ⟨shared, Function.update (Function.update s.workers i (some (.waiting x))) (i + 1)
      (some (.running y))⟩

theorem State.entered_workers (s : State σ α) (i : ℕ) (shared : σ) (x y : α) :
    (s.entered i (shared, x, some y)).workers = Function.update
      (Function.update s.workers i (some (.waiting x))) (i + 1) (some (.running y)) := rfl

def Phase.isDone : Phase α → Bool
  | .done _ => true
  | _ => false

def next (P : Program σ α ℓ) (s : State σ α) : ℕ × ℓ → Option (State σ α)
  | (i, l) =>
    match s.workers i with
    | some (.running x) => (P.enter s.shared x l).map (s.entered i)
    | some (.waiting x) =>
      if (s.workers (i + 1)).any Phase.isDone then
        some ⟨s.shared, Function.update s.workers i (some (.joined x))⟩
      else none
    | some (.joined x) =>
      some ⟨(P.finish s.shared x).1,
        Function.update s.workers i (some (.done (P.finish s.shared x).2))⟩
    | _ => none

/-- The call in place of the start of another worker. -/
inductive Calls (P : Program σ α ℓ) : σ → α → σ → α → Prop
  | leaf {s x l s' x'} (h : P.enter s x l = some (s', x', none)) : Calls P s x s' x'
  | call {s x l s₁ x₁ y s₂ y'} (h : P.enter s x l = some (s₁, x₁, some y))
      (hcall : Calls P s₁ y s₂ y') : Calls P s x (P.finish s₂ x₁).1 (P.finish s₂ x₁).2

/-- Every worker that was started has ended. -/
def State.Ended (s : State σ α) : Prop := ∀ j, (s.workers j).all Phase.isDone

/-- The first worker is at its end, as are the others, with the result of the calls. -/
def Returned (P : Program σ α ℓ) (s : σ) (x : α) (t : State σ α) : Prop :=
  ∃ x', t.workers 0 = some (.done x') ∧ Calls P s x t.shared x' ∧ t.Ended

/-- What the workers that wait do one after the other, the last that was started first. -/
def unwind (P : Program σ α ℓ) : σ × α → List α → σ × α
  | r, [] => r
  | r, x :: xs => unwind P (P.finish r.1 x) xs

def Suspended (workers : ℕ → Option (Phase α)) : List α → Prop
  | [] => True
  | x :: xs => workers xs.length = some (.waiting x) ∧ Suspended workers xs

section
variable {P : Program σ α ℓ} {goal : σ × α → Prop} {s t : State σ α} {frames : List α}
  {p p' : Phase α} {x y : α} {i : ℕ} {l : ℓ} {workers : ℕ → Option (Phase α)}

theorem Suspended.update (h : Suspended workers frames) (hi : frames.length ≤ i) :
    Suspended (Function.update workers i (some p)) frames := by
  induction frames with
  | nil => trivial
  | cons x xs ih =>
    rw [List.length_cons] at hi
    exact ⟨by rw [Function.update_of_ne (by omega), h.1], ih h.2 (by omega)⟩

theorem Suspended.get (h : Suspended workers frames) (hi : i < frames.length) :
    ∃ x, workers i = some (.waiting x) := by
  induction frames with
  | nil => exact absurd hi (Nat.not_lt_zero i)
  | cons x xs ih =>
    rcases Nat.lt_succ_iff_lt_or_eq.mp hi with hlt | rfl
    · exact ih h.2 hlt
    · exact ⟨x, h.1⟩

/-- What comes out in the end if the current worker is in that phase. -/
def Phase.Ends (P : Program σ α ℓ) (goal : σ × α → Prop) (s : σ) (frames : List α) :
    Phase α → Prop
  | .running x => ∀ s' x', Calls P s x s' x' → goal (unwind P (s', x') frames)
  | .waiting _ => False
  | .joined x => goal (unwind P (P.finish s x) frames)
  | .done x => goal (unwind P (s, x) frames)

/-- All workers before the current one wait, and those behind it, if there are any, have ended. -/
structure Stack (P : Program σ α ℓ) (goal : σ × α → Prop) (s : State σ α) (frames : List α)
    (p : Phase α) : Prop where
  suspended : Suspended s.workers frames
  current : s.workers frames.length = some p
  above : ∀ j, frames.length < j → (s.workers j).all Phase.isDone
  fresh : ∀ x, p = .running x → ∀ j, frames.length < j → s.workers j = none
  ends : p.Ends P goal s.shared frames

/-- The steps that are left; `rank` bounds the calls. -/
def Phase.remaining (rank : σ → α → ℕ) (s : σ) (n : ℕ) : Phase α → ℕ
  | .running x => 3 * rank s x + 2 * n + 2
  | .waiting _ => 0
  | .joined _ => 2 * n + 1
  | .done _ => 2 * n

/-- Only the current worker moves, or the one that waits for it. -/
theorem Stack.mover (h : Stack P goal s frames p) (hl : next P s (i, l) = some t) :
    i = frames.length ∨ i + 1 = frames.length ∧ p.isDone := by
  rcases Nat.lt_trichotomy i frames.length with hlt | heq | hgt
  · obtain ⟨x, hx⟩ := h.suspended.get hlt
    simp only [next, hx] at hl
    split_ifs at hl with hdone
    rcases Nat.lt_or_eq_of_le hlt with hlt' | heq
    · obtain ⟨y, hy⟩ := h.suspended.get hlt'
      rw [hy] at hdone
      cases hdone
    · have hnext : i + 1 = frames.length := heq
      rw [hnext, h.current] at hdone
      exact .inr ⟨hnext, hdone⟩
  · exact .inl heq
  · have hdone := h.above i hgt
    simp only [next] at hl
    cases hi : s.workers i with
    | none =>
      rw [hi] at hl
      cases hl
    | some q =>
      rw [hi] at hdone
      simp only [hi] at hl
      cases q with
      | done x => cases hl
      | _ => cases hdone

/-- The current worker ends. -/
theorem Stack.finished {shared : σ} (h : Stack P goal s frames p)
    (hends : goal (unwind P (shared, x) frames)) :
    Stack P goal ⟨shared, Function.update s.workers frames.length (some (.done x))⟩ frames
      (.done x) where
  suspended := h.suspended.update le_rfl
  current := Function.update_self ..
  above j hj := by
    simpa [Function.update_of_ne hj.ne'] using h.above j hj
  fresh _ hx := by cases hx
  ends := hends

/-- The current worker starts another one. -/
theorem Stack.started {shared : σ} {w : α} (h : Stack P goal s frames (.running w))
    (hends : ∀ s' y', Calls P shared y s' y' → goal (unwind P (s', y') (x :: frames))) :
    Stack P goal (s.entered frames.length (shared, x, some y)) (x :: frames) (.running y) := by
  have hfree (j : ℕ) (hj : frames.length + 1 < j) :
      (s.entered frames.length (shared, x, some y)).workers j = none := by
    rw [State.entered_workers, Function.update_of_ne (by omega), Function.update_of_ne (by omega)]
    exact h.fresh w rfl j (by omega)
  refine ⟨⟨?_, ?_⟩, Function.update_self .., fun j hj => ?_, fun _ _ j hj => hfree j hj, hends⟩
  · rw [State.entered_workers, Function.update_of_ne (by omega), Function.update_self]
  · exact (h.suspended.update le_rfl).update (Nat.le_succ _)
  · rw [hfree j hj]
    rfl

/-- The worker that waited for the current one goes on. -/
theorem Stack.resumed (h : Stack P goal s (x :: frames) (.done y)) :
    Stack P goal ⟨s.shared, Function.update s.workers frames.length (some (.joined x))⟩ frames
      (.joined x) := by
  refine ⟨h.suspended.2.update le_rfl, Function.update_self .., fun j hj => ?_, nofun, h.ends⟩
  simp only [Function.update_of_ne hj.ne']
  rcases Nat.lt_or_eq_of_le (Nat.succ_le_of_lt hj) with hlt | heq
  · exact h.above j hlt
  · have hcurrent : s.workers j = some (.done y) := heq ▸ h.current
    rw [hcurrent]
    rfl

end

section
variable {P : Program σ α ℓ} {goal : σ × α → Prop} {s t : State σ α} {frames : List α}
  {p : Phase α} {rank : σ → α → ℕ} {i : ℕ} {l : ℓ}

/-- Every step comes closer to the end. -/
theorem Stack.step (hrank : ∀ {s x l s' x' y}, P.enter s x l = some (s', x', some y) →
      rank s' y < rank s x)
    (h : Stack P goal s frames p) (hl : next P s (i, l) = some t) :
    ∃ frames' p', Stack P goal t frames' p' ∧
      p'.remaining rank t.shared frames'.length < p.remaining rank s.shared frames.length := by
  rcases h.mover hl with rfl | ⟨hi, hdone⟩
  · simp only [next, h.current] at hl
    cases p with
    | running x =>
      obtain ⟨⟨shared, x', child⟩, henter, rfl⟩ := Option.map_eq_some_iff.mp hl
      cases child with
      | none =>
        refine ⟨frames, .done x', h.finished (h.ends _ _ (.leaf henter)), ?_⟩
        simp only [Phase.remaining]
        omega
      | some y =>
        refine ⟨x' :: frames, .running y, h.started fun s' y' hcall => ?_, ?_⟩
        · exact h.ends _ _ (.call henter hcall)
        · have hless := hrank henter
          simp only [Phase.remaining, State.entered, List.length_cons]
          omega
    | waiting x => exact h.ends.elim
    | joined x =>
      cases hl
      exact ⟨frames, .done _, h.finished h.ends, Nat.lt_succ_self _⟩
    | done x => cases hl
  · cases p with
    | done y =>
      cases frames with
      | nil => cases hi
      | cons x frames =>
        obtain rfl : i = frames.length := Nat.succ.inj hi
        simp only [next, h.suspended.1] at hl
        split_ifs at hl
        cases hl
        refine ⟨frames, .joined x, h.resumed, ?_⟩
        simp only [Phase.remaining, List.length_cons]
        omega
    | _ => cases hdone

/-- Until the first worker has ended, one can go on. -/
theorem Stack.live (hlive : ∀ s x, ∃ l, (P.enter s x l).isSome) (h : Stack P goal s frames p)
    (hnot : ∀ x, s.workers 0 ≠ some (.done x)) : ∃ l t, next P s l = some t := by
  have hcurrent := h.current
  cases p with
  | running x =>
    obtain ⟨l, hl⟩ := hlive s.shared x
    obtain ⟨r, hr⟩ := Option.isSome_iff_exists.mp hl
    refine ⟨(frames.length, l), s.entered frames.length r, ?_⟩
    simp only [next, hcurrent, hr, Option.map_some]
  | waiting x => exact h.ends.elim
  | joined x =>
    obtain ⟨l, -⟩ := hlive s.shared x
    refine ⟨(frames.length, l), ⟨(P.finish s.shared x).1,
      Function.update s.workers frames.length (some (.done (P.finish s.shared x).2))⟩, ?_⟩
    simp only [next, hcurrent]
  | done y =>
    cases frames with
    | nil => exact absurd hcurrent (hnot y)
    | cons x frames =>
      obtain ⟨l, -⟩ := hlive s.shared x
      rw [List.length_cons] at hcurrent
      refine ⟨(frames.length, l),
        ⟨s.shared, Function.update s.workers frames.length (some (.joined x))⟩, ?_⟩
      simp only [next, h.suspended.1, hcurrent]
      rfl

/-- When the first worker has ended, so have the others. -/
theorem Stack.ended {x : α} (h : Stack P goal s frames p) (hx : s.workers 0 = some (.done x)) :
    goal (s.shared, x) ∧ s.Ended := by
  cases frames with
  | nil =>
    obtain rfl : p = .done x := Option.some.inj (h.current.symm.trans hx)
    refine ⟨h.ends, fun j => ?_⟩
    rcases Nat.eq_zero_or_pos j with rfl | hj
    · rw [hx]
      rfl
    · exact h.above j hj
  | cons y frames =>
    obtain ⟨z, hz⟩ := h.suspended.get (Nat.succ_pos frames.length)
    rw [hx] at hz
    cases hz

theorem Stack.inevitably (hlive : ∀ s x, ∃ l, (P.enter s x l).isSome)
    (hrank : ∀ {s x l s' x' y}, P.enter s x l = some (s', x', some y) → rank s' y < rank s x)
    (h : Stack P goal s frames p) :
    Inevitably (next P)
      (fun t => ∃ x, t.workers 0 = some (.done x) ∧ goal (t.shared, x) ∧ t.Ended) s := by
  have hranked : ∃ frames' p', Stack P goal s frames' p' ∧
      p'.remaining rank s.shared frames'.length = p.remaining rank s.shared frames.length :=
    ⟨frames, p, h, rfl⟩
  refine inevitably_of_rank (R := fun n s => ∃ frames p, Stack P goal s frames p ∧
    p.remaining rank s.shared frames.length = n) ?_ ?_ hranked
  · rintro n s ⟨frames, p, hs, -⟩ hfinal
    exact hs.live hlive fun x hx => hfinal ⟨x, hx, hs.ended hx⟩
  · rintro n s ⟨i, l⟩ t ⟨frames, p, hs, rfl⟩ - hl
    obtain ⟨frames', p', ht, hless⟩ := hs.step hrank hl
    exact .inr ⟨_, hless, frames', p', ht, rfl⟩

/-- In every run the workers come to their ends, and what the first leaves is what calls leave. -/
theorem inevitably_returned (rank : σ → α → ℕ) {s : σ} {x : α}
    (hlive : ∀ s x, ∃ l, (P.enter s x l).isSome)
    (hrank : ∀ {s x l s' x' y}, P.enter s x l = some (s', x', some y) → rank s' y < rank s x) :
    Inevitably (next P) (Returned P s x) (initial s x) := by
  have hstack : Stack P (fun r => Calls P s x r.1 r.2) (initial s x) [] (.running x) := by
    have hnone (j : ℕ) (hj : 0 < j) : (initial s x).workers j = none := by
      simp [initial, Function.update_of_ne (Nat.ne_of_gt hj)]
    refine ⟨trivial, by simp [initial], fun j hj => ?_, fun _ _ j hj => hnone j hj,
      fun _ _ h => h⟩
    rw [hnone j hj]
    rfl
  exact hstack.inevitably hlive hrank

end

end Acos.Nested
