import Mathlib.Data.List.Basic
import Mathlib.Data.Option.Basic
import Mathlib.Order.RelClasses

/-! Executable labelled transition systems. A label fixes every choice that the
scheduler and the environment make in one step, so a run is a list of labels and
quantifying over lists of labels quantifies over all interleavings. -/
namespace Acos.Transition

variable {σ ℓ : Type*}

/-- Take the labelled steps in order; `none` when one of them is not enabled. -/
def run (next : σ → ℓ → Option σ) : σ → List ℓ → Option σ
  | s, [] => some s
  | s, l :: ls => (next s l).bind fun t => run next t ls

@[simp] theorem run_nil (next : σ → ℓ → Option σ) (s : σ) : run next s [] = some s := rfl

theorem run_cons_eq_some {next : σ → ℓ → Option σ} {s u : σ} {l : ℓ} {ls : List ℓ} :
    run next s (l :: ls) = some u ↔ ∃ t, next s l = some t ∧ run next t ls = some u := by
  simp [run, Option.bind_eq_some_iff]

theorem run_append (next : σ → ℓ → Option σ) (s : σ) (ls ms : List ℓ) :
    run next s (ls ++ ms) = (run next s ls).bind fun t => run next t ms := by
  induction ls generalizing s with
  | nil => rfl
  | cons l ls ih =>
    cases h : next s l with
    | none => simp [run, h]
    | some t => simpa [run, h] using ih t

/-- A step that extends a run. -/
theorem run_snoc {next : σ → ℓ → Option σ} {s t u : σ} {ls : List ℓ} {l : ℓ}
    (h : run next s ls = some t) (hl : next t l = some u) :
    run next s (ls ++ [l]) = some u := by
  rw [run_append, h]
  simp [run, hl]

def Reachable (next : σ → ℓ → Option σ) (s₀ s : σ) : Prop := ∃ ls, run next s₀ ls = some s

theorem Reachable.refl (next : σ → ℓ → Option σ) (s : σ) : Reachable next s s := ⟨[], rfl⟩

theorem Reachable.step {next : σ → ℓ → Option σ} {s₀ s t : σ} {l : ℓ}
    (h : Reachable next s₀ s) (hl : next s l = some t) : Reachable next s₀ t := by
  obtain ⟨ls, hls⟩ := h
  exact ⟨ls ++ [l], run_snoc hls hl⟩

/-- What every step preserves is preserved by a whole run. -/
theorem run_invariant {next : σ → ℓ → Option σ} {I : σ → Prop}
    (hstep : ∀ s l t, I s → next s l = some t → I t) {s t : σ} {ls : List ℓ}
    (hs : I s) (hrun : run next s ls = some t) : I t := by
  induction ls generalizing s with
  | nil =>
    cases hrun
    exact hs
  | cons l ls ih =>
    obtain ⟨u, hu, hrest⟩ := run_cons_eq_some.mp hrun
    exact ih (hstep s l u hs hu) hrest

theorem Reachable.invariant {next : σ → ℓ → Option σ} {I : σ → Prop}
    (hstep : ∀ s l t, I s → next s l = some t → I t) {s₀ s : σ}
    (h₀ : I s₀) (h : Reachable next s₀ s) : I s := by
  obtain ⟨ls, hls⟩ := h
  exact run_invariant hstep h₀ hls

/-- Where some step always comes closer to a final state, one is reached. -/
theorem exists_run_of_measure {α : Type*} [LT α] [WellFoundedLT α] {next : σ → ℓ → Option σ}
    {I F : σ → Prop} (μ : σ → α)
    (hstep : ∀ s, I s → ¬ F s → ∃ l t, next s l = some t ∧ I t ∧ μ t < μ s) {s : σ} (hs : I s) :
    ∃ ls t, run next s ls = some t ∧ F t := by
  induction hn : μ s using WellFoundedLT.induction generalizing s with
  | ind n ih =>
    by_cases hfinal : F s
    · exact ⟨[], s, rfl, hfinal⟩
    · obtain ⟨l, t, hl, ht, hlt⟩ := hstep s hs hfinal
      obtain ⟨ls, u, hrun, hu⟩ := ih (μ t) (hn ▸ hlt) ht rfl
      exact ⟨l :: ls, u, run_cons_eq_some.mpr ⟨t, hl, hrun⟩, hu⟩

/-- The same rule for a predicate that also speaks of the labels taken so far. -/
theorem run_history {next : σ → ℓ → Option σ} {I : List ℓ → σ → Prop}
    (hstep : ∀ past s l t, I past s → next s l = some t → I (past ++ [l]) t)
    {ls : List ℓ} {s t : σ} (hs : I [] s) (hrun : run next s ls = some t) : I ls t := by
  have hgen : ∀ (ls past : List ℓ) (s : σ), I past s → run next s ls = some t →
      I (past ++ ls) t := by
    intro ls
    induction ls with
    | nil =>
      intro past s hs hrun
      cases hrun
      simpa using hs
    | cons l ls ih =>
      intro past s hs hrun
      obtain ⟨u, hu, hrest⟩ := run_cons_eq_some.mp hrun
      simpa using ih (past ++ [l]) u (hstep past s l u hs hu) hrest
  exact hgen ls [] s hs hrun

/-- Every step of the run meets `P` in the state before it. -/
def Along (next : σ → ℓ → Option σ) (P : σ → ℓ → Prop) : σ → List ℓ → Prop
  | _, [] => True
  | s, l :: ls => P s l ∧ ∀ t, next s l = some t → Along next P t ls

theorem Along.cons {next : σ → ℓ → Option σ} {P : σ → ℓ → Prop} {s t : σ} {l : ℓ} {ls : List ℓ}
    (hP : P s l) (hl : next s l = some t) (h : Along next P t ls) : Along next P s (l :: ls) := by
  refine ⟨hP, fun u hu => ?_⟩
  rw [hl] at hu
  cases hu
  exact h

instance Along.decidable {next : σ → ℓ → Option σ} {P : σ → ℓ → Prop} [∀ s l, Decidable (P s l)] :
    ∀ (s : σ) (ls : List ℓ), Decidable (Along next P s ls)
  | _, [] => isTrue trivial
  | s, l :: ls =>
    match h : next s l with
    | none => decidable_of_iff (P s l)
        ⟨fun hP => ⟨hP, fun _ ht => nomatch h.symm.trans ht⟩, And.left⟩
    | some t =>
      have : Decidable (Along next P t ls) := Along.decidable t ls
      decidable_of_iff (P s l ∧ Along next P t ls)
        ⟨fun hP => .cons hP.1 h hP.2, fun hP => ⟨hP.1, hP.2 t h⟩⟩

/-- An invariant that only the steps meeting `P` preserve holds along runs of such steps. -/
theorem run_invariant_along {next : σ → ℓ → Option σ} {P : σ → ℓ → Prop} {I : σ → Prop}
    (hstep : ∀ s l t, I s → P s l → next s l = some t → I t) {s t : σ} {ls : List ℓ}
    (hs : I s) (hP : Along next P s ls) (hrun : run next s ls = some t) : I t := by
  induction ls generalizing s with
  | nil =>
    cases hrun
    exact hs
  | cons l ls ih =>
    obtain ⟨u, hu, hrest⟩ := run_cons_eq_some.mp hrun
    exact ih (hstep s l u hs hP.1 hu) (hP.2 u hu) hrest

/-- A run that does not meet `P` throughout has a first step that does not. -/
theorem exists_first_of_not_along {next : σ → ℓ → Option σ} {P : σ → ℓ → Prop} {s t : σ}
    {ls : List ℓ} (hrun : run next s ls = some t) (h : ¬ Along next P s ls) :
    ∃ past u l v, run next s past = some u ∧ Along next P s past ∧ ¬ P u l ∧
      next u l = some v ∧ Reachable next v t := by
  induction ls generalizing s with
  | nil => exact absurd trivial h
  | cons l ls ih =>
    obtain ⟨u, hu, hrest⟩ := run_cons_eq_some.mp hrun
    by_cases hP : P s l
    · have hu' : ¬ Along next P u ls := fun halong => h (.cons hP hu halong)
      obtain ⟨past, v, m, w, hpast, halong, hv⟩ := ih hrest hu'
      exact ⟨l :: past, v, m, w, run_cons_eq_some.mpr ⟨u, hu, hpast⟩, .cons hP hu halong, hv⟩
    · exact ⟨[], s, l, u, rfl, trivial, hP, hu, ls, hrest⟩

/-- Every run that goes on for as long as it can comes to a state in `F`. -/
inductive Inevitably (next : σ → ℓ → Option σ) (F : σ → Prop) : σ → Prop
  | here {s : σ} (h : F s) : Inevitably next F s
  | later {s : σ} (hlive : ∃ l t, next s l = some t)
      (h : ∀ l t, next s l = some t → Inevitably next F t) : Inevitably next F s

theorem Inevitably.mono {next : σ → ℓ → Option σ} {F G : σ → Prop} {s : σ}
    (h : Inevitably next F s) (hFG : ∀ t, F t → G t) : Inevitably next G s := by
  induction h with
  | here h => exact .here (hFG _ h)
  | later hlive _ ih => exact .later hlive ih

/-- Where some step is possible and every one comes closer to `F`, it is reached. -/
theorem inevitably_of_measure {α : Type*} [LT α] [WellFoundedLT α] {next : σ → ℓ → Option σ}
    {I F : σ → Prop} (μ : σ → α)
    (hlive : ∀ s, I s → ¬ F s → ∃ l t, next s l = some t)
    (hstep : ∀ s l t, I s → ¬ F s → next s l = some t → I t ∧ μ t < μ s) {s : σ} (hs : I s) :
    Inevitably next F s := by
  induction hn : μ s using WellFoundedLT.induction generalizing s with
  | ind n ih =>
    by_cases hfinal : F s
    · exact .here hfinal
    · apply Inevitably.later (hlive s hs hfinal)
      intro l t hl
      obtain ⟨ht, hlt⟩ := hstep s l t hs hfinal hl
      exact ih (μ t) (hn ▸ hlt) ht rfl

/-- The same rule where the measure is not a function of the state. -/
theorem inevitably_of_rank {α : Type*} [LT α] [WellFoundedLT α] {next : σ → ℓ → Option σ}
    {F : σ → Prop} {R : α → σ → Prop}
    (hlive : ∀ n s, R n s → ¬ F s → ∃ l t, next s l = some t)
    (hstep : ∀ n s l t, R n s → ¬ F s → next s l = some t → F t ∨ ∃ m < n, R m t) {n : α} {s : σ}
    (hs : R n s) : Inevitably next F s := by
  induction n using WellFoundedLT.induction generalizing s with
  | ind n ih =>
    by_cases hfinal : F s
    · exact .here hfinal
    · apply Inevitably.later (hlive n s hs hfinal)
      intro l t hl
      rcases hstep n s l t hs hfinal hl with ht | ⟨m, hlt, ht⟩
      · exact .here ht
      · exact ih m hlt ht

/-- What rules `F` out and is kept by every step rules out that `F` is reached. -/
theorem not_inevitably_of_invariant {next : σ → ℓ → Option σ} {I F : σ → Prop}
    (hF : ∀ s, I s → ¬ F s) (hstep : ∀ s l t, I s → next s l = some t → I t) {s : σ} (hs : I s) :
    ¬ Inevitably next F s := by
  intro h
  induction h with
  | here h => exact hF _ hs h
  | later hlive _ ih =>
    obtain ⟨l, t, hl⟩ := hlive
    exact ih l t hl (hstep _ l t hs hl)

end Acos.Transition
