import Acos.MutexRing.Model
import Mathlib.Data.List.Count
import Mathlib.Data.List.Perm.Basic
import Mathlib.Tactic.IntervalCases

/-! The sections between lock and unlock take effect one after the other, so that no addition is
lost: every cell gets each constant once from one thread in every round. -/
namespace Acos.MutexRing
open Acos.ForkJoin Acos.Transition

variable {α : Type*} {D : Double α} {N K w k : ℕ}

/-- The first `k` additions of the thread `w`, one after the other. -/
def additions (D : Double α) (K w : ℕ) (array : ℕ → α) : ℕ → ℕ → α
  | 0 => array
  | k + 1 =>
    let array := additions D K w array k
    Function.update array (cell K w k) (D.add (array (cell K w k)) (D.constant k))

/-- The sections of these threads, one after the other. -/
def sections (D : Double α) (K : ℕ) (order : List ℕ) : ℕ → α :=
  order.foldl (fun array w => additions D K w array 3) fun _ => D.zero

/-- The value of a cell after these additions. -/
def added (D : Double α) (constants : List ℕ) : α :=
  constants.foldl (fun value k => D.add value (D.constant k)) D.zero

/-- The thread has the mutex. -/
def Pc.inside : Pc α → Bool
  | .load _ | .store _ _ | .unlock => true
  | _ => false

/-- How far the section of a thread is, over what the array was before it. -/
def Partly (D : Double α) (K w : ℕ) (before array : ℕ → α) : Pc α → Prop
  | .load k => k < 3 ∧ array = additions D K w before k
  | .store k value =>
    k < 3 ∧ array = additions D K w before k ∧ value = additions D K w before k (cell K w k)
  | .unlock => array = additions D K w before 3
  | _ => False

/-- The thread `w` is through with `x.i` of its rounds. -/
structure Progress (N : ℕ) (order : List ℕ) (w : ℕ) (x : Worker α) : Prop where
  rounds : order.count w = x.i
  bound : x.i ≤ N
  busy : x.pc.inside ∨ x.pc = .lock → x.i < N
  ended : x.pc = .finished → x.i = N

/-- The invariant of the threads, after the sections of `order`. -/
structure Inv (D : Double α) (N K : ℕ) (s : Shared α) (threads : ℕ → Option (Worker α))
    (order : List ℕ) : Prop where
  free : s.mutex = none → s.array = sections D K order
  held : ∀ w, s.mutex = some w →
    ∃ x, threads w = some x ∧ Partly D K w (sections D K order) s.array x.pc
  inside : ∀ w x, threads w = some x → x.pc.inside → s.mutex = some w
  progress : ∀ w x, threads w = some x → w < K ∧ Progress N order w x
  absent : ∀ w, threads w = none → order.count w = 0

/-- The steps that a thread has before it. -/
def rank (N : ℕ) (_w : ℕ) (x : Worker α) : ℕ :=
  match x.pc with
  | .test => 10 * (N - x.i) + 1
  | .lock => 10 * (N - x.i)
  | .load k => 10 * (N - x.i) - 1 - 2 * k
  | .store k _ => 10 * (N - x.i) - 2 - 2 * k
  | .unlock => 10 * (N - x.i) - 7
  | .finished => 0

section Step
variable {s s' : Shared α} {threads : ℕ → Option (Worker α)} {x x' : Worker α} {order : List ℕ}

/-- What one step of a thread does. -/
theorem step_cases (h : step D N K w s x = some (s', x')) :
    (x.pc = .test ∧ s' = s ∧
        (x.i < N ∧ x' = ⟨.lock, x.i⟩ ∨ ¬ x.i < N ∧ x' = ⟨.finished, x.i⟩)) ∨
      (x.pc = .lock ∧ s.mutex = none ∧ s' = ⟨s.array, some w⟩ ∧ x' = ⟨.load 0, x.i⟩) ∨
      (∃ k, x.pc = .load k ∧ s' = s ∧ x' = ⟨.store k (s.array (cell K w k)), x.i⟩) ∨
      (∃ k value, x.pc = .store k value ∧
        s' = ⟨Function.update s.array (cell K w k) (D.add value (D.constant k)), s.mutex⟩ ∧
        x' = ⟨if k < 2 then .load (k + 1) else .unlock, x.i⟩) ∨
      (x.pc = .unlock ∧ s' = ⟨s.array, none⟩ ∧ x' = ⟨.test, x.i + 1⟩) := by
  obtain ⟨pc, i⟩ := x
  cases pc with
  | test =>
    simp only [step, Option.some.injEq, Prod.mk.injEq] at h
    obtain ⟨rfl, rfl⟩ := h
    by_cases hi : i < N
    · exact .inl ⟨rfl, rfl, .inl ⟨hi, by simp [hi]⟩⟩
    · exact .inl ⟨rfl, rfl, .inr ⟨hi, by simp [hi]⟩⟩
  | lock =>
    simp only [step, Option.ite_none_right_eq_some, Option.some.injEq, Prod.mk.injEq] at h
    obtain ⟨hfree, rfl, rfl⟩ := h
    exact .inr (.inl ⟨rfl, hfree, rfl, rfl⟩)
  | load k =>
    obtain ⟨rfl, rfl⟩ := Prod.mk.inj (Option.some.inj h)
    exact .inr (.inr (.inl ⟨k, rfl, rfl, rfl⟩))
  | store k value =>
    obtain ⟨rfl, rfl⟩ := Prod.mk.inj (Option.some.inj h)
    exact .inr (.inr (.inr (.inl ⟨k, value, rfl, rfl, rfl⟩)))
  | unlock =>
    obtain ⟨rfl, rfl⟩ := Prod.mk.inj (Option.some.inj h)
    exact .inr (.inr (.inr (.inr ⟨rfl, rfl, rfl⟩)))
  | finished => cases h

theorem shared_inv (D : Double α) (N K : ℕ) : Inv D N K (shared D) (fun _ => none) [] where
  free _ := rfl
  held _ h := by cases h
  inside _ _ h := by cases h
  progress _ _ h := by cases h
  absent _ _ := rfl

theorem Inv.start (h : Inv D N K s threads order) (hw : w < K) (hnone : threads w = none) :
    Inv D N K s (Function.update threads w (some ⟨.test, 0⟩)) order := by
  refine ⟨h.free, fun w' hw' => ?_, fun w' y hy hinside => ?_, fun w' y hy => ?_, fun w' hy => ?_⟩
  · obtain ⟨y, hy, hpartly⟩ := h.held w' hw'
    have hne : w' ≠ w := by
      rintro rfl
      simp [hnone] at hy
    exact ⟨y, by rw [Function.update_of_ne hne, hy], hpartly⟩
  · by_cases hne : w' = w
    · subst hne
      obtain rfl : ⟨.test, 0⟩ = y := by simpa using hy
      cases hinside
    · rw [Function.update_of_ne hne] at hy
      exact h.inside w' y hy hinside
  · by_cases hne : w' = w
    · subst hne
      obtain rfl : ⟨.test, 0⟩ = y := by simpa using hy
      exact ⟨hw, h.absent w' hnone, Nat.zero_le N, by simp [Pc.inside], by simp⟩
    · rw [Function.update_of_ne hne] at hy
      exact h.progress w' y hy
  · by_cases hne : w' = w
    · simp [hne] at hy
    · rw [Function.update_of_ne hne] at hy
      exact h.absent w' hy

/-- What a step of the thread `w` has to leave to the others. -/
theorem Inv.change {order' : List ℕ} (h : Inv D N K s threads order) (hx : threads w = some x)
    (hfree : s'.mutex = none → s'.array = sections D K order')
    (hmine : s'.mutex = some w → Partly D K w (sections D K order') s'.array x'.pc)
    (hinside : x'.pc.inside → s'.mutex = some w)
    (hheld : ∀ w' ≠ w, s'.mutex = some w' →
      s.mutex = some w' ∧ s'.array = s.array ∧ order' = order)
    (hkeep : ∀ w' ≠ w, s.mutex = some w' → s'.mutex = some w')
    (hcount : ∀ w' ≠ w, order'.count w' = order.count w')
    (hprogress : Progress N order' w x') :
    Inv D N K s' (Function.update threads w (some x')) order' := by
  refine ⟨hfree, fun w' hw' => ?_, fun w' y hy hy' => ?_, fun w' y hy => ?_, fun w' hy => ?_⟩
  · by_cases hne : w' = w
    · subst hne
      exact ⟨x', Function.update_self .., hmine hw'⟩
    · obtain ⟨hbefore, harray, rfl⟩ := hheld w' hne hw'
      obtain ⟨y, hy, hpartly⟩ := h.held w' hbefore
      exact ⟨y, by rw [Function.update_of_ne hne, hy], harray ▸ hpartly⟩
  · by_cases hne : w' = w
    · subst hne
      obtain rfl : x' = y := by simpa using hy
      exact hinside hy'
    · rw [Function.update_of_ne hne] at hy
      exact hkeep w' hne (h.inside w' y hy hy')
  · by_cases hne : w' = w
    · subst hne
      obtain rfl : x' = y := by simpa using hy
      exact ⟨(h.progress w' x hx).1, hprogress⟩
    · rw [Function.update_of_ne hne] at hy
      obtain ⟨hw', hrounds, hbound, hbusy, hended⟩ := h.progress w' y hy
      exact ⟨hw', (hcount w' hne).trans hrounds, hbound, hbusy, hended⟩
  · by_cases hne : w' = w
    · simp [hne] at hy
    · rw [Function.update_of_ne hne] at hy
      exact (hcount w' hne).trans (h.absent w' hy)

/-- The thread that has the mutex is the one that is in its section. -/
theorem Inv.partly (h : Inv D N K s threads order) (hx : threads w = some x)
    (hmutex : s.mutex = some w) : Partly D K w (sections D K order) s.array x.pc := by
  obtain ⟨y, hy, hpartly⟩ := h.held w hmutex
  obtain rfl : x = y := Option.some.inj (hx ▸ hy)
  exact hpartly

/-- A step within a section. -/
theorem Inv.within (h : Inv D N K s threads order) (hx : threads w = some x)
    (hbefore : x.pc.inside) (hmutex : s'.mutex = s.mutex) (hafter : x'.pc.inside) (hi : x'.i = x.i)
    (hpartly : Partly D K w (sections D K order) s'.array x'.pc) :
    Inv D N K s' (Function.update threads w (some x')) order := by
  have hw := h.inside w x hx hbefore
  obtain ⟨_, hrounds, hbound, hbusy, _⟩ := h.progress w x hx
  refine h.change hx (fun hnone => ?_) (fun _ => hpartly) (fun _ => hmutex.trans hw)
    (fun w' hne hw' => ?_) (fun w' hne hw' => ?_) (fun _ _ => rfl) ⟨hi ▸ hrounds, hi ▸ hbound,
      fun _ => hi ▸ hbusy (.inl hbefore), fun hpc => ?_⟩
  · rw [hmutex, hw] at hnone
    cases hnone
  · rw [hmutex, hw, Option.some.injEq] at hw'
    exact absurd hw'.symm hne
  · rw [hw, Option.some.injEq] at hw'
    exact absurd hw'.symm hne
  · rw [hpc] at hafter
    cases hafter

theorem Inv.step (h : Inv D N K s threads order) (hx : threads w = some x)
    (hstep : step D N K w s x = some (s', x')) :
    (∃ order', Inv D N K s' (Function.update threads w (some x')) order') ∧
      rank N w x' < rank N w x := by
  obtain ⟨hw, hrounds, hbound, hbusy, _⟩ := h.progress w x hx
  rcases step_cases hstep with ⟨hpc, rfl, hcases⟩ | ⟨hpc, hfree, rfl, rfl⟩ | ⟨k, hpc, rfl, rfl⟩ |
    ⟨k, value, hpc, rfl, rfl⟩ | ⟨hpc, rfl, rfl⟩
  · have hoff : s'.mutex ≠ some w := by
      intro hmutex
      have hpartly := h.partly hx hmutex
      simp [hpc, Partly] at hpartly
    have hquiet : x'.pc.inside = false ∧ Progress N order w x' := by
      rcases hcases with ⟨hi, rfl⟩ | ⟨hi, rfl⟩
      · exact ⟨rfl, hrounds, hbound, fun _ => hi, nofun⟩
      · exact ⟨rfl, hrounds, hbound, by simp [Pc.inside], fun _ => Nat.le_antisymm hbound (not_lt.mp hi)⟩
    refine ⟨⟨order, h.change hx h.free (fun hmutex => absurd hmutex hoff) ?_
      (fun _ _ hw' => ⟨hw', rfl, rfl⟩) (fun _ _ hw' => hw') (fun _ _ => rfl) hquiet.2⟩, ?_⟩
    · simp [hquiet.1]
    · rcases hcases with ⟨hi, rfl⟩ | ⟨hi, rfl⟩ <;> simp [rank, hpc]
  · have hi : x.i < N := hbusy (.inr hpc)
    refine ⟨⟨order, h.change hx nofun (fun _ => ⟨by decide, h.free hfree⟩) (fun _ => rfl)
      (fun w' hne hw' => absurd (Option.some.inj hw').symm hne) (fun w' _ hw' => ?_)
      (fun _ _ => rfl) ⟨hrounds, hbound, fun _ => hi, nofun⟩⟩, ?_⟩
    · rw [hfree] at hw'
      cases hw'
    · simp only [rank, hpc]
      omega
  · have hinside : x.pc.inside := by rw [hpc]; rfl
    have hi := hbusy (.inl hinside)
    have hpartly := h.partly hx (h.inside w x hx hinside)
    rw [hpc] at hpartly
    obtain ⟨hk, harray⟩ := hpartly
    refine ⟨⟨order, h.within hx hinside rfl rfl rfl ⟨hk, harray, by rw [harray]⟩⟩, ?_⟩
    simp only [rank, hpc]
    omega
  · have hinside : x.pc.inside := by rw [hpc]; rfl
    have hi := hbusy (.inl hinside)
    have hpartly := h.partly hx (h.inside w x hx hinside)
    rw [hpc] at hpartly
    obtain ⟨hk, harray, hvalue⟩ := hpartly
    -- the array is as it was when the cell was read
    have hnext : Function.update s.array (cell K w k) (D.add value (D.constant k)) =
        additions D K w (sections D K order) (k + 1) := by
      rw [harray, hvalue]
      rfl
    by_cases hlast : k < 2
    · refine ⟨⟨order, h.within hx hinside rfl (by simp [hlast, Pc.inside]) rfl ?_⟩, ?_⟩
      · simp only [hlast, ↓reduceIte]
        exact ⟨by omega, hnext⟩
      · simp only [rank, hpc, hlast, ↓reduceIte]
        omega
    · obtain rfl : k = 2 := by omega
      refine ⟨⟨order, h.within hx hinside rfl rfl rfl hnext⟩, ?_⟩
      simp only [rank, hpc, Nat.lt_irrefl, ↓reduceIte]
      omega
  · have hinside : x.pc.inside := by rw [hpc]; rfl
    have hi := hbusy (.inl hinside)
    have hmutex := h.inside w x hx hinside
    have hpartly := h.partly hx hmutex
    rw [hpc] at hpartly
    refine ⟨⟨order ++ [w], h.change hx (fun _ => ?_) nofun nofun nofun (fun w' hne hw' => ?_)
      (fun w' hne => ?_) ⟨?_, hi, by simp [Pc.inside], nofun⟩⟩, ?_⟩
    · rw [sections, List.foldl_append]
      exact hpartly
    · rw [hmutex, Option.some.injEq] at hw'
      exact absurd hw'.symm hne
    · simp [hne.symm]
    · simp [hrounds]
    · simp only [rank, hpc]
      omega

theorem rules (D : Double α) (N K : ℕ) :
    Rules (program D N K) (fun s threads => ∃ order, Inv D N K s threads order) (rank N) where
  start := by
    rintro s threads w ⟨order, h⟩ hw hnone
    exact ⟨order, h.start hw hnone⟩
  step := by
    rintro s threads w x action s' x' ⟨order, h⟩ hx hstep
    exact h.step hx hstep
  stays := by
    intro w s x action hdone
    cases hpc : x.pc <;> simp [program, MutexRing.step, Pc.isFinished, hpc] at hdone ⊢
  moves := by
    rintro s threads w x ⟨order, h⟩ hx hdone
    have hsection : ∀ {w x}, threads w = some x → x.pc.inside →
        ∃ j y action, threads j = some y ∧ ((program D N K).step j s y action).isSome := by
      intro w x hx hinside
      refine ⟨w, x, (), hx, ?_⟩
      cases hpc : x.pc <;> simp [program, MutexRing.step, Pc.inside, hpc] at hinside ⊢
    cases hpc : x.pc with
    | test => exact ⟨w, x, (), hx, by simp [program, MutexRing.step, hpc]⟩
    | lock =>
      cases hmutex : s.mutex with
      | none => exact ⟨w, x, (), hx, by simp [program, MutexRing.step, hpc, hmutex]⟩
      | some w' =>
        obtain ⟨y, hy, hpartly⟩ := h.held w' hmutex
        refine hsection hy ?_
        cases hpc' : y.pc <;> simp [Partly, Pc.inside, hpc'] at hpartly ⊢
    | load k => exact hsection hx (by rw [hpc]; rfl)
    | store k value => exact hsection hx (by rw [hpc]; rfl)
    | unlock => exact hsection hx (by rw [hpc]; rfl)
    | finished => exact absurd (by simp [program, Pc.isFinished, hpc]) hdone

end Step
section Cells
variable {j : ℕ} {order : List ℕ}

theorem cell_zero (hw : w < K) : cell K w 0 = if w = 0 then K - 1 else w - 1 := by
  rw [cell, if_pos rfl]
  split_ifs with hzero
  · rw [hzero, Nat.zero_add]
    exact Nat.mod_eq_of_lt (by omega)
  · rw [show w + K - 1 = w - 1 + K by omega, Nat.add_mod_right]
    exact Nat.mod_eq_of_lt (by omega)

theorem cell_two (hw : w < K) : cell K w 2 = if w + 1 = K then 0 else w + 1 := by
  rw [cell, if_neg (by decide), if_neg (by decide), show w + K + 1 = w + 1 + K by omega,
    Nat.add_mod_right]
  split_ifs with hlast
  · rw [hlast, Nat.mod_self]
  · exact Nat.mod_eq_of_lt (by omega)

theorem cell_lt (hw : w < K) : cell K w k < K := by
  unfold cell
  split_ifs
  · exact Nat.mod_lt _ (by omega)
  · exact hw
  · exact Nat.mod_lt _ (by omega)

/-- Each addition to a cell is that of one thread. -/
theorem cell_eq_iff (hw : w < K) (hj : j < K) (hk : k < 3) :
    cell K w k = j ↔ w = cell K j (2 - k) := by
  have hone : ∀ i, cell K i 1 = i := fun i => rfl
  interval_cases k
  · rw [cell_zero hw, cell_two hj]
    split_ifs <;> omega
  · rw [hone, hone]
  · rw [cell_two hw, cell_zero hj]
    split_ifs <;> omega

/-- The additions to the cell `j` in these sections. -/
def constantsOf (K j : ℕ) (order : List ℕ) : List ℕ :=
  order.flatMap fun w => (List.range 3).filter fun k => cell K w k = j

theorem additions_cell (D : Double α) (K w j : ℕ) (array : ℕ → α) (k : ℕ) :
    additions D K w array k j = ((List.range k).filter fun k => cell K w k = j).foldl
      (fun value k => D.add value (D.constant k)) (array j) := by
  induction k with
  | zero => rfl
  | succ k ih =>
    rw [List.range_succ, List.filter_append, List.foldl_append, ← ih, additions]
    by_cases hcell : cell K w k = j
    · simp [hcell]
    · simp [hcell, Ne.symm hcell]

theorem sections_cell (D : Double α) (K j : ℕ) (order : List ℕ) :
    sections D K order j = added D (constantsOf K j order) := by
  have hgen : ∀ array : ℕ → α,
      order.foldl (fun array w => additions D K w array 3) array j =
        (constantsOf K j order).foldl (fun value k => D.add value (D.constant k)) (array j) := by
    induction order with
    | nil => exact fun array => rfl
    | cons w order ih =>
      intro array
      rw [constantsOf, List.flatMap_cons, List.foldl_append, ← additions_cell]
      exact ih _
  exact hgen _

theorem count_constantsOf (hj : j < K) (hk : k < 3) (horder : ∀ w ∈ order, w < K) :
    (constantsOf K j order).count k = order.count (cell K j (2 - k)) := by
  induction order with
  | nil => rfl
  | cons w order ih =>
    have hw := horder w List.mem_cons_self
    have hrest := ih fun w hw => horder w (List.mem_cons_of_mem _ hw)
    have hone : ((List.range 3).filter fun k => cell K w k = j).count k =
        if cell K w k = j then 1 else 0 := by
      rw [List.Nodup.count (List.nodup_range.filter _)]
      simp [hk]
    simp only [constantsOf] at hrest
    rw [constantsOf, List.flatMap_cons, List.count_append, hrest, hone, List.count_cons, Nat.add_comm]
    simp [cell_eq_iff hw hj hk]

theorem constantsOf_perm (hj : j < K) (horder : ∀ w ∈ order, w < K)
    (hcount : ∀ w < K, order.count w = N) : (constantsOf K j order).Perm
      (List.replicate N 0 ++ List.replicate N 1 ++ List.replicate N 2) := by
  rw [List.perm_iff_count]
  intro k
  by_cases hk : k < 3
  · rw [count_constantsOf hj hk horder, hcount _ (cell_lt hj)]
    interval_cases k <;> simp [List.count_replicate]
  · have hnone : k ∉ constantsOf K j order := by
      simp only [constantsOf, List.mem_flatMap, List.mem_filter, List.mem_range]
      rintro ⟨w, _, hlt, _⟩
      exact hk hlt
    rw [List.count_eq_zero_of_not_mem hnone]
    have hne : 0 ≠ k ∧ 1 ≠ k ∧ 2 ≠ k := by omega
    simp [List.count_replicate, hne]

end Cells

/-- Whatever the order of the steps: the threads come to their end, the array is that of their
sections one after the other, and each constant is added `N` times to every cell. -/
theorem inevitably_serial (D : Double α) (N K : ℕ) :
    Inevitably (next (program D N K)) (fun s => s.Joined (program D N K) ∧ s.shared.mutex = none ∧
      ∃ order, (∀ w < K, order.count w = N) ∧ (∀ w ∈ order, w < K) ∧
        s.shared.array = sections D K order ∧ ∀ j < K, ∃ constants, constants.Perm
          (List.replicate N 0 ++ List.replicate N 1 ++ List.replicate N 2) ∧
          s.shared.array j = added D constants) (initial (shared D)) := by
  refine ((rules D N K).inevitably_joined ⟨[], shared_inv D N K⟩).mono ?_
  rintro s ⟨hjoined, order, hs⟩
  have hfinished : ∀ w < K, ∃ x, s.threads w = some x ∧ x.pc = .finished := by
    intro w hw
    obtain ⟨x, hx, hdone⟩ := hjoined.2 w hw
    refine ⟨x, hx, ?_⟩
    cases hpc : x.pc <;> simp [program, Pc.isFinished, hpc] at hdone ⊢
  have hfree : s.shared.mutex = none := by
    cases hmutex : s.shared.mutex with
    | none => rfl
    | some w =>
      obtain ⟨x, hx, hpartly⟩ := hs.held w hmutex
      obtain ⟨y, hy, hpc⟩ := hfinished w (hs.progress w x hx).1
      obtain rfl : x = y := Option.some.inj (hx ▸ hy)
      simp [hpc, Partly] at hpartly
  have hcount : ∀ w < K, order.count w = N := by
    intro w hw
    obtain ⟨x, hx, hpc⟩ := hfinished w hw
    obtain ⟨_, hrounds, _, _, hended⟩ := hs.progress w x hx
    exact hrounds.trans (hended hpc)
  have horder : ∀ w ∈ order, w < K := by
    intro w hw
    cases hx : s.threads w with
    | none => exact absurd hw (List.count_eq_zero.mp (hs.absent w hx))
    | some x => exact (hs.progress w x hx).1
  refine ⟨hjoined, hfree, order, hcount, horder, hs.free hfree, fun j hj => ?_⟩
  exact ⟨constantsOf K j order, constantsOf_perm hj horder hcount,
    (congrFun (hs.free hfree) j).trans (sections_cell D K j order)⟩

end Acos.MutexRing
