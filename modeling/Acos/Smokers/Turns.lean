import Acos.Lib.Transition
import Acos.Smokers.Model
import Mathlib.Data.List.Infix

/-! Before the shutdown: one token goes from the parent to a smoker and back, and its place says
what has been printed. -/
namespace Acos.Smokers
open Acos.CString Acos.Transition

section Smoker

/-- The tokens at a smoker: in its semaphore, in its hands, in the semaphore for the parent. -/
def Smoker.token (me : Smoker) : ℕ := me.sem + (if me.pc.inside then 1 else 0) + me.done

/-- It has a token and has not yet printed its line. -/
def Smoker.owes (me : Smoker) : Bool := 0 < me.sem || me.pc = .check || me.pc = .print

/-- No signal has come. -/
structure Smoker.Working (me : Smoker) : Prop where
  kick_out : me.kick_out = false
  pending : me.pending = false
  alive : me.pc ≠ .exit ∧ me.pc ≠ .dead

theorem Smoker.Working.step {me me' : Smoker} {prints : Bool} (h : me.Working)
    (htoken : me.token ≤ 1) (hstep : me.step = some (me', prints)) :
    me'.Working ∧ me'.token = me.token ∧ me'.pc ≠ .absent ∧
      me'.owes = (me.owes && !prints) ∧ (prints = true → me.owes = true) := by
  obtain ⟨pc, kick_out, pending, sem, done⟩ := me
  obtain ⟨hkick, hpending, halive⟩ := h
  simp only at hkick hpending halive
  subst hkick hpending
  unfold Smoker.token at htoken
  cases pc with
  | absent => cases hstep
  | sigaction =>
    cases hstep
    exact ⟨⟨rfl, rfl, by simp⟩, rfl, by simp, by simp [Smoker.owes], by simp⟩
  | test =>
    cases hstep
    exact ⟨⟨rfl, rfl, by simp⟩, rfl, by simp, by simp [Smoker.owes], by simp⟩
  | wait =>
    simp only [Smoker.step] at hstep
    split_ifs at hstep with hsem
    · cases hstep
      refine ⟨⟨rfl, rfl, by simp⟩, ?_, by simp, by simp [Smoker.owes, hsem], by simp⟩
      simp [Smoker.token, SmokerPc.inside]
      omega
    · cases hstep
      exact ⟨⟨rfl, rfl, by simp⟩, rfl, by simp, by simp [Smoker.owes], by simp⟩
  | blocked =>
    simp only [Smoker.step] at hstep
    split_ifs at hstep with hsem
    cases hstep
    refine ⟨⟨rfl, rfl, by simp⟩, ?_, by simp, by simp [Smoker.owes, hsem], by simp⟩
    simp [Smoker.token, SmokerPc.inside]
    omega
  | check =>
    cases hstep
    exact ⟨⟨rfl, rfl, by simp⟩, rfl, by simp, by simp [Smoker.owes], by simp⟩
  | print =>
    cases hstep
    have hsem : sem = 0 := by
      simp [SmokerPc.inside] at htoken
      omega
    exact ⟨⟨rfl, rfl, by simp⟩, rfl, by simp, by simp [Smoker.owes, hsem], by simp [Smoker.owes]⟩
  | post =>
    cases hstep
    refine ⟨⟨rfl, rfl, by simp⟩, ?_, by simp, by simp [Smoker.owes], by simp⟩
    simp [Smoker.token, SmokerPc.inside]
    omega
  | exit => exact absurd rfl halive.1
  | dead => exact absurd rfl halive.2

/-- A smoker with a token can go on, or has given it back. -/
theorem Smoker.Working.step_of_token {me : Smoker} (h : me.Working) (hforked : me.pc ≠ .absent)
    (htoken : me.token = 1) (hdone : me.done = 0) : ∃ r, me.step = some r := by
  unfold Smoker.token at htoken
  cases hpc : me.pc with
  | absent => exact absurd hpc hforked
  | blocked =>
    have hsem : 0 < me.sem := by
      simp [hpc, SmokerPc.inside] at htoken
      omega
    exact ⟨_, by rw [Smoker.step, hpc]; exact if_pos hsem⟩
  | wait =>
    rw [Smoker.step, hpc]
    simp only
    split_ifs
    · exact ⟨_, rfl⟩
    · exact ⟨_, rfl⟩
  | exit => exact absurd hpc h.alive.1
  | dead => exact absurd hpc h.alive.2
  | sigaction => exact ⟨_, by rw [Smoker.step, hpc]⟩
  | test => exact ⟨_, by rw [Smoker.step, hpc]⟩
  | check => exact ⟨_, by rw [Smoker.step, hpc]⟩
  | print => exact ⟨_, by rw [Smoker.step, hpc]⟩
  | post => exact ⟨_, by rw [Smoker.step, hpc]⟩

end Smoker

/-- What has been handed out and not been printed. -/
def State.owed (s : State) : Bytes :=
  match s.parent with
  | .post i => [types i]
  | .waitDone i => if (s.smokers i).owes then [types i] else []
  | _ => []

/-- How many tokens are at smoker `i`: one while the parent waits for it. -/
def ParentPc.tokens : ParentPc → ℕ → ℕ
  | .waitDone k, i => if i = k then 1 else 0
  | _, _ => 0

/-- One smoker has the token while the parent waits for it, and no one else ever does. -/
structure Inv (input₀ : Bytes) (s : State) : Prop where
  working : ∀ i, (s.smokers i).Working
  forked : ∀ i < n_smokers, (s.smokers i).pc = .absent → ∃ k, s.parent = .fork k ∧ k ≤ i
  turn : ∀ i, s.parent = .post i ∨ s.parent = .waitDone i → i < n_smokers
  token : ∀ i, (s.smokers i).token = s.parent.tokens i
  printed : lines input₀ = s.printed ++ s.owed ++ lines s.input

theorem inv_initial (input : Bytes) : Inv input (initial input) where
  working := fun _ => ⟨rfl, rfl, by simp [initial, Smoker.absent]⟩
  forked := fun i _ _ => ⟨0, rfl, Nat.zero_le i⟩
  turn := by
    intro i h
    rcases h with h | h <;> cases h
  token := fun _ => rfl
  printed := rfl

theorem smokerOf_lt {action : UInt8} {i : ℕ} (h : smokerOf action = some i) : i < n_smokers := by
  unfold smokerOf at h
  unfold n_smokers
  split_ifs at h <;> cases h <;> omega

theorem lines_cons (action : UInt8) (input : Bytes) : lines (action :: input) =
    ((smokerOf action).map types).toList ++ lines input := by
  unfold lines smokerOf
  by_cases h₁ : action = 116
  · simp [h₁, types]
  · by_cases h₂ : action = 112
    · simp [h₂, types]
    · by_cases h₃ : action = 109
      · simp [h₃, types]
      · simp [h₁, h₂, h₃]

section Step
variable {input₀ : Bytes} {s t : State}

@[simp] theorem set_smokers (s : State) (i j : ℕ) (smoker : Smoker) :
    (s.set i smoker).smokers j = if j = i then smoker else s.smokers j := by
  simp [State.set, Function.update_apply]

@[simp] theorem set_parent (s : State) (i : ℕ) (smoker : Smoker) :
    (s.set i smoker).parent = s.parent := rfl

@[simp] theorem set_input (s : State) (i : ℕ) (smoker : Smoker) :
    (s.set i smoker).input = s.input := rfl

@[simp] theorem set_printed (s : State) (i : ℕ) (smoker : Smoker) :
    (s.set i smoker).printed = s.printed := rfl

/-- Without a token there is nothing to print. -/
theorem Smoker.owes_of_token {me : Smoker} (h : me.token = 0) : me.owes = false := by
  unfold Smoker.token at h
  unfold Smoker.owes
  have hsem : me.sem = 0 := by omega
  cases hpc : me.pc <;> simp [hpc, hsem, SmokerPc.inside] at h ⊢

/-- A token that has come back to the parent's semaphore. -/
theorem Smoker.owes_of_done {me : Smoker} (h : me.token = 1) (hdone : 0 < me.done) :
    me.owes = false ∧ ({ me with done := me.done - 1 } : Smoker).token = 0 := by
  have hzero : ({ me with done := me.done - 1 } : Smoker).token = 0 := by
    unfold Smoker.token at h ⊢
    dsimp only
    omega
  have howes : me.owes = ({ me with done := me.done - 1 } : Smoker).owes := rfl
  exact ⟨howes.trans (Smoker.owes_of_token hzero), hzero⟩

theorem Inv.token_le (h : Inv input₀ s) (i : ℕ) : (s.smokers i).token ≤ 1 := by
  rw [h.token i]
  unfold ParentPc.tokens
  split
  · split_ifs <;> omega
  · omega

theorem Inv.smoker (h : Inv input₀ s) {i : ℕ} (hstep : next s (.smoker i) = some t) :
    Inv input₀ t := by
  obtain ⟨⟨me, prints⟩, hme, rfl⟩ := Option.map_eq_some_iff.mp hstep
  obtain ⟨hworking, htoken, hpc, howes, hprints⟩ := (h.working i).step (h.token_le i) hme
  refine ⟨fun j => ?_, fun j hj hj' => ?_, h.turn, fun j => ?_, ?_⟩
  · by_cases hij : j = i
    · simpa [hij] using hworking
    · simpa [hij] using h.working j
  · by_cases hij : j = i
    · simp [hij, hpc] at hj'
    · exact h.forked j hj (by simpa [hij] using hj')
  · by_cases hij : j = i
    · rw [hij, set_smokers, if_pos rfl, htoken]
      exact h.token i
    · rw [set_smokers, if_neg hij]
      exact h.token j
  · have hold := h.printed
    unfold State.owed at hold ⊢
    simp only [set_parent, set_input]
    by_cases hturn : s.parent = .waitDone i
    · simp only [hturn, set_smokers, ↓reduceIte, howes] at hold ⊢
      cases prints with
      | false => simpa using hold
      | true =>
        rw [hprints rfl] at hold
        simpa using hold
    · have hnot : prints = false := by
        have hzero : (s.smokers i).token = 0 := by
          rw [h.token i]
          cases hparent : s.parent with
          | waitDone j =>
            have hij : ¬ i = j := fun heq => hturn (heq ▸ hparent)
            simp [ParentPc.tokens, hij]
          | _ => rfl
        rw [Smoker.owes_of_token hzero] at hprints
        simpa using hprints
      rw [hnot]
      cases hparent : s.parent with
      | waitDone j =>
        have hij : ¬ j = i := fun heq => hturn (heq ▸ hparent)
        simpa [hparent, hij] using hold
      | _ => simpa [hparent] using hold

/-- The smoker that the parent has just forked is at its first action. -/
theorem Inv.fork (h : Inv input₀ s) {k : ℕ} (hparent : s.parent = .fork k) :
    Inv input₀ { s.set k ⟨.sigaction, false, false, 0, 0⟩ with parent := .fork (k + 1) } := by
  have hold := h.printed
  have htoken := h.token
  simp only [State.owed, hparent] at hold htoken
  refine ⟨fun j => ?_, fun j hj hj' => ?_, by simp, fun j => ?_, by simpa [State.owed] using hold⟩
  · by_cases hjk : j = k
    · simpa [hjk] using ⟨rfl, rfl, by simp⟩
    · simpa [hjk] using h.working j
  · by_cases hjk : j = k
    · simp [hjk] at hj'
    · obtain ⟨l, hl, hle⟩ := h.forked j hj (by simpa [hjk] using hj')
      rw [hparent] at hl
      cases hl
      exact ⟨k + 1, rfl, by omega⟩
  · by_cases hjk : j = k
    · simp [hjk, Smoker.token, SmokerPc.inside, ParentPc.tokens]
    · simpa [hjk, ParentPc.tokens] using htoken j

theorem Inv.forks_over (h : Inv input₀ s) {k : ℕ} (hparent : s.parent = .fork k)
    (hk : ¬ k < n_smokers) : Inv input₀ { s with parent := .read } := by
  have hold := h.printed
  have htoken := h.token
  simp only [State.owed, hparent] at hold htoken
  refine ⟨h.working, fun j hj hj' => ?_, by simp, fun j => ?_, by simpa [State.owed] using hold⟩
  · obtain ⟨l, hl, hle⟩ := h.forked j hj hj'
    rw [hparent] at hl
    cases hl
    omega
  · simpa [ParentPc.tokens] using htoken j

/-- All smokers are there once the parent reads its input. -/
theorem Inv.not_absent (h : Inv input₀ s) (hparent : ∀ k, s.parent ≠ .fork k) {j : ℕ}
    (hj : j < n_smokers) : (s.smokers j).pc ≠ .absent := by
  intro habsent
  obtain ⟨k, hk, -⟩ := h.forked j hj habsent
  exact hparent k hk

theorem Inv.read (h : Inv input₀ s) (hparent : s.parent = .read) {action : UInt8} {input : Bytes}
    (hinput : s.input = action :: input) :
    Inv input₀ { s with
      input := input
      parent := match smokerOf action with
        | some i => .post i
        | none => .read } := by
  have hold := h.printed
  have htoken := h.token
  have hforked := @Inv.not_absent _ _ h (by simp [hparent])
  simp only [State.owed, hparent, hinput, lines_cons] at hold htoken
  cases haction : smokerOf action with
  | none =>
    refine ⟨h.working, fun j hj hj' => absurd hj' (hforked hj), by simp, htoken, ?_⟩
    simpa [State.owed, haction] using hold
  | some i =>
    refine ⟨h.working, fun j hj hj' => absurd hj' (hforked hj), fun j hj => ?_, fun j => ?_, ?_⟩
    · rcases hj with hj | hj <;> cases hj
      exact smokerOf_lt haction
    · simpa [ParentPc.tokens] using htoken j
    · simpa [State.owed, haction] using hold

theorem Inv.post (h : Inv input₀ s) {i : ℕ} (hparent : s.parent = .post i) :
    Inv input₀ { s.set i { s.smokers i with sem := (s.smokers i).sem + 1 } with
      parent := .waitDone i } := by
  have hold := h.printed
  have htoken := h.token
  have hworking := h.working i
  have hforked := @Inv.not_absent _ _ h (by simp [hparent])
  simp only [State.owed, hparent] at hold htoken
  refine ⟨fun j => ?_, fun j hj hj' => ?_, fun j hj => ?_, fun j => ?_, ?_⟩
  · by_cases hij : j = i
    · simpa [hij] using ⟨hworking.kick_out, hworking.pending, hworking.alive⟩
    · simpa [hij] using h.working j
  · by_cases hij : j = i
    · exact absurd (by simpa [hij] using hj') (hforked (hij ▸ hj))
    · exact absurd (by simpa [hij] using hj') (hforked hj)
  · rcases hj with hj | hj <;> cases hj
    exact h.turn i (.inl hparent)
  · by_cases hij : j = i
    · have hzero := htoken i
      simp only [Smoker.token, ParentPc.tokens] at hzero
      simp [hij, Smoker.token, ParentPc.tokens]
      omega
    · simpa [hij, ParentPc.tokens] using htoken j
  · simpa [State.owed, Smoker.owes] using hold

theorem Inv.waitDone (h : Inv input₀ s) {i : ℕ} (hparent : s.parent = .waitDone i)
    (hdone : 0 < (s.smokers i).done) :
    Inv input₀ { s.set i { s.smokers i with done := (s.smokers i).done - 1 } with
      parent := .read } := by
  have hold := h.printed
  have htoken := h.token
  have hworking := h.working i
  have hforked := @Inv.not_absent _ _ h (by simp [hparent])
  simp only [State.owed, hparent] at hold htoken
  have hone : (s.smokers i).token = 1 := by simpa [ParentPc.tokens] using htoken i
  obtain ⟨howes, hzero⟩ := Smoker.owes_of_done hone hdone
  refine ⟨fun j => ?_, fun j hj hj' => ?_, by simp, fun j => ?_, ?_⟩
  · by_cases hij : j = i
    · simpa [hij] using ⟨hworking.kick_out, hworking.pending, hworking.alive⟩
    · simpa [hij] using h.working j
  · by_cases hij : j = i
    · exact absurd (by simpa [hij] using hj') (hforked (hij ▸ hj))
    · exact absurd (by simpa [hij] using hj') (hforked hj)
  · by_cases hij : j = i
    · simpa [hij, ParentPc.tokens] using hzero
    · simpa [hij, ParentPc.tokens] using htoken j
  · simpa [State.owed, howes] using hold

theorem Inv.parent (h : Inv input₀ s) (hstep : next s .parent = some t)
    (hbefore : t.parent.BeforeShutdown) : Inv input₀ t := by
  simp only [next, parentStep] at hstep
  cases hparent : s.parent with
  | fork k =>
    simp only [hparent] at hstep
    split_ifs at hstep with hk <;> cases hstep
    · exact h.fork hparent
    · exact h.forks_over hparent hk
  | read =>
    simp only [hparent] at hstep
    cases hinput : s.input with
    | nil =>
      rw [hinput] at hstep
      cases hstep
      exact absurd hbefore (by simp [ParentPc.BeforeShutdown])
    | cons action input =>
      have hread := h.read hparent hinput
      rw [hinput] at hstep
      cases haction : smokerOf action <;> simp only [haction] at hstep hread <;> cases hstep <;>
        exact hread
  | post i =>
    simp only [hparent] at hstep
    cases hstep
    exact h.post hparent
  | waitDone i =>
    simp only [hparent] at hstep
    split_ifs at hstep with hdone
    cases hstep
    exact h.waitDone hparent hdone
  | kill k =>
    simp only [hparent] at hstep
    split_ifs at hstep <;> cases hstep <;> exact absurd hbefore (by simp [ParentPc.BeforeShutdown])
  | waitpid k =>
    simp only [hparent] at hstep
    split_ifs at hstep <;> cases hstep <;> exact absurd hbefore (by simp [ParentPc.BeforeShutdown])
  | returned =>
    simp only [hparent] at hstep
    cases hstep

theorem Inv.step (h : Inv input₀ s) {l : Label} (hstep : next s l = some t)
    (hbefore : t.parent.BeforeShutdown) : Inv input₀ t := by
  cases l with
  | parent => exact h.parent hstep hbefore
  | smoker i => exact h.smoker hstep
  | deliver i =>
    obtain ⟨me, hme, -⟩ := Option.map_eq_some_iff.mp hstep
    simp [Smoker.deliver, (h.working i).pending] at hme

/-- Once the parent sends signals it does nothing else any more. -/
theorem before_of_next {l : Label} (hstep : next s l = some t) (h : t.parent.BeforeShutdown) :
    s.parent.BeforeShutdown := by
  cases l with
  | parent =>
    simp only [next, parentStep] at hstep
    cases hparent : s.parent with
    | kill k =>
      simp only [hparent] at hstep
      split_ifs at hstep <;> cases hstep <;> exact absurd h (by simp [ParentPc.BeforeShutdown])
    | waitpid k =>
      simp only [hparent] at hstep
      split_ifs at hstep <;> cases hstep <;> exact absurd h (by simp [ParentPc.BeforeShutdown])
    | returned => simp [hparent] at hstep
    | _ => trivial
  | smoker i =>
    obtain ⟨r, -, rfl⟩ := Option.map_eq_some_iff.mp hstep
    exact h
  | deliver i =>
    obtain ⟨me, -, rfl⟩ := Option.map_eq_some_iff.mp hstep
    exact h

theorem inv_of_reachable (h : Reachable next (initial input₀) s)
    (hbefore : s.parent.BeforeShutdown) : Inv input₀ s := by
  have hinv : s.parent.BeforeShutdown → Inv input₀ s := by
    apply Reachable.invariant _ (fun _ => inv_initial input₀) h
    intro s l t hs hstep ht
    exact (hs (before_of_next hstep ht)).step hstep ht
  exact hinv hbefore

/-- Two smokers are never both between `sem_wait` and `sem_post`. -/
theorem Inv.inside_unique (h : Inv input₀ s) {i j : ℕ} (hi : (s.smokers i).pc.inside = true)
    (hj : (s.smokers j).pc.inside = true) : i = j := by
  have hone {k : ℕ} (hk : (s.smokers k).pc.inside = true) : s.parent = .waitDone k := by
    have htoken := h.token k
    unfold Smoker.token at htoken
    rw [hk, if_pos rfl] at htoken
    cases hparent : s.parent with
    | waitDone l =>
      simp only [hparent, ParentPc.tokens] at htoken
      split_ifs at htoken with hkl
      · rw [hkl]
      · omega
    | _ =>
      simp only [hparent, ParentPc.tokens] at htoken
      omega
  have hboth := (hone hi).symm.trans (hone hj)
  cases hboth
  rfl

/-- The parent can go on, or the smoker that it waits for can. -/
theorem Inv.progress (h : Inv input₀ s) (hbefore : s.parent.BeforeShutdown) :
    ∃ l t, next s l = some t := by
  cases hparent : s.parent with
  | fork k =>
    refine ⟨.parent, ?_⟩
    simp only [next, parentStep, hparent]
    split_ifs
    · exact ⟨_, rfl⟩
    · exact ⟨_, rfl⟩
  | read =>
    refine ⟨.parent, ?_⟩
    simp only [next, parentStep, hparent]
    cases s.input with
    | nil => exact ⟨_, rfl⟩
    | cons action input =>
      cases haction : smokerOf action <;> simp only [haction] <;> exact ⟨_, rfl⟩
  | post i =>
    refine ⟨.parent, ?_⟩
    simp only [next, parentStep, hparent]
    exact ⟨_, rfl⟩
  | waitDone i =>
    by_cases hdone : 0 < (s.smokers i).done
    · refine ⟨.parent, ?_⟩
      simp only [next, parentStep, hparent, if_pos hdone]
      exact ⟨_, rfl⟩
    · have hforked := h.not_absent (by simp [hparent]) (h.turn i (.inr hparent))
      have htoken : (s.smokers i).token = 1 := by simp [h.token, hparent, ParentPc.tokens]
      obtain ⟨r, hr⟩ := (h.working i).step_of_token hforked htoken (by omega)
      exact ⟨.smoker i, _, by rw [next, hr]; rfl⟩
  | _ =>
    rw [hparent] at hbefore
    exact absurd hbefore (by simp [ParentPc.BeforeShutdown])

end Step

/-- Before the shutdown the lines come in the order of the input, one smoker smokes at a time, and
the processes are never all blocked. -/
theorem smokers_take_turns {input : Bytes} {s : State} (h : Reachable next (initial input) s)
    (hbefore : s.parent.BeforeShutdown) :
    s.printed <+: lines input ∧
      (∀ i j, (s.smokers i).pc.inside = true → (s.smokers j).pc.inside = true → i = j) ∧
      ∃ l t, next s l = some t := by
  have hinv := inv_of_reachable h hbefore
  refine ⟨?_, fun i j => hinv.inside_unique, hinv.progress hbefore⟩
  rw [hinv.printed, List.append_assoc]
  exact List.prefix_append _ _

/-- The forks, the first turn and what its smoker does up to its line. -/
def firstTurn : List Label :=
  List.replicate 6 .parent ++ List.replicate 5 (.smoker 0)

theorem smokers_take_first_turn : ∃ s, Reachable next (initial [116]) s ∧ s.printed = [84] ∧
    s.printed <+: lines [116] := by
  have hrun : ∃ s, run next (initial [116]) firstTurn = some s ∧ s.parent = .waitDone 0 ∧
      s.printed = [84] := ⟨_, rfl, rfl, rfl⟩
  obtain ⟨s, hs, hparent, hprinted⟩ := hrun
  have hbefore : s.parent.BeforeShutdown := by
    rw [hparent]
    trivial
  exact ⟨s, ⟨firstTurn, hs⟩, hprinted, (smokers_take_turns ⟨firstTurn, hs⟩ hbefore).1⟩

end Acos.Smokers
