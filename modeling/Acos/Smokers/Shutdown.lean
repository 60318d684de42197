import Acos.Smokers.Turns

/-! The shutdown: a `SIGTERM` between the test of `kick_out` and `sem_wait` is lost for the smoker,
and every other one ends it. -/
namespace Acos.Smokers
open Acos.CString Acos.Transition

/-- No `SIGTERM` is delivered between the test of `kick_out` and the call of `sem_wait`. -/
def InTime (s : State) : Label → Prop
  | .deliver i => (s.smokers i).pc ≠ .wait
  | _ => True

instance (s : State) (l : Label) : Decidable (InTime s l) :=
  match l with
  | .parent => inferInstanceAs (Decidable True)
  | .smoker _ => inferInstanceAs (Decidable True)
  | .deliver i => inferInstanceAs (Decidable ((s.smokers i).pc ≠ .wait))

/-- The smoker's `SIGTERM` has been sent. -/
def ParentPc.Signalled : ParentPc → ℕ → Prop
  | .kill k, i => i < k
  | .waitpid _, _ => True
  | _, _ => False

/-- A smoker whose flag is set does not wait, and every one that was sent a signal has it pending,
has its flag set or is gone. -/
structure Leaving (s : State) : Prop where
  kicked : ∀ i, (s.smokers i).kick_out = true →
    (s.smokers i).pc ≠ .wait ∧ (s.smokers i).pc ≠ .blocked
  forked : ∀ i < n_smokers, (s.smokers i).pc = .absent → ∃ k, s.parent = .fork k ∧ k ≤ i
  signalled : ∀ i < n_smokers, s.parent.Signalled i →
    (s.smokers i).pending = true ∨ (s.smokers i).kick_out = true ∨ (s.smokers i).pc = .dead

section Smoker
variable {me me' : Smoker} {prints : Bool}

/-- A step keeps the flag and the pending signal, and with the flag set it does not lead to
`sem_wait`. -/
theorem Smoker.step_kicked (h : me.step = some (me', prints)) :
    me'.kick_out = me.kick_out ∧ me'.pending = me.pending ∧ me.pc ≠ .dead ∧ me'.pc ≠ .absent ∧
      (me.kick_out = true → me.pc ≠ .wait → me.pc ≠ .blocked →
        me'.pc ≠ .wait ∧ me'.pc ≠ .blocked) := by
  cases hpc : me.pc with
  | absent | dead => simp [Smoker.step, hpc] at h
  | test | check =>
    simp only [Smoker.step, hpc] at h
    cases h
    refine ⟨rfl, rfl, by simp, ?_, fun hkick _ _ => by simp [hkick]⟩
    cases me.kick_out <;> simp
  | wait =>
    simp only [Smoker.step, hpc] at h
    split_ifs at h <;> cases h
    · exact ⟨rfl, rfl, by simp, by simp, fun _ hwait => absurd rfl hwait⟩
    · exact ⟨rfl, rfl, by simp, by simp, fun _ hwait => absurd rfl hwait⟩
  | blocked =>
    simp only [Smoker.step, hpc] at h
    split_ifs at h
    cases h
    exact ⟨rfl, rfl, by simp, by simp, fun _ _ hblocked => absurd rfl hblocked⟩
  | sigaction | print | post | exit =>
    simp only [Smoker.step, hpc] at h
    cases h
    exact ⟨rfl, rfl, by simp, by simp, fun _ _ _ => ⟨by simp, by simp⟩⟩

/-- The handler sets the flag, and before there is one the signal ends the smoker. -/
theorem Smoker.deliver_kicked (h : me.deliver = some me') :
    me'.pc ≠ .absent ∧
      (me.pc ≠ .wait → me'.kick_out = true → me'.pc ≠ .wait ∧ me'.pc ≠ .blocked) ∧
      (me'.kick_out = true ∨ me'.pc = .dead) := by
  unfold Smoker.deliver at h
  split_ifs at h
  cases hpc : me.pc with
  | absent | dead => simp [hpc] at h
  | sigaction =>
    simp only [hpc] at h
    cases h
    exact ⟨by simp, fun _ _ => ⟨by simp, by simp⟩, .inr rfl⟩
  | wait =>
    simp only [hpc] at h
    cases h
    exact ⟨by simp, fun hwait => absurd rfl hwait, .inl rfl⟩
  | blocked | test | check | print | post | exit =>
    simp only [hpc] at h
    cases h
    exact ⟨by simp, fun _ _ => ⟨by simp, by simp⟩, .inl rfl⟩

/-- A smoker that is not blocked on its semaphore can go on. -/
theorem Smoker.step_isSome (hforked : me.pc ≠ .absent) (hdead : me.pc ≠ .dead)
    (hblocked : me.pc ≠ .blocked) : ∃ r, me.step = some r := by
  unfold Smoker.step
  cases hpc : me.pc with
  | absent => exact absurd hpc hforked
  | dead => exact absurd hpc hdead
  | blocked => exact absurd hpc hblocked
  | wait =>
    simp only
    split_ifs
    · exact ⟨_, rfl⟩
    · exact ⟨_, rfl⟩
  | _ => exact ⟨_, rfl⟩

end Smoker

section Step
variable {s t : State}

theorem leaving_initial (input : Bytes) : Leaving (initial input) where
  kicked := by simp [initial, Smoker.absent]
  forked := fun i _ _ => ⟨0, rfl, Nat.zero_le i⟩
  signalled := fun _ _ h => h.elim

theorem Leaving.smoker (h : Leaving s) {i : ℕ} (hstep : next s (.smoker i) = some t) :
    Leaving t := by
  obtain ⟨⟨me, prints⟩, hme, rfl⟩ := Option.map_eq_some_iff.mp hstep
  obtain ⟨hkick, hpending, halive, hforked, hwait⟩ := Smoker.step_kicked hme
  refine ⟨fun j hj => ?_, fun j hj hj' => ?_, fun j hj hj' => ?_⟩
  · by_cases hij : j = i
    · simp only [set_smokers, hij, ↓reduceIte] at hj ⊢
      rw [hkick] at hj
      exact hwait hj (h.kicked i hj).1 (h.kicked i hj).2
    · simp only [set_smokers, hij, ↓reduceIte] at hj ⊢
      exact h.kicked j hj
  · by_cases hij : j = i
    · exact absurd (by simpa [hij] using hj') hforked
    · exact h.forked j hj (by simpa [hij] using hj')
  · have hold := h.signalled j hj hj'
    by_cases hij : j = i
    · simp only [set_smokers, hij, ↓reduceIte, hkick, hpending] at hold ⊢
      rcases hold with hold | hold | hold
      · exact .inl hold
      · exact .inr (.inl hold)
      · exact absurd hold halive
    · simpa only [set_smokers, hij, ↓reduceIte] using hold

theorem Leaving.deliver (h : Leaving s) {i : ℕ} (hstep : next s (.deliver i) = some t)
    (htime : InTime s (.deliver i)) : Leaving t := by
  obtain ⟨me, hme, rfl⟩ := Option.map_eq_some_iff.mp hstep
  obtain ⟨hforked, hwait, hended⟩ := Smoker.deliver_kicked hme
  refine ⟨fun j hj => ?_, fun j hj hj' => ?_, fun j hj hj' => ?_⟩
  · by_cases hij : j = i
    · simp only [set_smokers, hij, ↓reduceIte] at hj ⊢
      exact hwait htime hj
    · simp only [set_smokers, hij, ↓reduceIte] at hj ⊢
      exact h.kicked j hj
  · by_cases hij : j = i
    · exact absurd (by simpa [hij] using hj') hforked
    · exact h.forked j hj (by simpa [hij] using hj')
  · by_cases hij : j = i
    · simp only [set_smokers, hij, ↓reduceIte]
      exact .inr hended
    · simpa only [set_smokers, hij, ↓reduceIte] using h.signalled j hj hj'

/-- A step of the parent that changes a smoker only in its semaphores. -/
theorem Leaving.semaphores (h : Leaving s) {i : ℕ} {me : Smoker} {parent : ParentPc} {input : Bytes}
    (hfork : ∀ k, s.parent ≠ .fork k) (hparent : ∀ j, ¬ parent.Signalled j)
    (hpc : me.pc = (s.smokers i).pc) (hkick : me.kick_out = (s.smokers i).kick_out) :
    Leaving { s.set i me with parent := parent, input := input } := by
  refine ⟨fun j hj => ?_, fun j hj hj' => ?_, fun j hj hj' => absurd hj' (hparent j)⟩
  · by_cases hij : j = i
    · simp only [set_smokers, hij, ↓reduceIte, hpc, hkick] at hj ⊢
      exact h.kicked i hj
    · simp only [set_smokers, hij, ↓reduceIte] at hj ⊢
      exact h.kicked j hj
  · have habsent : (s.smokers j).pc = .absent := by
      by_cases hij : j = i
      · simpa [hij, hpc] using hj'
      · simpa [hij] using hj'
    obtain ⟨k, hk, -⟩ := h.forked j hj habsent
    exact absurd hk (hfork k)

/-- A step of the parent that changes no smoker and sends no signal. -/
theorem Leaving.goto (h : Leaving s) {parent : ParentPc} {input : Bytes}
    (hfork : ∀ k, s.parent = .fork k → n_smokers ≤ k)
    (hparent : ∀ j < n_smokers, parent.Signalled j → s.parent.Signalled j) :
    Leaving { s with parent := parent, input := input } := by
  refine ⟨h.kicked, fun j hj hj' => ?_, fun j hj hj' => h.signalled j hj (hparent j hj hj')⟩
  obtain ⟨k, hk, hle⟩ := h.forked j hj hj'
  have hover := hfork k hk
  omega

theorem Leaving.fork (h : Leaving s) {k : ℕ} (hparent : s.parent = .fork k) :
    Leaving { s.set k ⟨.sigaction, false, false, 0, 0⟩ with parent := .fork (k + 1) } := by
  refine ⟨fun j hj => ?_, fun j hj hj' => ?_, fun j _ hj' => hj'.elim⟩
  · by_cases hjk : j = k
    · simp [hjk] at hj
    · simp only [set_smokers, hjk, ↓reduceIte] at hj ⊢
      exact h.kicked j hj
  · by_cases hjk : j = k
    · simp [hjk] at hj'
    · obtain ⟨l, hl, hle⟩ := h.forked j hj (by simpa [hjk] using hj')
      rw [hparent] at hl
      cases hl
      exact ⟨k + 1, rfl, by omega⟩

theorem Leaving.kill (h : Leaving s) {k : ℕ} (hparent : s.parent = .kill k) :
    Leaving { s.set k { s.smokers k with pending := true } with parent := .kill (k + 1) } := by
  refine ⟨fun j hj => ?_, fun j hj hj' => ?_, fun j hj hj' => ?_⟩
  · by_cases hjk : j = k
    · simp only [set_smokers, hjk, ↓reduceIte] at hj ⊢
      exact h.kicked k hj
    · simp only [set_smokers, hjk, ↓reduceIte] at hj ⊢
      exact h.kicked j hj
  · have habsent : (s.smokers j).pc = .absent := by
      by_cases hjk : j = k
      · simpa [hjk] using hj'
      · simpa [hjk] using hj'
    obtain ⟨l, hl, -⟩ := h.forked j hj habsent
    rw [hparent] at hl
    cases hl
  · by_cases hjk : j = k
    · exact .inl (by simp [hjk])
    · have hlt : j < k + 1 := hj'
      have hold := h.signalled j hj (by rw [hparent]; show j < k; omega)
      simpa only [set_smokers, hjk, ↓reduceIte] using hold

theorem Leaving.parent (h : Leaving s) (hstep : next s .parent = some t) : Leaving t := by
  simp only [next, parentStep] at hstep
  cases hparent : s.parent with
  | fork k =>
    simp only [hparent] at hstep
    split_ifs at hstep with hk <;> cases hstep
    · exact h.fork hparent
    · exact h.goto (by simp [hparent]; omega) (fun _ _ hj => hj.elim)
  | read =>
    simp only [hparent] at hstep
    cases hinput : s.input with
    | nil =>
      rw [hinput] at hstep
      cases hstep
      exact h.goto (by simp [hparent]) (fun _ _ hj => absurd hj (Nat.not_lt_zero _))
    | cons action input =>
      rw [hinput] at hstep
      cases haction : smokerOf action <;> simp only [haction] at hstep <;> cases hstep
      · exact h.goto (by simp [hparent]) (fun _ _ hj => hj.elim)
      · exact h.goto (by simp [hparent]) (fun _ _ hj => hj.elim)
  | post i =>
    simp only [hparent] at hstep
    cases hstep
    exact h.semaphores (by simp [hparent]) (fun _ hj => hj.elim) rfl rfl
  | waitDone i =>
    simp only [hparent] at hstep
    split_ifs at hstep
    cases hstep
    exact h.semaphores (by simp [hparent]) (fun _ hj => hj.elim) rfl rfl
  | kill k =>
    simp only [hparent] at hstep
    split_ifs at hstep with hk <;> cases hstep
    · exact h.kill hparent
    · apply h.goto (by simp [hparent])
      intro j hj _
      rw [hparent]
      show j < k
      omega
  | waitpid k =>
    simp only [hparent] at hstep
    split_ifs at hstep <;> cases hstep
    · exact h.goto (by simp [hparent]) (fun _ _ _ => by rw [hparent]; trivial)
    · exact h.goto (by simp [hparent]) (fun _ _ hj => hj.elim)
  | returned => simp [hparent] at hstep

theorem Leaving.step (h : Leaving s) {l : Label} (htime : InTime s l) (hstep : next s l = some t) :
    Leaving t := by
  cases l with
  | parent => exact h.parent hstep
  | smoker i => exact h.smoker hstep
  | deliver i => exact h.deliver hstep htime

/-- The smoker that the parent waits for is gone, can go on or is about to be interrupted. -/
theorem Leaving.progress (h : Leaving s) {k : ℕ} (hparent : s.parent = .waitpid k) :
    ∃ l t, next s l = some t := by
  by_cases hk : k < n_smokers
  · by_cases hdead : (s.smokers k).pc = .dead
    · refine ⟨.parent, ?_⟩
      simp only [next, parentStep, hparent, if_pos hk, if_pos hdead]
      exact ⟨_, rfl⟩
    · have hforked : (s.smokers k).pc ≠ .absent := by
        intro habsent
        obtain ⟨l, hl, -⟩ := h.forked k hk habsent
        rw [hparent] at hl
        cases hl
      by_cases hblocked : (s.smokers k).pc = .blocked
      · have hsignal := h.signalled k hk (by rw [hparent]; trivial)
        rcases hsignal with hpending | hkick | hgone
        · refine ⟨.deliver k, ?_⟩
          simp only [next, Smoker.deliver, hpending, hblocked]
          exact ⟨_, rfl⟩
        · exact absurd hblocked (h.kicked k hkick).2
        · exact absurd hgone hdead
      · obtain ⟨r, hr⟩ := Smoker.step_isSome hforked hdead hblocked
        refine ⟨.smoker k, ?_⟩
        rw [next, hr]
        exact ⟨_, rfl⟩
  · refine ⟨.parent, ?_⟩
    simp only [next, parentStep, hparent, if_neg hk]
    exact ⟨_, rfl⟩

/-- Once there, a deadlock at the shutdown stays. -/
theorem ShutdownDeadlock.step (h : ShutdownDeadlock s) {l : Label} (hstep : next s l = some t) :
    ShutdownDeadlock t := by
  obtain ⟨i, hi, hparent, hkick, hpending, hpc, hsem⟩ := h
  cases l with
  | parent => simp [next, parentStep, hparent, hi, hpc] at hstep
  | smoker j =>
    obtain ⟨⟨me, prints⟩, hme, rfl⟩ := Option.map_eq_some_iff.mp hstep
    have hij : ¬ i = j := by
      rintro rfl
      simp [Smoker.step, hpc, hsem] at hme
    refine ⟨i, hi, hparent, ?_⟩
    simpa only [set_smokers, hij, ↓reduceIte] using ⟨hkick, hpending, hpc, hsem⟩
  | deliver j =>
    obtain ⟨me, hme, rfl⟩ := Option.map_eq_some_iff.mp hstep
    have hij : ¬ i = j := by
      rintro rfl
      simp [Smoker.deliver, hpending] at hme
    refine ⟨i, hi, hparent, ?_⟩
    simpa only [set_smokers, hij, ↓reduceIte] using ⟨hkick, hpending, hpc, hsem⟩

end Step

/-- Where no `SIGTERM` falls between the test of `kick_out` and `sem_wait`, the parent never waits
for a smoker that is blocked for ever, and the processes can go on until it returns. -/
theorem shutdown_in_time {input : Bytes} {ls : List Label} {s : State}
    (htime : Along next InTime (initial input) ls) (hrun : run next (initial input) ls = some s) :
    ¬ ShutdownDeadlock s ∧ ∀ k, s.parent = .waitpid k → ∃ l t, next s l = some t := by
  have hleaving : Leaving s :=
    run_invariant_along (fun _ _ _ h htime hstep => h.step htime hstep) (leaving_initial input)
      htime hrun
  refine ⟨?_, fun k hk => hleaving.progress hk⟩
  rintro ⟨i, -, -, hkick, -, hpc, -⟩
  exact (hleaving.kicked i hkick).2 hpc

/-- `SIGTERM` reaches the first smoker when it is blocked in `sem_wait`. -/
def signalInTime : List Label :=
  List.replicate 4 .parent ++ [.smoker 0, .smoker 0, .smoker 0] ++ List.replicate 5 .parent ++
    [.deliver 0]

theorem shutdown_of_blocked : ∃ s, run next (initial []) signalInTime = some s ∧
    s.parent = .waitpid 0 ∧ (s.smokers 0).kick_out = true ∧ ¬ ShutdownDeadlock s ∧
    ∃ l t, next s l = some t := by
  have htime : Along next InTime (initial []) signalInTime := by decide
  obtain ⟨s, hrun, hparent, hkick⟩ : ∃ s, run next (initial []) signalInTime = some s ∧
      s.parent = .waitpid 0 ∧ (s.smokers 0).kick_out = true := ⟨_, rfl, rfl, rfl⟩
  obtain ⟨hlive, hprogress⟩ := shutdown_in_time htime hrun
  exact ⟨s, hrun, hparent, hkick, hlive, hprogress 0 hparent⟩

/-- `SIGTERM` reaches the first smoker when it has found `kick_out` unset and has not yet called
`sem_wait`. -/
def lateSignal : List Label :=
  List.replicate 4 .parent ++ [.smoker 0, .smoker 0] ++ List.replicate 5 .parent ++
    [.deliver 0, .smoker 0]

theorem shutdown_too_late : ∃ s, Reachable next (initial []) s ∧ ShutdownDeadlock s :=
  ⟨_, ⟨lateSignal, rfl⟩, 0, by decide, rfl, rfl, rfl, rfl, rfl⟩

end Acos.Smokers
