import Acos.ProcessMap.Model

/-! The invariant of `pmap_process`: the semaphore's value, the threads that have not posted yet
and the tokens that the caller holds always make up the number of processors. -/
namespace Acos.ProcessMap
open Acos.MachineInt Acos.Transition

variable {α β : Type} {p : Call α β} {s t : State α β}

/-- How many elements the loops over an `int` index reach. -/
def Call.reached (p : Call α β) : ℕ := min p.count (2 ^ 31)

/-- The threads that have not posted. -/
def State.active (s : State α β) : ℕ := s.threads.countP fun thread => !thread.pc.isFinished

/-- The tokens that the caller has taken and no thread has been created for. -/
def Main.taken : Main α → ℕ
  | .creating _ _ => 1
  | .draining i => i.toNat
  | _ => 0

/-- Where the caller is, `n` threads having been created. -/
def MainOk (p : Call α β) (n : ℕ) : Main α → Prop
  | .filling i => n ≤ p.reached ∧ i = i32 n
  | .waiting i arg => n < p.reached ∧ i = n ∧ p.input[n]? = some arg.value ∧ arg.result_ptr = n
  | .creating i arg => n < p.reached ∧ i = n ∧ p.input[n]? = some arg.value ∧ arg.result_ptr = n
  | .draining i => n = p.reached ∧ 0 ≤ i ∧ i ≤ p.threads_count
  | .joining i => n = p.reached ∧ ∃ k ≤ p.reached, i = i32 (k : ℕ)
  | .returned => n = p.reached

/-- The tokens are conserved until the semaphore is destroyed, when every thread has posted. -/
def TokensOk (p : Call α β) (s : State α β) : Prop :=
  match s.main with
  | .joining _ => s.active = 0
  | .returned => s.active = 0
  | main => ∃ n, s.free_processes = some n ∧ n + s.active + main.taken = p.threads_count

/-- What thread `k` has computed and stored. -/
structure ThreadOk (p : Call α β) (out : ℤ → Option β) (k : ℕ) (thread : Thread α β) : Prop where
  value : p.input[k]? = some thread.arg.value
  result_ptr : thread.arg.result_ptr = k
  computed : ∀ value, thread.pc = .storing value → value = p.func thread.arg.value
  stored : thread.pc = .posting ∨ thread.pc = .finished → out k = some (p.func thread.arg.value)

structure Inv (p : Call α β) (s : State α β) : Prop where
  main : MainOk p s.threads.length s.main
  tokens : TokensOk p s
  threads : ∀ k thread, s.threads[k]? = some thread → ThreadOk p s.out k thread
  unwritten : ∀ k : ℕ, s.threads.length ≤ k → s.out k = none

theorem Call.reached_le (p : Call α β) : p.reached ≤ p.count := by
  unfold Call.reached
  omega

/-- The `int` that follows the largest one is a huge `size_t`. -/
theorem wrapped_index {k : ℕ} (hk : k = 2 ^ 31) : (2 : ℤ) ^ 61 ≤ u64 (i32 k) := by
  have hcast : (k : ℤ) = 2 ^ 31 := by omega
  unfold u64 i32
  omega

/-- The test of the loops over the elements, at an index they come to. -/
theorem test_iff {k : ℕ} (hk : k ≤ p.reached) : u64 (i32 k) < p.count ↔ k < p.reached := by
  have hcount : p.count < 2 ^ 61 := p.count_lt
  unfold Call.reached at hk ⊢
  by_cases hlt : k < 2 ^ 31
  · rw [i32_natCast hlt, u64_of_range (Int.natCast_nonneg k) (by omega)]
    omega
  · have hwrap : (2 : ℤ) ^ 61 ≤ u64 (i32 k) := wrapped_index (by omega)
    omega

theorem index_of_reached {k : ℕ} (hk : k < p.reached) : i32 k = k := by
  apply i32_natCast
  unfold Call.reached at hk
  omega

theorem initial_inv (p : Call α β) : Inv p (initial p) where
  main := ⟨Nat.zero_le _, (i32_natCast (by simp)).symm⟩
  tokens := ⟨p.threads_count, rfl, by simp [State.active, initial, Main.taken]⟩
  threads := by simp [initial]
  unwritten := by simp [initial]

theorem semWait_eq_some : semWait s = some t ↔
    ∃ n, s.free_processes = some (n + 1) ∧ t = ⟨s.main, some n, s.threads, s.out⟩ := by
  unfold semWait
  split
  next n hn => simp [hn, eq_comm]
  next hno =>
    simp only [reduceCtorEq, false_iff, not_exists, not_and]
    exact fun n hn => absurd hn (hno n)

/-- The steps of the caller. -/
theorem pmapProcess_cases (h : pmapProcess p s = some t) :
    (∃ i value, s.main = .filling i ∧ u64 i < p.count ∧ p.input[i.toNat]? = some value ∧
      t = s.goto (.waiting i ⟨value, i⟩)) ∨
    (∃ i, s.main = .filling i ∧ ¬ u64 i < p.count ∧ t = s.goto (.draining 0)) ∨
    (∃ i arg n, s.main = .waiting i arg ∧ s.free_processes = some (n + 1) ∧
      t = ⟨.creating i arg, some n, s.threads, s.out⟩) ∨
    (∃ i arg, s.main = .creating i arg ∧
      t = ⟨.filling (i32 (i + 1)), s.free_processes, s.threads ++ [⟨arg, .entry⟩], s.out⟩) ∨
    (∃ i n, s.main = .draining i ∧ u32 i < p.threads_count ∧ s.free_processes = some (n + 1) ∧
      t = ⟨.draining (i32 (i + 1)), some n, s.threads, s.out⟩) ∨
    (∃ i, s.main = .draining i ∧ ¬ u32 i < p.threads_count ∧
      t = ⟨.joining 0, none, s.threads, s.out⟩) ∨
    (∃ i thread, s.main = .joining i ∧ u64 i < p.count ∧ s.threads[i.toNat]? = some thread ∧
      t = s.goto (.joining (i32 (i + 1)))) ∨
    (∃ i, s.main = .joining i ∧ ¬ u64 i < p.count ∧ t = s.goto .returned) := by
  unfold pmapProcess at h
  cases hmain : s.main with
  | filling i =>
    rw [hmain] at h
    dsimp only at h
    split_ifs at h with htest
    · split at h
      next value hvalue =>
        cases h
        exact .inl ⟨i, value, rfl, htest, hvalue, rfl⟩
      next => cases h
    · cases h
      exact .inr (.inl ⟨i, rfl, htest, rfl⟩)
  | waiting i arg =>
    rw [hmain] at h
    obtain ⟨u, hu, rfl⟩ := Option.map_eq_some_iff.mp h
    obtain ⟨n, hn, rfl⟩ := semWait_eq_some.mp hu
    exact .inr (.inr (.inl ⟨i, arg, n, rfl, hn, rfl⟩))
  | creating i arg =>
    rw [hmain] at h
    cases h
    exact .inr (.inr (.inr (.inl ⟨i, arg, rfl, rfl⟩)))
  | draining i =>
    rw [hmain] at h
    dsimp only at h
    split_ifs at h with htest
    · obtain ⟨u, hu, rfl⟩ := Option.map_eq_some_iff.mp h
      obtain ⟨n, hn, rfl⟩ := semWait_eq_some.mp hu
      exact .inr (.inr (.inr (.inr (.inl ⟨i, n, rfl, htest, hn, rfl⟩))))
    · cases h
      exact .inr (.inr (.inr (.inr (.inr (.inl ⟨i, rfl, htest, rfl⟩)))))
  | joining i =>
    rw [hmain] at h
    dsimp only at h
    split_ifs at h with htest
    · split at h
      next thread hthread =>
        split_ifs at h
        cases h
        exact .inr (.inr (.inr (.inr (.inr (.inr (.inl ⟨i, thread, rfl, htest, hthread, rfl⟩))))))
      next => cases h
    · cases h
      exact .inr (.inr (.inr (.inr (.inr (.inr (.inr ⟨i, rfl, htest, rfl⟩))))))
  | returned =>
    rw [hmain] at h
    cases h

/-- The steps of a thread. -/
theorem threadSafeFuncWrapper_cases {k : ℕ} (h : threadSafeFuncWrapper p s k = some t) :
    ∃ thread, s.threads[k]? = some thread ∧
      ((thread.pc = .entry ∧ t = s.setPc k thread .calling) ∨
      (thread.pc = .calling ∧ t = s.setPc k thread (.storing (p.func thread.arg.value))) ∨
      (∃ value, thread.pc = .storing value ∧
        t = ⟨s.main, s.free_processes, s.threads.set k ⟨thread.arg, .posting⟩,
          Function.update s.out thread.arg.result_ptr (some value)⟩) ∨
      (∃ n, thread.pc = .posting ∧ s.free_processes = some n ∧
        t = ⟨s.main, some (n + 1), s.threads.set k ⟨thread.arg, .finished⟩, s.out⟩)) := by
  unfold threadSafeFuncWrapper at h
  cases hthread : s.threads[k]? with
  | none =>
    rw [hthread] at h
    cases h
  | some thread =>
    rw [hthread] at h
    refine ⟨thread, rfl, ?_⟩
    dsimp only at h
    cases hpc : thread.pc with
    | entry =>
      rw [hpc] at h
      cases h
      exact .inl ⟨rfl, rfl⟩
    | calling =>
      rw [hpc] at h
      cases h
      exact .inr (.inl ⟨rfl, rfl⟩)
    | storing value =>
      rw [hpc] at h
      cases h
      exact .inr (.inr (.inl ⟨value, rfl, rfl⟩))
    | posting =>
      rw [hpc] at h
      dsimp only at h
      cases hfree : s.free_processes with
      | none => simp [semPost, State.setPc, hfree] at h
      | some n =>
        simp only [semPost, State.setPc, hfree, Option.some.injEq] at h
        exact .inr (.inr (.inr ⟨n, rfl, rfl, h.symm⟩))
    | finished =>
      rw [hpc] at h
      cases h

section Thread
variable {k : ℕ} {thread : Thread α β} {pc : Pc β} {free : Option ℕ} {out : ℤ → Option β}

theorem active_set (hget : s.threads[k]? = some thread) (hpc : thread.pc.isFinished = false) :
    State.active ⟨s.main, free, s.threads.set k ⟨thread.arg, pc⟩, out⟩ +
      pc.isFinished.toNat = s.active := by
  obtain ⟨hlt, hthread⟩ := List.getElem?_eq_some_iff.mp hget
  have hpos : 0 < s.active :=
    List.countP_pos_iff.mpr ⟨thread, List.mem_of_getElem? hget, by simp [hpc]⟩
  unfold State.active at hpos ⊢
  rw [List.countP_set hlt, hthread, hpc]
  cases pc.isFinished
  · simp
    omega
  · simp
    omega

/-- The step of a thread that takes it to `pc` keeps the invariant. -/
theorem inv_setPc (hs : Inv p s) (hget : s.threads[k]? = some thread)
    (hok : ThreadOk p out k ⟨thread.arg, pc⟩)
    (hother : ∀ j : ℕ, j ≠ k → out j = s.out j)
    (htokens : TokensOk p ⟨s.main, free, s.threads.set k ⟨thread.arg, pc⟩, out⟩) :
    Inv p ⟨s.main, free, s.threads.set k ⟨thread.arg, pc⟩, out⟩ where
  main := by simpa using hs.main
  tokens := htokens
  threads := by
    intro j old hold
    by_cases hj : j = k
    · subst hj
      have hlt := (List.getElem?_eq_some_iff.mp hget).1
      simp only [List.getElem?_set_self hlt, Option.some.injEq] at hold
      rw [← hold]
      exact hok
    · rw [List.getElem?_set_ne (Ne.symm hj)] at hold
      have hthread := hs.threads j old hold
      exact ⟨hthread.value, hthread.result_ptr, hthread.computed,
        fun hpc => (hother j hj).trans (hthread.stored hpc)⟩
  unwritten := by
    intro j hj
    have hlt := (List.getElem?_eq_some_iff.mp hget).1
    simp only [List.length_set] at hj
    exact (hother j (by omega)).trans (hs.unwritten j hj)

end Thread

/-- A thread that has not posted finds the semaphore. -/
theorem tokensOk_active (h : TokensOk p s) (hactive : 0 < s.active) :
    ∃ n, s.free_processes = some n ∧ n + s.active + s.main.taken = p.threads_count := by
  unfold TokensOk at h
  split at h
  · omega
  · omega
  · exact h

theorem threadSafeFuncWrapper_inv {k : ℕ} (hs : Inv p s)
    (h : threadSafeFuncWrapper p s k = some t) : Inv p t := by
  obtain ⟨thread, hget, hcases⟩ := threadSafeFuncWrapper_cases h
  have hthread := hs.threads k thread hget
  have hsame : ∀ j : ℕ, j ≠ k → s.out j = s.out j := fun _ _ => rfl
  -- As long as the thread has not posted, no token moves.
  have hstay : ∀ (pc : Pc β) (out : ℤ → Option β), thread.pc.isFinished = false →
      pc.isFinished = false →
      TokensOk p ⟨s.main, s.free_processes, s.threads.set k ⟨thread.arg, pc⟩, out⟩ := by
    intro pc out hold hnew
    have hactive := @active_set _ _ s k thread pc s.free_processes out hget hold
    rw [hnew] at hactive
    have htokens := hs.tokens
    unfold TokensOk at htokens ⊢
    simp only [Bool.toNat_false, add_zero] at hactive
    rw [hactive]
    exact htokens
  rcases hcases with ⟨hpc, rfl⟩ | ⟨hpc, rfl⟩ | ⟨value, hpc, rfl⟩ | ⟨n, hpc, hfree, rfl⟩
  · exact inv_setPc hs hget ⟨hthread.value, hthread.result_ptr, by simp, by simp⟩ hsame
      (hstay _ _ (by rw [hpc]; rfl) rfl)
  · exact inv_setPc hs hget ⟨hthread.value, hthread.result_ptr, by simp, by simp⟩ hsame
      (hstay _ _ (by rw [hpc]; rfl) rfl)
  · rw [hthread.result_ptr]
    refine inv_setPc hs hget ⟨hthread.value, hthread.result_ptr, by simp, fun _ => ?_⟩ ?_
      (hstay _ _ (by rw [hpc]; rfl) rfl)
    · rw [Function.update_self, hthread.computed value hpc]
    · intro j hj
      exact Function.update_of_ne (by omega) _ _
  · have hactive := @active_set _ _ s k thread .finished (some (n + 1)) s.out hget
      (by rw [hpc]; rfl)
    simp only [Pc.isFinished, Bool.toNat_true] at hactive
    refine inv_setPc hs hget ⟨hthread.value, hthread.result_ptr, by simp,
      fun _ => hthread.stored (.inl hpc)⟩ hsame ?_
    obtain ⟨n', hn', hsum⟩ := tokensOk_active hs.tokens (by omega)
    rw [hfree] at hn'
    cases hn'
    have htokens := hs.tokens
    unfold TokensOk at htokens ⊢
    split at htokens
    · omega
    · omega
    · refine ⟨n + 1, rfl, ?_⟩
      dsimp only
      omega

/-- A step of the caller within its loops moves no thread. -/
theorem inv_goto {main : Main α} {free : Option ℕ} (hs : Inv p s)
    (hmain : MainOk p s.threads.length main)
    (htokens : TokensOk p ⟨main, free, s.threads, s.out⟩) :
    Inv p ⟨main, free, s.threads, s.out⟩ where
  main := hmain
  tokens := htokens
  threads := hs.threads
  unwritten := hs.unwritten

/-- The caller creates a thread that the invariant allows. -/
theorem inv_create {main : Main α} {free : Option ℕ} {thread : Thread α β} (hs : Inv p s)
    (hthread : ThreadOk p s.out s.threads.length thread)
    (hmain : MainOk p (s.threads ++ [thread]).length main)
    (htokens : TokensOk p ⟨main, free, s.threads ++ [thread], s.out⟩) :
    Inv p ⟨main, free, s.threads ++ [thread], s.out⟩ where
  main := hmain
  tokens := htokens
  threads := by
    intro k old hold
    rcases Nat.lt_trichotomy k s.threads.length with hk | hk | hk
    · rw [List.getElem?_append_left hk] at hold
      exact hs.threads k old hold
    · subst hk
      simp only [List.getElem?_concat_length, Option.some.injEq] at hold
      rw [← hold]
      exact hthread
    · rw [List.getElem?_eq_none (by simp; omega)] at hold
      cases hold
  unwritten := by
    intro k hk
    simp only [List.length_append, List.length_singleton] at hk
    exact hs.unwritten k (by omega)

theorem pmapProcess_inv (hs : Inv p s) (h : pmapProcess p s = some t) : Inv p t := by
  have hmain := hs.main
  have htokens := hs.tokens
  unfold TokensOk at htokens
  rcases pmapProcess_cases h with ⟨i, value, hpc, htest, hvalue, rfl⟩ | ⟨i, hpc, htest, rfl⟩ |
    ⟨i, arg, n, hpc, hfree, rfl⟩ | ⟨i, arg, hpc, rfl⟩ | ⟨i, n, hpc, htest, hfree, rfl⟩ |
    ⟨i, hpc, htest, rfl⟩ | ⟨i, thread, hpc, htest, hthread, rfl⟩ | ⟨i, hpc, htest, rfl⟩ <;>
    rw [hpc] at hmain htokens
  · obtain ⟨hle, hi⟩ := hmain
    rw [hi] at htest hvalue ⊢
    have hlt := (test_iff hle).mp htest
    rw [index_of_reached hlt] at hvalue ⊢
    exact inv_goto hs ⟨hlt, rfl, hvalue, rfl⟩ htokens
  · obtain ⟨hle, hi⟩ := hmain
    rw [hi, test_iff hle] at htest
    have hlast : s.threads.length = p.reached := by omega
    exact inv_goto hs ⟨hlast, le_rfl, Int.natCast_nonneg _⟩ htokens
  · obtain ⟨m, hm, hsum⟩ := htokens
    rw [hfree] at hm
    cases hm
    refine inv_goto hs hmain ⟨n, rfl, ?_⟩
    simp only [Main.taken] at hsum ⊢
    unfold State.active at hsum ⊢
    dsimp only
    omega
  · obtain ⟨hlt, hi, hvalue, hptr⟩ := hmain
    obtain ⟨n, hn, hsum⟩ := htokens
    refine inv_create hs ⟨hvalue, hptr, by simp, by simp⟩ ⟨?_, by simp [hi]⟩ ⟨n, hn, ?_⟩
    · simp only [List.length_append, List.length_singleton]
      omega
    · have hnew : [(⟨arg, .entry⟩ : Thread α β)].countP (fun thread => !thread.pc.isFinished) = 1 :=
        rfl
      simp only [Main.taken, State.active, List.countP_append, hnew] at hsum ⊢
      omega
  · obtain ⟨hlast, hlo, hhi⟩ := hmain
    obtain ⟨m, hm, hsum⟩ := htokens
    rw [hfree] at hm
    cases hm
    have hprocs := p.procs_lt
    rw [u32_of_range hlo (by omega)] at htest
    rw [i32_of_range (by omega) (by omega)]
    refine inv_goto hs ⟨hlast, by omega, by omega⟩ ⟨n, rfl, ?_⟩
    simp only [Main.taken] at hsum ⊢
    unfold State.active at hsum ⊢
    dsimp only
    omega
  · obtain ⟨hlast, hlo, hhi⟩ := hmain
    obtain ⟨m, hm, hsum⟩ := htokens
    have hprocs := p.procs_lt
    rw [u32_of_range hlo (by omega)] at htest
    simp only [Main.taken] at hsum
    have hactive : s.active = 0 := by omega
    exact inv_goto hs ⟨hlast, 0, Nat.zero_le _, (i32_natCast (by simp)).symm⟩ hactive
  · obtain ⟨hlast, k, hk, hi⟩ := hmain
    rw [hi] at htest ⊢
    have hlt := (test_iff hk).mp htest
    rw [index_of_reached hlt]
    exact inv_goto hs ⟨hlast, k + 1, hlt, by simp⟩ htokens
  · exact inv_goto hs hmain.1 htokens

theorem next_inv {l : Label} (hs : Inv p s) (h : next p s l = some t) : Inv p t := by
  cases l with
  | main => exact pmapProcess_inv hs h
  | thread k => exact threadSafeFuncWrapper_inv hs h

theorem run_inv {ls : List Label} (hrun : run (next p) (initial p) ls = some s) : Inv p s :=
  run_invariant (fun _ _ _ hs hnext => next_inv hs hnext) (initial_inv p) hrun

end Acos.ProcessMap
