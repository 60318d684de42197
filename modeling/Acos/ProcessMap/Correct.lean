import Acos.Lib.Lists
import Acos.ProcessMap.Steps

/-! What the invariant gives: the calls are throttled, some thread can always move and comes
closer to the end, and the results are there for the elements that an `int` index reaches. -/
namespace Acos.ProcessMap
open Acos.Lists Acos.MachineInt Acos.Transition

variable {α β : Type} {p : Call α β} {s t : State α β}

theorem calls_le (hs : Inv p s) : s.calls ≤ p.threads_count := by
  have hle : s.calls ≤ s.active := by
    apply List.countP_mono_left
    intro thread _ hcall
    cases hpc : thread.pc with
    | finished => simp [hpc, Pc.inCall] at hcall
    | _ => rfl
  by_cases hzero : s.active = 0
  · omega
  · obtain ⟨n, -, hsum⟩ := tokensOk_active hs.tokens (by omega)
    omega

/-- A thread that has not finished can move. -/
theorem thread_moves {k : ℕ} {thread : Thread α β} (hs : Inv p s)
    (hget : s.threads[k]? = some thread) (hpc : thread.pc.isFinished = false) :
    ∃ t, threadSafeFuncWrapper p s k = some t := by
  have hactive : 0 < s.active :=
    List.countP_pos_iff.mpr ⟨thread, List.mem_of_getElem? hget, by simp [hpc]⟩
  obtain ⟨n, hn, -⟩ := tokensOk_active hs.tokens hactive
  unfold threadSafeFuncWrapper
  rw [hget]
  dsimp only
  cases h : thread.pc with
  | finished => simp [h, Pc.isFinished] at hpc
  | posting => simp [semPost, State.setPc, hn]
  | _ => exact ⟨_, rfl⟩

/-- When all threads have finished, the caller can move. -/
theorem main_moves (hs : Inv p s) (hall : s.active = 0) (hrun : s.main ≠ .returned) :
    ∃ t, pmapProcess p s = some t := by
  have hmain := hs.main
  have htokens := hs.tokens
  have hprocs := p.procs_lt
  have hpos := p.procs_pos
  unfold TokensOk at htokens
  unfold pmapProcess
  cases hpc : s.main with
  | filling i =>
    rw [hpc] at hmain
    obtain ⟨hle, hi⟩ := hmain
    dsimp only
    split_ifs with htest
    · rw [hi, test_iff hle] at htest
      have hlt : s.threads.length < p.input.length := lt_of_lt_of_le htest p.reached_le
      rw [hi, index_of_reached htest]
      simp [hlt]
    · exact ⟨_, rfl⟩
  | waiting i arg =>
    rw [hpc] at htokens
    obtain ⟨n, hn, hsum⟩ := htokens
    simp only [Main.taken, hall] at hsum
    obtain ⟨m, rfl⟩ : ∃ m, n = m + 1 := ⟨n - 1, by omega⟩
    simp [semWait, hn]
  | creating i arg => exact ⟨_, rfl⟩
  | draining i =>
    rw [hpc] at htokens hmain
    obtain ⟨-, hlo, hhi⟩ := hmain
    obtain ⟨n, hn, hsum⟩ := htokens
    dsimp only
    split_ifs with htest
    · rw [u32_of_range hlo (by omega)] at htest
      simp only [Main.taken, hall] at hsum
      obtain ⟨m, rfl⟩ : ∃ m, n = m + 1 := ⟨n - 1, by omega⟩
      simp [semWait, hn]
    · exact ⟨_, rfl⟩
  | joining i =>
    rw [hpc] at hmain
    obtain ⟨hlast, k, hk, hi⟩ := hmain
    dsimp only
    split_ifs with htest
    · rw [hi, test_iff hk] at htest
      have hlt : k < s.threads.length := by omega
      have hfinished : s.threads[k].pc.isFinished = true := by
        have hno := List.countP_eq_zero.mp hall s.threads[k] (List.getElem_mem hlt)
        simpa using hno
      rw [hi, index_of_reached htest]
      simp [hlt, hfinished]
    · exact ⟨_, rfl⟩
  | returned => exact absurd hpc hrun

/-- Before `pmap_process` returns, some thread can move. -/
theorem next_isSome (hs : Inv p s) (hrun : s.main ≠ .returned) :
    ∃ l t, next p s l = some t := by
  by_cases hall : s.active = 0
  · obtain ⟨t, ht⟩ := main_moves hs hall hrun
    exact ⟨.main, t, ht⟩
  · obtain ⟨thread, hmem, hpc⟩ := List.countP_pos_iff.mp (Nat.pos_of_ne_zero hall)
    obtain ⟨k, hget⟩ := List.getElem?_of_mem hmem
    obtain ⟨t, ht⟩ := thread_moves hs hget (by simpa using hpc)
    exact ⟨.thread k, t, ht⟩

/-- The steps that a thread has left. -/
def Pc.rank : Pc β → ℕ
  | .entry => 4
  | .calling => 3
  | .storing _ => 2
  | .posting => 1
  | .finished => 0

/-- A bound on the steps that the caller and the threads it has yet to create have left. -/
def Main.rank (p : Call α β) (n : ℕ) : Main α → ℕ
  | .filling _ => 7 * (p.reached - n) + (p.threads_count + p.reached + 6)
  | .waiting _ _ => 7 * (p.reached - n) + (p.threads_count + p.reached + 5)
  | .creating _ _ => 7 * (p.reached - n) + (p.threads_count + p.reached + 4)
  | .draining i => (p.threads_count - i.toNat) + p.reached + 3
  | .joining i => if i < 0 then 1 else p.reached - i.toNat + 1
  | .returned => 0

def rank (p : Call α β) (s : State α β) : ℕ :=
  s.main.rank p s.threads.length + (s.threads.map fun thread => thread.pc.rank).sum

theorem thread_rank {k : ℕ} (h : threadSafeFuncWrapper p s k = some t) : rank p t < rank p s := by
  obtain ⟨thread, hget, hcases⟩ := threadSafeFuncWrapper_cases h
  unfold rank
  rcases hcases with ⟨hpc, rfl⟩ | ⟨hpc, rfl⟩ | ⟨value, hpc, rfl⟩ | ⟨n, hpc, -, rfl⟩
  all_goals
    simp only [State.setPc, List.length_set]
    apply Nat.add_lt_add_left
    apply sum_map_set_lt (fun thread => thread.pc.rank) hget
    simp [hpc, Pc.rank]

/-- A step of the caller brings it closer to its return. -/
theorem main_rank (hs : Inv p s) (h : pmapProcess p s = some t) : rank p t < rank p s := by
  have hmain := hs.main
  unfold rank
  rcases pmapProcess_cases h with ⟨i, value, hpc, htest, hvalue, rfl⟩ | ⟨i, hpc, htest, rfl⟩ |
    ⟨i, arg, n, hpc, hfree, rfl⟩ | ⟨i, arg, hpc, rfl⟩ | ⟨i, n, hpc, htest, hfree, rfl⟩ |
    ⟨i, hpc, htest, rfl⟩ | ⟨i, thread, hpc, htest, hthread, rfl⟩ | ⟨i, hpc, htest, rfl⟩ <;>
    rw [hpc] at hmain ⊢ <;>
    simp only [State.goto, Main.rank]
  · omega
  · omega
  · omega
  · obtain ⟨hlt, -⟩ := hmain
    simp only [List.length_append, List.length_singleton, List.map_append, List.sum_append,
      List.map_cons, List.map_nil, List.sum_cons, List.sum_nil, Pc.rank]
    omega
  · obtain ⟨-, hlo, hhi⟩ := hmain
    have hprocs := p.procs_lt
    rw [u32_of_range hlo (by omega)] at htest
    rw [i32_of_range (by omega) (by omega)]
    omega
  · rw [if_neg (by decide), Int.toNat_zero]
    omega
  · obtain ⟨-, k, hk, hi⟩ := hmain
    rw [hi, test_iff hk] at htest
    have hnonneg : ¬ (k : ℤ) < 0 := by omega
    rw [hi, index_of_reached htest, if_neg hnonneg, Int.toNat_natCast]
    split_ifs with hwrap
    · omega
    · have hnext : k + 1 < 2 ^ 31 := by
        by_contra hover
        have hmax : k + 1 = 2 ^ 31 := by
          unfold Call.reached at htest
          omega
        have hneg : i32 ((k : ℤ) + 1) = -2 ^ 31 := by
          unfold i32
          omega
        omega
      have hindex : i32 ((k : ℤ) + 1) = (k + 1 : ℕ) := by exact_mod_cast i32_natCast hnext
      rw [hindex, Int.toNat_natCast]
      omega
  · split_ifs
    · omega
    · omega

theorem next_rank {l : Label} (hs : Inv p s) (h : next p s l = some t) : rank p t < rank p s := by
  cases l with
  | main => exact main_rank hs h
  | thread k => exact thread_rank h

/-- There is a run to the return of `pmap_process`. -/
theorem returns (p : Call α β) :
    ∃ ls s, run (next p) (initial p) ls = some s ∧ s.main = .returned := by
  apply exists_run_of_measure (I := Inv p) (rank p) _ (initial_inv p)
  intro s hs hfinal
  obtain ⟨l, t, hl⟩ := next_isSome hs hfinal
  exact ⟨l, t, hl, next_inv hs hl, next_rank hs hl⟩

/-- After the return the results of the elements reached are there, and no others. -/
theorem returned_out (hs : Inv p s) (hret : s.main = .returned) (k : ℕ) (value : α)
    (hvalue : p.input[k]? = some value) :
    s.out k = if k < p.reached then some (p.func value) else none := by
  have hmain := hs.main
  have htokens := hs.tokens
  unfold TokensOk at htokens
  rw [hret] at hmain htokens
  have hlast : s.threads.length = p.reached := hmain
  split_ifs with hk
  · have hlt : k < s.threads.length := by omega
    have hget := List.getElem?_eq_getElem hlt
    have hthread := hs.threads k _ hget
    have hfinished : s.threads[k].pc.isFinished = true := by
      have hno := List.countP_eq_zero.mp htokens s.threads[k] (List.getElem_mem hlt)
      simpa using hno
    have hpc : s.threads[k].pc = .finished := by
      cases h : s.threads[k].pc with
      | finished => rfl
      | _ => simp [h, Pc.isFinished] at hfinished
    have harg := hthread.value
    rw [hvalue, Option.some.injEq] at harg
    rw [hthread.stored (.inr hpc), harg]
  · exact hs.unwritten k (by omega)

theorem correct_of_short (hcount : p.count ≤ 2 ^ 31) (hs : Inv p s) : Correct p s where
  throttled := calls_le hs
  live := by
    intro hdead
    obtain ⟨l, t, hl⟩ := next_isSome hs hdead.1
    rw [hdead.2 l] at hl
    cases hl
  mapped := by
    intro hret k value hvalue
    have hlt : k < p.input.length := (List.getElem?_eq_some_iff.mp hvalue).1
    have hreached : k < p.reached := by
      unfold Call.reached Call.count at *
      omega
    rw [returned_out hs hret k value hvalue, if_pos hreached]

/-- Of more than `2^31` elements, the one after the last `int` has no result. -/
theorem incorrect_of_long (hcount : 2 ^ 31 < p.count) :
    ∃ ls s, run (next p) (initial p) ls = some s ∧ ¬ Correct p s := by
  obtain ⟨ls, s, hrun, hret⟩ := returns p
  have hreached : p.reached = 2 ^ 31 := by
    unfold Call.reached
    omega
  obtain ⟨value, hvalue⟩ : ∃ value, p.input[p.reached]? = some value :=
    ⟨_, List.getElem?_eq_getElem (by rw [hreached]; exact hcount)⟩
  refine ⟨ls, s, hrun, fun hcorrect => ?_⟩
  have hnone := returned_out (run_inv hrun) hret p.reached value hvalue
  rw [hcorrect.mapped hret p.reached value hvalue, if_neg (lt_irrefl _)] at hnone
  cases hnone

/-- `pmap_process` is right in every run if and only if an `int` can count the elements. -/
theorem pmap_process_correct_iff (p : Call α β) :
    (∀ ls s, run (next p) (initial p) ls = some s → Correct p s) ↔ p.count ≤ 2 ^ 31 := by
  constructor
  · intro hall
    by_contra hlong
    obtain ⟨ls, s, hrun, hbad⟩ := incorrect_of_long (p := p) (by omega)
    exact hbad (hall ls s hrun)
  · intro hcount ls s hrun
    exact correct_of_short hcount (run_inv hrun)

/-- The negation of `2^31 + 1` values on one processor. -/
def longCall : Call Bool Bool where
  func := not
  input := List.replicate (2 ^ 31 + 1) true
  threads_count := 1
  count_lt := by rw [List.length_replicate]; decide
  procs_pos := by decide
  procs_lt := by decide

theorem long_input_unmapped : ¬ ∀ (p : Call Bool Bool) ls s,
    run (next p) (initial p) ls = some s → Correct p s := by
  intro hall
  have hlong : 2 ^ 31 < longCall.count := by
    unfold Call.count longCall
    rw [List.length_replicate]
    decide
  obtain ⟨ls, s, hrun, hbad⟩ := incorrect_of_long hlong
  exact hbad (hall longCall ls s hrun)

end Acos.ProcessMap
