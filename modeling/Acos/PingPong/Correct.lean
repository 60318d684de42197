import Acos.PingPong.Model
import Mathlib.Data.Nat.Find

/-! The threads take turns, and one of them comes to a number at which it stops. A stop is the
message 200, which a number that is sent on never is, but the argument may be. -/
namespace Acos.PingPong
open Acos.MachineInt Acos.Transition

/-- The number after `k` turns. -/
def numberAt (x : ℤ) (k : ℕ) : ℤ := i32 (x + k - if k % 2 = 1 then 4 else 0)

/-- The numbers of the first `n` turns: `x - 3`, `x + 2`, `x - 1`, `x + 4` and so on. -/
def numbers (x : ℤ) (n : ℕ) : List ℤ := (List.range' 1 n).map (numberAt x)

/-- The first turn with a number to stop at is the turn `n`. -/
def Last (x : ℤ) (n : ℕ) : Prop :=
  1 ≤ n ∧ Stop (numberAt x n) ∧ ∀ k, 1 ≤ k → k < n → ¬ Stop (numberAt x k)

/-- Both threads are at their ends, and the numbers up to the first one to stop at are printed. -/
def Complete (x : ℤ) (s : State) : Prop := Finished s ∧ ∃ n, Last x n ∧ s.output = numbers x n

/-- The thread that has the turn after `k` turns. -/
def turn (k : ℕ) : Thread := if k % 2 = 0 then .first else .second

def delta : Thread → ℤ
  | .first => -3
  | .second => 5

section
variable {x : ℤ} {n k : ℕ} {t u : Thread} {pc pc' pc'' : Pc} {box box' box'' out : List ℤ}
  {s s' : State}

theorem next_eq (s : State) (t : Thread) : next s t = threadFunc (delta t) t s := by
  cases t <;> rfl

theorem turn_succ (k : ℕ) : turn (k + 1) = (turn k).other := by
  unfold turn
  rcases Nat.mod_two_eq_zero_or_one k with h | h
  · have hnext : (k + 1) % 2 = 1 := by omega
    simp [h, hnext, Thread.other]
  · have hnext : (k + 1) % 2 = 0 := by omega
    simp [h, hnext, Thread.other]

theorem numberAt_succ (x : ℤ) (k : ℕ) :
    i32 (numberAt x k + delta (turn k)) = numberAt x (k + 1) := by
  unfold numberAt turn
  rcases Nat.mod_two_eq_zero_or_one k with h | h
  · have hnext : (k + 1) % 2 = 1 := by omega
    simp only [h, hnext, if_true, Nat.zero_ne_one, if_false, delta]
    unfold i32
    omega
  · have hnext : (k + 1) % 2 = 0 := by omega
    simp only [h, hnext, if_true, Nat.one_ne_zero, Nat.zero_ne_one, if_false, delta]
    unfold i32
    omega

theorem numbers_succ (x : ℤ) (k : ℕ) : numbers x (k + 1) = numbers x k ++ [numberAt x (k + 1)] := by
  unfold numbers
  rw [List.range'_concat, List.map_append]
  simp [Nat.add_comm 1 k]

/-- After `n` turns, an odd number, the number is the one wanted. -/
theorem numberAt_odd {v : ℤ} (hn : (n : ℤ) = (v + 4 - x) % 2 ^ 32) (hodd : n % 2 = 1)
    (hlo : 0 ≤ v) (hhi : v < 2 ^ 31) : numberAt x n = v := by
  unfold numberAt i32
  rw [if_pos hodd]
  omega

theorem exists_last (x : ℤ) : ∃ n, Last x n := by
  have hstop : ∃ n, 1 ≤ n ∧ Stop (numberAt x n) := by
    obtain ⟨n, hn⟩ := Int.eq_ofNat_of_zero_le (show 0 ≤ (101 + 4 - x) % 2 ^ 32 by omega)
    obtain ⟨m, hm⟩ := Int.eq_ofNat_of_zero_le (show 0 ≤ (102 + 4 - x) % 2 ^ 32 by omega)
    -- the two differ by one, so one of them is odd
    by_cases hodd : n % 2 = 1
    · refine ⟨n, by omega, .inr ?_⟩
      rw [numberAt_odd hn.symm hodd (by decide) (by decide)]
      decide
    · refine ⟨m, by omega, .inr ?_⟩
      rw [numberAt_odd hm.symm (by omega) (by decide) (by decide)]
      decide
  classical
  refine ⟨Nat.find hstop, (Nat.find_spec hstop).1, (Nat.find_spec hstop).2, fun k hk hlt hk' => ?_⟩
  exact Nat.find_min hstop hlt ⟨hk, hk'⟩

/-- A state by the thread that has the turn, its place and inbox, and those of the other one. -/
def place (t : Thread) (pc pc' : Pc) (box box' out : List ℤ) : State where
  pc := Function.update (fun _ => pc') t pc
  inbox := Function.update (fun _ => box') t box
  output := out

inductive Phase where
  | sent (k : ℕ)
  | received (k : ℕ)
  | printed (k : ℕ)
  | stopping
  | stopped
  | complete

/-- The states of the exchange that stops at the turn `n`. -/
def stage (x : ℤ) (n : ℕ) : Phase → State
  | .sent k => place (turn k) .reading .reading [numberAt x k] [] (numbers x k)
  | .received k => place (turn k) (.received (numberAt x k)) .reading [] [] (numbers x k)
  | .printed k =>
    place (turn k) (.printed (numberAt x (k + 1))) .reading [] [] (numbers x (k + 1))
  | .stopping => place (turn n) .reading .finished [200] [] (numbers x n)
  | .stopped => place (turn n) (.received 200) .finished [] [] (numbers x n)
  | .complete => place (turn n) .finished .finished [] [] (numbers x n)

/-- The phases that there are. -/
def Phase.Before (n : ℕ) : Phase → Prop
  | .sent k | .received k | .printed k => k < n
  | _ => True

def Phase.after (n : ℕ) : Phase → Option Phase
  | .sent k => some (.received k)
  | .received k => some (.printed k)
  | .printed k => some (if k + 1 = n then .stopping else .sent (k + 1))
  | .stopping => some .stopped
  | .stopped => some .complete
  | .complete => none

/-- The steps that are left, or more. -/
def Phase.left (n : ℕ) : Phase → ℕ
  | .sent k => 3 * (n - k) + 3
  | .received k => 3 * (n - k) + 2
  | .printed k => 3 * (n - k) + 1
  | .stopping => 2
  | .stopped => 1
  | .complete => 0

theorem update_other {α : Type} (t : Thread) (a b : α) :
    Function.update (fun _ => b) t a = Function.update (fun _ => a) t.other b := by
  funext u
  cases t <;> cases u <;> rfl

/-- The thread that does not have the turn waits or is at its end. -/
theorem next_waiting (hpc : pc' = .reading ∨ pc' = .finished) :
    next (place t pc pc' box [] out) t.other = none := by
  have hne : t.other ≠ t := by cases t <;> decide
  rw [next_eq, threadFunc]
  rcases hpc with rfl | rfl <;> simp [place, hne]

theorem next_read (v : ℤ) : next (place t .reading pc' [v] [] out) t =
    some (place t (.received v) pc' [] [] out) := by
  rw [next_eq, threadFunc]
  simp [place]

theorem next_print {v : ℤ} (h : v ≠ 200) : next (place t (.received v) pc' [] [] out) t =
    some (place t (.printed (i32 (v + delta t))) pc' [] [] (out ++ [i32 (v + delta t)])) := by
  rw [next_eq, threadFunc]
  simp [place, h]

theorem next_end : next (place t (.received 200) pc' [] [] out) t =
    some (place t .finished pc' [] [] out) := by
  rw [next_eq, threadFunc]
  simp [place]

theorem next_send {v : ℤ} (h : ¬ Stop v) : next (place t (.printed v) .reading [] [] out) t =
    some (place t.other .reading .reading [v] [] out) := by
  rw [next_eq, threadFunc]
  simp [place, h]

theorem next_stop {v : ℤ} (h : Stop v) : next (place t (.printed v) .reading [] [] out) t =
    some (place t.other .reading .finished [200] [] out) := by
  have hpc := update_other t Pc.finished Pc.reading
  rw [next_eq, threadFunc]
  simp [place, h, hpc]

theorem numberAt_zero (x : ℤ) : numberAt x 0 = i32 x := by
  simp [numberAt]

/-- A number that is sent on is not the stop message. -/
theorem numberAt_ne (hx : i32 x ≠ 200) (hn : Last x n) (hk : k < n) : numberAt x k ≠ 200 := by
  rcases Nat.eq_zero_or_pos k with rfl | hpos
  · rwa [numberAt_zero]
  · intro heq
    exact hn.2.2 k hpos hk (heq ▸ .inr (by decide))

/-- The thread that has the turn takes the exchange to its next phase. -/
theorem stage_step (hx : i32 x ≠ 200) (hn : Last x n) {phase : Phase} (hphase : phase.Before n) :
    ∃ t, next (stage x n phase) t = (phase.after n).map (stage x n) ∧
      next (stage x n phase) t.other = none := by
  cases phase with
  | sent k => exact ⟨turn k, next_read (numberAt x k), next_waiting (.inl rfl)⟩
  | received k =>
    refine ⟨turn k, ?_, next_waiting (.inl rfl)⟩
    rw [stage, next_print (numberAt_ne hx hn hphase), numberAt_succ, ← numbers_succ]
    rfl
  | printed k =>
    refine ⟨turn k, ?_, next_waiting (.inl rfl)⟩
    by_cases hlast : k + 1 = n
    · have hstop : Stop (numberAt x (k + 1)) := hlast ▸ hn.2.1
      rw [stage, next_stop hstop, ← turn_succ, Phase.after, if_pos hlast, Option.map_some, stage,
        hlast]
    · have hlt : k < n := hphase
      have hgo : ¬ Stop (numberAt x (k + 1)) := hn.2.2 (k + 1) (by omega) (by omega)
      rw [stage, next_send hgo, ← turn_succ, Phase.after, if_neg hlast, Option.map_some, stage]
  | stopping => exact ⟨turn n, next_read 200, next_waiting (.inr rfl)⟩
  | stopped => exact ⟨turn n, next_end, next_waiting (.inr rfl)⟩
  | complete =>
    refine ⟨turn n, ?_, next_waiting (.inr rfl)⟩
    rw [stage, next_eq, threadFunc]
    simp [place, Phase.after]

theorem stage_after {phase later : Phase} (hphase : phase.Before n)
    (h : phase.after n = some later) : later.Before n ∧ later.left n < phase.left n := by
  cases phase with
  | sent k =>
    obtain rfl := Option.some.inj h
    exact ⟨hphase, Nat.lt_succ_self _⟩
  | received k =>
    obtain rfl := Option.some.inj h
    exact ⟨hphase, Nat.lt_succ_self _⟩
  | printed k =>
    have hk : k < n := hphase
    obtain rfl := Option.some.inj h
    split_ifs with hlast
    · exact ⟨trivial, by simp only [Phase.left]; omega⟩
    · exact ⟨show k + 1 < n by omega, by simp only [Phase.left]; omega⟩
  | stopping =>
    obtain rfl := Option.some.inj h
    exact ⟨trivial, Nat.lt_succ_self _⟩
  | stopped =>
    obtain rfl := Option.some.inj h
    exact ⟨trivial, Nat.lt_succ_self _⟩
  | complete => cases h

/-- No other step is possible. -/
theorem stage_next (hx : i32 x ≠ 200) (hn : Last x n) {phase : Phase} (hphase : phase.Before n)
    (hstep : next (stage x n phase) u = some s') :
    ∃ later, phase.after n = some later ∧ s' = stage x n later := by
  obtain ⟨t, hturn, hother⟩ := stage_step hx hn hphase
  obtain rfl | rfl : u = t ∨ u = t.other := by cases u <;> cases t <;> decide
  · rw [hturn, Option.map_eq_some_iff] at hstep
    obtain ⟨later, hafter, heq⟩ := hstep
    exact ⟨later, hafter, heq.symm⟩
  · rw [hother] at hstep
    cases hstep

/-- Every state of the exchange is that of a phase. -/
def InPhase (x : ℤ) (n : ℕ) (s : State) : Prop :=
  ∃ phase : Phase, phase.Before n ∧ s = stage x n phase

theorem initial_inPhase (hn : Last x n) : InPhase x n (initial x) := by
  refine ⟨.sent 0, hn.1, ?_⟩
  rw [stage, numberAt_zero]
  simp [initial, place, turn, numbers]

theorem next_inPhase (hx : i32 x ≠ 200) (hn : Last x n) (s : State) (t : Thread) (s' : State)
    (h : InPhase x n s) (hstep : next s t = some s') : InPhase x n s' := by
  obtain ⟨phase, hphase, rfl⟩ := h
  obtain ⟨later, hafter, rfl⟩ := stage_next hx hn hphase hstep
  exact ⟨later, (stage_after hphase hafter).1, rfl⟩

theorem complete_stage (hn : Last x n) : Complete x (stage x n .complete) := by
  refine ⟨fun t => ?_, n, hn, rfl⟩
  simp [stage, place]

theorem exists_next (hx : i32 x ≠ 200) (hn : Last x n) (h : InPhase x n s)
    (hfinal : ¬ Complete x s) : ∃ t s', next s t = some s' := by
  obtain ⟨phase, hphase, rfl⟩ := h
  obtain ⟨t, hturn, _⟩ := stage_step hx hn hphase
  cases hafter : phase.after n with
  | some later => exact ⟨t, stage x n later, by rw [hturn, hafter]; rfl⟩
  | none =>
    cases phase with
    | complete => exact absurd (complete_stage hn) hfinal
    | _ => cases hafter

end

/-- Every phase leads to the last one. -/
theorem stage_inevitable {x : ℤ} {n : ℕ} (hx : i32 x ≠ 200) (hn : Last x n) {phase : Phase}
    (hphase : phase.Before n) : Inevitably next (Complete x) (stage x n phase) := by
  induction hleft : phase.left n using Nat.strong_induction_on generalizing phase with
  | _ left ih =>
    by_cases hfinal : Complete x (stage x n phase)
    · exact .here hfinal
    · refine .later (exists_next hx hn ⟨phase, hphase, rfl⟩ hfinal) fun t s hstep => ?_
      obtain ⟨later, hafter, rfl⟩ := stage_next hx hn hphase hstep
      obtain ⟨hlater, hless⟩ := stage_after hphase hafter
      exact ih (later.left n) (hleft ▸ hless) hlater rfl

/-- The first thread takes 200 for the stop message, and the second one waits for ever. -/
theorem deadlock_of_stop {x : ℤ} (hx : i32 x = 200) :
    ∃ s, Reachable next (initial x) s ∧ Deadlocked s := by
  have hstart : initial x = place .first .reading .reading [200] [] [] := by
    simp [initial, place, hx]
  refine ⟨place .first .finished .reading [] [] [], ?_, fun h => ?_, fun t => ?_⟩
  · rw [hstart]
    exact ((Reachable.refl next _).step (next_read 200)).step next_end
  · exact absurd (h .second) (by decide)
  · cases t with
    | first => rfl
    | second => exact next_waiting (t := .first) (.inl rfl)

/-- The exchange has no deadlock and comes to its end with the right numbers exactly when it does
not start with 200. -/
theorem ping_pong_iff (x : ℤ) :
    ((∀ s, Reachable next (initial x) s → ¬ Deadlocked s) ∧
      Inevitably next (Complete x) (initial x)) ↔ i32 x ≠ 200 := by
  constructor
  · rintro ⟨hall, _⟩ hx
    obtain ⟨s, hs, hdead⟩ := deadlock_of_stop hx
    exact hall s hs hdead
  · intro hx
    obtain ⟨n, hn⟩ := exists_last x
    refine ⟨fun s hs hdead => ?_, ?_⟩
    · have hphase := hs.invariant (next_inPhase hx hn) (initial_inPhase hn)
      obtain ⟨t, s', hstep⟩ := exists_next hx hn hphase fun h => hdead.1 h.1
      rw [hdead.2 t] at hstep
      cases hstep
    · obtain ⟨phase, hphase, hstart⟩ := initial_inPhase hn
      rw [hstart]
      exact stage_inevitable hx hn hphase

theorem ping_pong_deadlocks :
    ¬ ((∀ s, Reachable next (initial 200) s → ¬ Deadlocked s) ∧
      Inevitably next (Complete 200) (initial 200)) := by
  rintro ⟨hall, _⟩
  obtain ⟨s, hs, hdead⟩ := deadlock_of_stop (x := 200) (by decide)
  exact hall s hs hdead

end Acos.PingPong
