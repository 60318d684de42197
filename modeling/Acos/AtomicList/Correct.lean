import Acos.AtomicList.Links

/-! The list once all workers have finished. -/
namespace Acos.AtomicList
open Acos.Lists Acos.Transition

variable {n : ℕ}

theorem exchangedBy_sublist (w : Fin n) (ls : List (Label n)) :
    (exchangedBy w ls).Sublist (exchanged ls) := by
  induction ls with
  | nil => exact List.Sublist.refl _
  | cons l ls ih =>
    cases l with
    | exchange v x =>
      simp only [exchangedBy, exchanged]
      split
      · exact ih.cons_cons x
      · exact ih.cons x
    | _ => exact ih

/-- The invariant of the runs: the counts and the shape of the list. -/
def Consistent (k : ℕ) (past : List (Label n)) (s : State n) : Prop :=
  Counted k past s ∧ ∃ chain, Linked past s chain

theorem consistent_step {k : ℕ} (past : List (Label n)) (s : State n) (l : Label n) (t : State n)
    (hs : Consistent k past s) (h : next k s l = some t) : Consistent k (past ++ [l]) t := by
  obtain ⟨hcount, chain, hlink⟩ := hs
  exact ⟨counted_step hcount h, linked_step hlink h⟩

/-- Whatever the interleaving, once all `n` workers have finished the list holds the
`n * k` pushed values in the order of their exchanges and ends at `tail`. -/
theorem list_push_all_interleavings {k : ℕ} (hn : n < 2 ^ 31) (hk : k < 2 ^ 31)
    {ls : List (Label n)} {s : State n} (hrun : run (next k) (initial n k) ls = some s)
    (hdone : ∀ w, (s.workers w).pc = .finished) :
    ∃ visited, Visits s.items s.list.head visited ∧ visited.Nodup ∧
      visited.map (valueAt s.items) = (exchanged ls).map some ∧
      s.list.tail = visited.getLast? ∧
      (exchanged ls).Perm (List.range (n * k)) ∧
      (∀ w, exchangedBy w ls = List.range' (w * k) k ∧
        (exchangedBy w ls).Sublist (exchanged ls)) ∧
      s.list.size = n * k := by
  have hbounds : ∀ w : Fin n, loopStart k w = w * k ∧ loopEnd k w = (w + 1) * k :=
    fun w => loop_bounds hn hk w.isLt
  have hle : ∀ w : Fin n, loopStart k w ≤ loopEnd k w := by
    intro w
    rw [(hbounds w).1, (hbounds w).2]
    exact Nat.mul_le_mul_right k (Nat.le_succ w)
  obtain ⟨hcount, chain, hlink⟩ := run_history consistent_step
    ⟨initial_counted hle, [], initial_linked k⟩ hrun
  obtain ⟨hby, hsize⟩ := hcount.finished hdone
  have hblock : ∀ w : Fin n, exchangedBy w ls = List.range' (w * k) k := by
    intro w
    rw [hby w, (hbounds w).1, (hbounds w).2, Nat.succ_mul, Nat.add_sub_cancel_left]
  have hperm : (exchanged ls).Perm (List.range (n * k)) := by
    have h := exchanged_perm ls
    simp only [hblock] at h
    rwa [flatMap_blocks] at h
  have hlt : n * k < 2 ^ 64 := by
    calc n * k ≤ 2 ^ 31 * 2 ^ 31 := Nat.mul_le_mul hn.le hk.le
      _ < 2 ^ 64 := by decide
  refine ⟨chain, hlink.visits (fun w a p h => ?_), hlink.nodup, hlink.values, hlink.tail, hperm,
    fun w => ⟨hblock w, exchangedBy_sublist w ls⟩, ?_⟩
  · simp [hdone w] at h
  · rw [hsize, hperm.length_eq, List.length_range]
    exact Nat.mod_eq_of_lt hlt

/-- Two workers push one value each; the second exchange overtakes the first link. -/
def overtaking : List (Label 2) :=
  [.alloc 0 10, .alloc 1 11, .exchange 0 0, .exchange 1 1, .link 1, .count 1, .leave 1, .link 0,
    .count 0, .leave 0]

theorem list_push_overtaking :
    ∃ s visited, run (next 1) (initial 2 1) overtaking = some s ∧
      Visits s.items s.list.head visited ∧
      visited.map (valueAt s.items) = [some 0, some 1] ∧ s.list.size = 2 := by
  obtain ⟨s, hs⟩ := Option.isSome_iff_exists.mp
    (show (run (next 1) (initial 2 1) overtaking).isSome from by decide)
  have hdone : ∀ w, (s.workers w).pc = .finished := by
    have h : (run (next 1) (initial 2 1) overtaking).all
        (fun s => decide (∀ w, (s.workers w).pc = .finished)) := by decide
    rw [hs] at h
    simpa using h
  obtain ⟨visited, hv, _, hvals, _, _, _, hsize⟩ :=
    list_push_all_interleavings (by decide) (by decide) hs hdone
  exact ⟨s, visited, hs, hv, hvals, hsize⟩

end Acos.AtomicList
