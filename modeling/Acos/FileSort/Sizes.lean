import Acos.FileSort.Correct

/-! For which files the byte counts of all copies are right. The copies are made on the way out of
the recursion, so that the first wrong one follows sorts of parts that are small enough. -/
namespace Acos.FileSort
open Acos.IntBytes Acos.MachineInt Acos.PosixFile

variable (sched : ℕ → ℕ) {qsort : (ℤ → ℤ → ℤ) → List ℤ → List ℤ}

theorem not_exact {c : CopyCall} {k : ℕ} (hcount : c.count = k) (hlo : 2 ^ 29 ≤ k)
    (hhi : k ≤ 2 ^ 30) : ¬ c.Exact sched := by
  intro hexact
  have hbytes := hexact.bytesCount
  rw [hcount] at hbytes
  exact byteCount_wraps hlo hhi hbytes

/-- A part of `2 ^ 30 - 1` integers or more has a half that is too large. -/
theorem exists_wrong_call {fd t1 t2 fuel left : ℕ} {p : Process} {P Q : List UInt8}
    {xs all : List ℤ} (ht : t1 ≠ t2) (h1 : t1 ≠ fd) (h2 : t2 ≠ fd) (hqsort : Permutes qsort all)
    (hall : ∀ x ∈ all, IsInt32 x) (hsub : ∀ x ∈ xs, x ∈ all) (hP : P.length = 4 * left)
    (hdata : (p.world.files fd).data = P ++ (encodeInts xs ++ Q))
    (hend : left + xs.length < 2 ^ 61) (hmany : 2 ^ 30 ≤ xs.length + 1)
    (hint : xs.length < 2 ^ 31) (hfuel : xs.length < fuel) :
    ∃ c ∈ mergeSortCalls sched qsort fd t1 t2 fuel p left (left + xs.length),
      ¬ c.Exact sched := by
  induction fuel generalizing p P Q xs left with
  | zero => omega
  | succ fuel ih =>
    obtain ⟨A, B, rfl, hA⟩ : ∃ A B, xs = A ++ B ∧ A.length = xs.length / 2 :=
      ⟨xs.take (xs.length / 2), xs.drop (xs.length / 2), (List.take_append_drop _ _).symm, by
        rw [List.length_take]
        omega⟩
    rw [List.length_append] at hA hend hmany hint hfuel
    rw [encodeInts_append, List.append_assoc] at hdata
    have hsubA : ∀ x ∈ A, x ∈ all := fun x hx => hsub x (List.mem_append_left B hx)
    have hsubB : ∀ x ∈ B, x ∈ all := fun x hx => hsub x (List.mem_append_right A hx)
    have hright : (left + (A ++ B).length : ℤ) = (left + A.length : ℕ) + B.length := by
      rw [List.length_append]
      omega
    have hmiddle : (left : ℤ) + A.length = (left + A.length : ℕ) := by omega
    have hlarge : ¬((left + A.length : ℕ) + B.length : ℤ) - left ≤ segmentSize := by
      unfold segmentSize
      omega
    have hmid : (left : ℤ) + (((left + A.length : ℕ) + B.length : ℤ) - left) / 2 =
        (left + A.length : ℕ) := by
      omega
    have hfirst : ((left + A.length : ℕ) : ℤ) - left = A.length := by omega
    have hsecond : ((left + A.length : ℕ) + B.length : ℤ) - (left + A.length : ℕ) = B.length := by
      omega
    rw [hright, mergeSortCalls, if_neg hlarge]
    dsimp only
    rw [hmid]
    by_cases hmanyA : 2 ^ 30 ≤ A.length + 1
    · obtain ⟨c, hc, hwrong⟩ := ih hsubA hP hdata (by omega) hmanyA (by omega) (by omega)
      rw [hmiddle] at hc
      exact ⟨c, List.mem_append_left _ hc, hwrong⟩
    obtain ⟨p1, A', hsort1, hdata1, hpermA, -, -⟩ := mergeSort_files sched ht h1 h2 hqsort hall
      hsubA hP hdata (by omega) (by omega) (show A.length < fuel by omega)
    have hlenA : A'.length = A.length := hpermA.length_eq
    rw [hmiddle] at hsort1
    rw [hsort1, Option.elim_some]
    have hP1 : (P ++ encodeInts A').length = 4 * (left + A.length) := by
      rw [List.length_append, encodeInts_length]
      omega
    rw [← List.append_assoc] at hdata1
    by_cases hmanyB : 2 ^ 30 ≤ B.length + 1
    · obtain ⟨c, hc, hwrong⟩ := ih hsubB hP1 hdata1 (by omega) hmanyB (by omega) (by omega)
      exact ⟨c, List.mem_append_right _ (List.mem_append_left _ hc), hwrong⟩
    obtain ⟨p2, B', hsort2, hdata2, hpermB, -, -⟩ := mergeSort_files sched ht h1 h2 hqsort hall
      hsubB hP1 hdata1 (by omega) (by omega) (show B.length < fuel by omega)
    rw [hsort2, Option.elim_some, hfirst, hsecond]
    by_cases hwideA : 2 ^ 29 ≤ A.length
    · exact ⟨_, List.mem_append_right _ (List.mem_append_right _ List.mem_cons_self),
        not_exact sched rfl hwideA (by omega)⟩
    -- the first copy is right, and the second follows it
    rw [List.append_assoc] at hdata2
    obtain ⟨w, hw, hfd, ht1, -⟩ := moved_files ht h1 h2 hP hdata2 (by omega)
    obtain ⟨p3, hcopy1, -, -, -, -⟩ :=
      copyOut_files sched (p := ⟨w, p2.mainBuffer⟩) (Ne.symm h1) (by omega) hfd ht1
    rw [hlenA] at hcopy1
    rw [hw, CopyCall.run, hcopy1, Option.elim_some]
    refine ⟨_, List.mem_append_right _ (List.mem_append_right _
      (List.mem_cons_of_mem _ List.mem_cons_self)), not_exact sched rfl ?_ ?_⟩
    · omega
    · omega

section File
variable {p : Process} {fd t1 t2 n fuel : ℕ}

/-- The integers that a file begins with. -/
theorem exists_integers (hsize : 4 * n ≤ (p.world.files fd).data.length) :
    ∃ xs, decodeInts ((p.world.files fd).data.take (4 * n)) = xs ∧ (∀ x ∈ xs, IsInt32 x) ∧
      (n : ℤ) = (0 : ℕ) + xs.length ∧ (p.world.files fd).data =
        [] ++ (encodeInts xs ++ (p.world.files fd).data.drop (4 * n)) := by
  have htake : ((p.world.files fd).data.take (4 * n)).length = 4 * n := by
    rw [List.length_take]
    omega
  obtain ⟨hencode, hcount, hrange⟩ := exists_encodeInts htake
  refine ⟨_, rfl, hrange, ?_, ?_⟩
  · rw [hcount, Nat.cast_zero, zero_add]
  · rw [hencode, List.nil_append, List.take_append_drop]

theorem exists_wrong_copy (ht : t1 ≠ t2) (h1 : t1 ≠ fd) (h2 : t2 ≠ fd) (hmany : 2 ^ 30 ≤ n + 1)
    (hint : n < 2 ^ 31) (hsize : 4 * n ≤ (p.world.files fd).data.length)
    (hqsort : Permutes qsort (decodeInts ((p.world.files fd).data.take (4 * n))))
    (hfuel : n < fuel) :
    ∃ c ∈ mergeSortCalls sched qsort fd t1 t2 fuel p 0 n, ¬ c.Exact sched := by
  obtain ⟨xs, hxs, hrange, hcast, hdata⟩ := exists_integers hsize
  rw [hxs] at hqsort
  rw [← Nat.cast_zero, hcast]
  exact exists_wrong_call sched ht h1 h2 hqsort hrange (fun x hx => hx) rfl hdata
    (by omega) (by omega) (by omega) (by omega)

end File

/-- For every file whose count of integers is an `int`, all copies of the sort are exact if and
only if there are at most `2 ^ 30 - 2` of them, whatever the transfers and the temporary files are
like. -/
theorem copies_exact_iff (qsort : (ℤ → ℤ → ℤ) → List ℤ → List ℤ) (p : Process)
    (fd t1 t2 n fuel : ℕ) (ht : t1 ≠ t2) (h1 : t1 ≠ fd) (h2 : t2 ≠ fd) (hint : n < 2 ^ 31)
    (hsize : 4 * n ≤ (p.world.files fd).data.length)
    (hqsort : Permutes qsort (decodeInts ((p.world.files fd).data.take (4 * n))))
    (hfuel : n < fuel) :
    (∀ c ∈ mergeSortCalls sched qsort fd t1 t2 fuel p 0 n, c.Exact sched) ↔ n ≤ 2 ^ 30 - 2 := by
  constructor
  · intro hall
    by_contra hmany
    obtain ⟨c, hc, hwrong⟩ :=
      exists_wrong_copy sched ht h1 h2 (by omega) hint hsize hqsort hfuel
    exact hwrong (hall c hc)
  · intro hfew
    obtain ⟨xs, hxs, hrange, hcast, hdata⟩ := exists_integers hsize
    rw [hxs] at hqsort
    obtain ⟨-, -, -, -, -, -, hcalls⟩ := @mergeSort_files sched qsort fd t1 t2 fuel 0 p [] _ xs xs
      ht h1 h2 hqsort hrange (fun x hx => hx) rfl hdata (by omega) (by omega) (by omega)
    rwa [← Nat.cast_zero, hcast]

theorem insertionQsort_permutes (xs : List ℤ) : Permutes insertionQsort xs :=
  fun buffer _ => List.perm_insertionSort _ buffer

/-- The sort of four segments comes to its end, and its copies are exact. -/
theorem copies_exact_four_segments :
    ∃ p', mergeSort (fun i => i) insertionQsort 0 1 2 40000 (fallingFile 30000) 0 (30000 : ℕ) =
        some p' ∧
      ∀ c ∈ mergeSortCalls (fun i => i) insertionQsort 0 1 2 40000 (fallingFile 30000) 0
        (30000 : ℕ), c.Exact fun i => i := by
  have hend : ((0 : ℕ) : ℤ) + (falling 30000).length = (30000 : ℕ) := by
    rw [falling_length, Nat.cast_zero, zero_add]
  obtain ⟨p', ys, hsort, -⟩ := @mergeSort_files (fun i => i) insertionQsort 0 1 2 40000 0
    (fallingFile 30000) [] [9] (falling 30000) (falling 30000) (by decide) (by decide) (by decide)
    (insertionQsort_permutes _) (falling_isInt32 (by decide)) (fun x hx => hx) rfl
    (by rw [List.nil_append, fallingFile_data]) (by rw [falling_length]; decide)
    (by rw [falling_length]; decide) (by rw [falling_length]; decide)
  rw [hend] at hsort
  exact ⟨p', hsort, (copies_exact_iff (fun i => i) insertionQsort (fallingFile 30000) 0 1 2 30000
    40000 (by decide) (by decide) (by decide) (by decide) (fallingFile_size 30000)
    (insertionQsort_permutes _) (by decide)).mpr (by decide)⟩

/-- A file of `n` integers, all zero, and two empty ones. -/
def zeros (n : ℕ) : Process :=
  ⟨⟨fun fd => if fd = 0 then ⟨List.replicate (4 * n) 0, 0⟩ else ⟨[], 0⟩, 0⟩, []⟩

theorem zeros_length (n : ℕ) : ((zeros n).world.files 0).data.length = 4 * n := by
  rw [zeros]
  exact List.length_replicate

/-- Not so for a file of `2 ^ 30 - 1` integers. -/
theorem copies_exact_zeros : ¬ ∀ (sched : ℕ → ℕ) (qsort : (ℤ → ℤ → ℤ) → List ℤ → List ℤ)
    (p : Process) (fd t1 t2 n fuel : ℕ), t1 ≠ t2 → t1 ≠ fd → t2 ≠ fd → n < 2 ^ 31 →
      4 * n ≤ (p.world.files fd).data.length →
        Permutes qsort (decodeInts ((p.world.files fd).data.take (4 * n))) → n < fuel →
          ∀ c ∈ mergeSortCalls sched qsort fd t1 t2 fuel p 0 n, c.Exact sched := by
  intro hall
  have hsize : 4 * (2 ^ 30 - 1) ≤ ((zeros (2 ^ 30 - 1)).world.files 0).data.length :=
    (zeros_length (2 ^ 30 - 1)).ge
  obtain ⟨c, hc, hwrong⟩ := exists_wrong_copy (fun _ => 0) (show 1 ≠ 2 by decide)
    (by decide) (by decide) (by decide) (by decide) hsize (insertionQsort_permutes _)
    (Nat.lt_succ_self (2 ^ 30 - 1))
  exact hwrong (hall (fun _ => 0) insertionQsort (zeros (2 ^ 30 - 1)) 0 1 2 (2 ^ 30 - 1) _
    (by decide) (by decide) (by decide) (by decide) hsize (insertionQsort_permutes _)
    (Nat.lt_succ_self (2 ^ 30 - 1)) c hc)

end Acos.FileSort
