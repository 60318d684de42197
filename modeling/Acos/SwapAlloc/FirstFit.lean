import Acos.SwapAlloc.Correct

/-! First fit: the gap that the search finds lies at the start of the lowest run of free blocks that
is long enough, however the run is cut into blocks. -/
namespace Acos.SwapAlloc
open Acos.Blocks Acos.MachineInt Acos.Transition

section Search
variable {size i g start length : ℕ} {bs : List ℤ}

/-- The search from word `i` on, with free blocks `before` of `g` words just before it. -/
theorem firstGap_none_short (before : List ℤ) (hne : ∀ b ∈ bs, b ≠ 0)
    (hbefore : ∀ b ∈ before, b < 0) (hg : g = cover before) (hshort : g < size)
    (h : firstGap size bs i g = none) :
    ∀ start length, FreeRun (before ++ bs) start length → length < size := by
  induction bs generalizing i g before with
  | nil =>
    intro start length hrun
    have hle := hrun.length_le
    rw [List.append_nil] at hle
    omega
  | cons b bs ih =>
    rw [List.forall_mem_cons] at hne
    rw [firstGap] at h
    intro start length hrun
    by_cases hpos : 0 < b
    · rw [if_pos hpos] at h
      rcases freeRun_used hbefore hpos hrun with ⟨-, rfl⟩ | ⟨start', hrest, -⟩
      · omega
      · exact ih [] hne.2 (by simp) cover_nil.symm (by omega) h start' length hrest
    · rw [if_neg hpos] at h
      split_ifs at h with hfit
      have hmore : ∀ c ∈ before ++ [b], c < 0 :=
        List.forall_mem_append.mpr ⟨hbefore, List.forall_mem_singleton.mpr (by omega)⟩
      apply ih (before ++ [b]) hne.2 hmore ?_ (by omega) h start length
      · rwa [List.append_assoc]
      · simp [hg]

theorem firstGap_some_lowest (before : List ℤ) (hne : ∀ b ∈ bs, b ≠ 0)
    (hbefore : ∀ b ∈ before, b < 0) (hg : g = cover before) (hi : g ≤ i) (hshort : g < size)
    (h : firstGap size bs i g = some (start, length)) :
    ∃ first, LowestRun (before ++ bs) size first ∧ start + g = i + first := by
  induction bs generalizing i g before with
  | nil => cases h
  | cons b bs ih =>
    rw [List.forall_mem_cons] at hne
    rw [firstGap] at h
    by_cases hpos : 0 < b
    · rw [if_pos hpos] at h
      obtain ⟨first, hlow, hstart⟩ :=
        ih [] hne.2 (by simp) cover_nil.symm (Nat.zero_le _) (by omega) h
      obtain ⟨length', hrun, hfits⟩ := hlow.fits
      refine ⟨cover before + b.natAbs + first, ⟨⟨length', hrun.used before hpos, hfits⟩, ?_⟩,
        by omega⟩
      intro start' length'' hrun' hfits'
      rcases freeRun_used hbefore hpos hrun' with ⟨-, rfl⟩ | ⟨start'', hrest, rfl⟩
      · omega
      · have hleast := hlow.least start'' length'' hrest hfits'
        omega
    · have hmore : ∀ c ∈ before ++ [b], c < 0 :=
        List.forall_mem_append.mpr ⟨hbefore, List.forall_mem_singleton.mpr (by omega)⟩
      have hcover : cover (before ++ [b]) = g + b.natAbs := by
        simp [hg]
      rw [if_neg hpos] at h
      have hsame : before ++ b :: bs = before ++ [b] ++ bs := by simp
      rw [hsame]
      split_ifs at h with hfit
      · cases h
        obtain ⟨length', hrun, hle⟩ := freeRun_front hmore (by simp) hne.2
        exact ⟨0, ⟨⟨length', hrun, by omega⟩, fun _ _ _ _ => Nat.zero_le _⟩, by omega⟩
      · obtain ⟨first, hlow, hstart⟩ :=
          ih (before ++ [b]) hne.2 hmore hcover.symm (by omega) (by omega) h
        exact ⟨first, hlow, by omega⟩

end Search

section Malloc
variable {f n : ℕ} {mapping : List ℤ} {heap : Heap} {s : State}

/-- The first fit in a heap of any mapping whose headers can count its words. -/
theorem malloc_lowest_run (hf : 1 ≤ f) (hf' : f < 2 ^ 31)
    (hinit : myallocInitialize f mapping = .ok heap) (hs : Reachable next (initial heap) s)
    (hn : 1 ≤ n) (hn' : n ≤ 2 ^ 31) :
    ∃ bs, Tiles s.heap.words 0 bs f ∧
      (myMalloc s.heap n = .ok (s.heap, none) ↔
        ∀ start length, FreeRun bs start length → length < blockWords n) ∧
      ((∃ start length, FreeRun bs start length ∧ blockWords n ≤ length) →
        ∃ pre taken post heap', bs = pre ++ (taken ++ post) ∧ (∀ b ∈ taken, b < 0) ∧
          LowestRun bs (blockWords n) (cover pre) ∧
          myMalloc s.heap n = .ok (heap', some ((cover pre : ℤ) + 1)) ∧
          Tiles heap'.words 0 (pre ++ (cutGap (blockWords n) (cover taken) ++ post)) f) := by
  obtain ⟨bs, hinv⟩ := hs.invariant (fun _ _ _ hs hnext => next_inv hs hnext)
    ⟨_, initial_inv hf hf' hinit⟩
  have htiles := hinv.tiled.tiles
  have hmapped := hinv.tiled.mapped
  have hpos : 0 < blockWords n := Nat.succ_pos _
  rw [hinv.size] at htiles hmapped
  refine ⟨bs, htiles, ?_⟩
  rcases myMalloc_gap hinv.tiled (by omega) (alignBytes_eq hn (by omega)) hpos with
    ⟨hgap, hnone⟩ | ⟨pre, taken, post, hbs, hneg, hfit, hgap, hsome⟩
  · have hshort := firstGap_none_short [] htiles.ne_zero (by simp) cover_nil.symm hpos hgap
    rw [List.nil_append] at hshort
    refine ⟨iff_of_true hnone hshort, ?_⟩
    rintro ⟨start, length, hrun, hle⟩
    have hlt := hshort start length hrun
    omega
  · obtain ⟨first, hlow, hstart⟩ :=
      firstGap_some_lowest [] htiles.ne_zero (by simp) cover_nil.symm le_rfl hpos hgap
    rw [List.nil_append] at hlow
    have hfirst : cover pre = first := by omega
    subst hfirst
    obtain ⟨length, hrun, hle⟩ := hlow.fits
    refine ⟨iff_of_false ?_ ?_, fun _ => ⟨pre, taken, post, _, hbs, hneg, hlow, hsome, ?_⟩⟩
    · rw [hsome]
      simp
    · intro hshort
      have hlt := hshort _ _ hrun
      omega
    · rw [hbs] at htiles
      exact tiles_writeGap htiles hmapped hpos hfit

/-- In every reachable state `my_malloc` gives `NULL` and changes nothing exactly if no run of
free blocks is long enough, and otherwise cuts its block from the start of the lowest such run. -/
theorem my_malloc_first_fit (hf : 1 ≤ f) (hmapping : mapping.length = mappedWords f)
    (hinit : myallocInitialize f mapping = .ok heap) (hs : Reachable next (initial heap) s)
    (hn : 1 ≤ n) (hn' : n ≤ 2 ^ 31) :
    ∃ bs, Tiles s.heap.words 0 bs f ∧
      (myMalloc s.heap n = .ok (s.heap, none) ↔
        ∀ start length, FreeRun bs start length → length < blockWords n) ∧
      ((∃ start length, FreeRun bs start length ∧ blockWords n ≤ length) →
        ∃ pre taken post heap', bs = pre ++ (taken ++ post) ∧ (∀ b ∈ taken, b < 0) ∧
          LowestRun bs (blockWords n) (cover pre) ∧
          myMalloc s.heap n = .ok (heap', some ((cover pre : ℤ) + 1)) ∧
          Tiles heap'.words 0 (pre ++ (cutGap (blockWords n) (cover taken) ++ post)) f) := by
  have hmap := myallocInitialize_mapped hinit
  have hpage : f ≤ 1024 := by
    rw [hmapping, mappedWords] at hmap
    omega
  apply malloc_lowest_run hf (by omega) hinit hs hn hn'

/-- The page that `mmap` gives for a file of five words. -/
theorem first_page : (List.replicate 1024 (0 : ℤ)).length = mappedWords 5 :=
  List.length_replicate

/-- The client of a file of five words, of which three are free after the first call. -/
theorem my_malloc_first_fit_ops : ∃ heap s,
    myallocInitialize 5 (List.replicate 1024 0) = .ok heap ∧
    run next (initial heap) [.malloc 1, .malloc 8, .free 3] = some s ∧
    ∃ bs, Tiles s.heap.words 0 bs 5 ∧
      (myMalloc s.heap (8 : ℕ) = .ok (s.heap, none) ↔
        ∀ start length, FreeRun bs start length → length < blockWords 8) ∧
      ((∃ start length, FreeRun bs start length ∧ blockWords 8 ≤ length) →
        ∃ pre taken post heap', bs = pre ++ (taken ++ post) ∧ (∀ b ∈ taken, b < 0) ∧
          LowestRun bs (blockWords 8) (cover pre) ∧
          myMalloc s.heap (8 : ℕ) = .ok (heap', some ((cover pre : ℤ) + 1)) ∧
          Tiles heap'.words 0 (pre ++ (cutGap (blockWords 8) (cover taken) ++ post)) 5) := by
  obtain ⟨heap, hinit, hsome⟩ : ∃ heap, myallocInitialize 5 (List.replicate 1024 0) = .ok heap ∧
      (run next (initial heap) [.malloc 1, .malloc 8, .free 3]).isSome := by
    refine ⟨_, myallocInitialize_eq (by decide) (by rw [List.length_replicate]; decide), ?_⟩
    decide +kernel
  obtain ⟨s, hrun⟩ := Option.isSome_iff_exists.mp hsome
  exact ⟨heap, s, hinit, hrun, my_malloc_first_fit (by decide) first_page hinit ⟨_, hrun⟩
    (by decide) (by decide)⟩

end Malloc

end Acos.SwapAlloc
