import Acos.SwapAlloc.Requests

/-! Where the allocator reads and writes. `f_size` counts words when it is handed to `mmap` as a
number of bytes; the rounding to pages makes up for that in small files. -/
namespace Acos.SwapAlloc
open Acos.Blocks Acos.MachineInt Acos.Transition

/-- The heap and what `my_malloc` has returned so far. -/
structure Session where
  heap : Heap
  returned : List (Option ℤ)
  deriving DecidableEq, Repr

inductive Call where
  | malloc (bytes : ℕ)
  | free (ptr : Option ℤ)
  deriving DecidableEq, Repr

/-- A pointer may be passed to `my_free` again, and when its block is part of another one. -/
def Permitted (s : Session) : Call → Prop
  | .malloc bytes => bytes < 2 ^ 64
  | .free ptr => ptr ∈ s.returned

instance (s : Session) (c : Call) : Decidable (Permitted s c) :=
  match c with
  | .malloc bytes => inferInstanceAs (Decidable (bytes < 2 ^ 64))
  | .free ptr => inferInstanceAs (Decidable (ptr ∈ s.returned))

def call (s : Session) : Call → Except Fault Session
  | .malloc bytes =>
    (myMalloc s.heap bytes).map fun (heap, ptr) => ⟨heap, ptr :: s.returned⟩
  | .free ptr => (myFree s.heap ptr).map fun heap => ⟨heap, s.returned⟩

def nextCall (s : Session) (c : Call) : Option Session :=
  if Permitted s c then (call s c).toOption else none

/-- A call that returns or ends the process without an access outside the mapping. -/
def Inside {α : Type} (result : Except Fault α) : Prop :=
  (∃ a, result = .ok a) ∨ result = .error .segmentation ∨ result = .error .wrongPtr

/-- For a file of `bytes` bytes, whatever is in it, and every sequence of calls no access lies
outside the mapping. -/
def StaysInside (bytes : ℕ) : Prop :=
  ∀ mapping : List ℤ, mapping.length = mappedWords (bytes / 4) →
    Inside (myallocInitialize (bytes / 4) mapping) ∧
    ∀ heap s, myallocInitialize (bytes / 4) mapping = .ok heap →
      Reachable nextCall ⟨heap, []⟩ s → ∀ c, Permitted s c → Inside (call s c)

/-- The headers tile the heap from word `j` on; if that is not its start, its first word is zero. A
pointer returned is that of a used block, or its header is not positive. -/
structure SessionInv (f : ℕ) (s : Session) (j : ℕ) (bs : List ℤ) : Prop where
  size : s.heap.f_size = f
  mapped : f ≤ s.heap.words.length
  tiles : Tiles s.heap.words j bs f
  first : j = 0 ∨ s.heap.words[0]? = some 0
  returned : ∀ ptr, some ptr ∈ s.returned → ∃ k : ℕ, ptr = (k : ℤ) + 1 ∧ k < f ∧
    ((∃ length, (k, length) ∈ used j bs) ∨ ∃ v ≤ 0, s.heap.words[k]? = some v)

section Session
variable {f j : ℕ} {s : Session} {bs : List ℤ}

/-- A step that keeps the place of a pointer returned earlier. -/
def Follows (f : ℕ) (words words' : List ℤ) (j j' : ℕ) (bs bs' : List ℤ) : Prop :=
  ∀ k < f, ((∃ length, (k, length) ∈ used j bs) ∨ ∃ v ≤ 0, words[k]? = some v) →
    (∃ length, (k, length) ∈ used j' bs') ∨ ∃ v ≤ 0, words'[k]? = some v

theorem SessionInv.keep (hs : SessionInv f s j bs) {words : List ℤ} {j' : ℕ} {bs' : List ℤ}
    (h : Follows f s.heap.words words j j' bs bs') :
    ∀ ptr, some ptr ∈ s.returned → ∃ k : ℕ, ptr = (k : ℤ) + 1 ∧ k < f ∧
      ((∃ length, (k, length) ∈ used j' bs') ∨ ∃ v ≤ 0, words[k]? = some v) := by
  intro ptr hptr
  obtain ⟨k, hk, hin, hplace⟩ := hs.returned ptr hptr
  exact ⟨k, hk, hin, h k hin hplace⟩

/-- A zero is written over the first header. -/
theorem zero_inv (hf : 1 ≤ f) (hs : SessionInv f s j bs) :
    ∃ j' bs',
      SessionInv f ⟨⟨s.heap.words.set 0 0, s.heap.f_size⟩, some 1 :: s.returned⟩ j' bs' := by
  have hmapped := hs.mapped
  obtain ⟨j', bs', hj', htiles, hused⟩ : ∃ j' bs', 1 ≤ j' ∧ Tiles s.heap.words j' bs' f ∧
      ∀ k length, k ≠ 0 → (k, length) ∈ used j bs → (k, length) ∈ used j' bs' := by
    by_cases hj : j = 0
    · subst hj
      cases bs with
      | nil =>
        have hend : 0 = f := hs.tiles
        omega
      | cons b bs =>
        obtain ⟨hb, hne, hrest⟩ := hs.tiles
        refine ⟨0 + b.natAbs, bs, by omega, hrest, fun k length hk hmem => ?_⟩
        rw [used] at hmem
        split_ifs at hmem
        · rcases List.mem_cons.mp hmem with heq | hmem
          · exact absurd (congrArg Prod.fst heq) hk
          · exact hmem
        · exact hmem
    · exact ⟨j, bs, by omega, hs.tiles, fun _ _ _ hmem => hmem⟩
  have hzero : (s.heap.words.set 0 0)[0]? = some 0 := List.getElem?_set_self (by omega)
  have hfollows : Follows f s.heap.words (s.heap.words.set 0 0) j j' bs bs' := by
    intro k hk hplace
    by_cases hk0 : k = 0
    · exact .inr ⟨0, le_rfl, by rw [hk0, hzero]⟩
    · refine hplace.imp ?_ ?_
      · rintro ⟨length, hmem⟩
        exact ⟨length, hused k length hk0 hmem⟩
      · rintro ⟨v, hv, hword⟩
        exact ⟨v, hv, by rw [List.getElem?_set_ne (Ne.symm hk0), hword]⟩
  refine ⟨j', bs', hs.size, by simpa using hmapped, ?_, .inr hzero, ?_⟩
  · exact htiles.congr fun k hk _ => List.getElem?_set_ne (by omega)
  · intro ptr hptr
    rcases List.mem_cons.mp hptr with heq | hptr
    · cases heq
      exact ⟨0, rfl, by omega, .inr ⟨0, le_rfl, hzero⟩⟩
    · exact hs.keep hfollows ptr hptr

/-- A block is cut from a gap of the tiled heap. -/
theorem cut_inv {pre run post : List ℤ} {size : ℕ} (hs : SessionInv f s 0 (pre ++ (run ++ post)))
    (hneg : ∀ b ∈ run, b < 0) (hsize : 0 < size) (hfit : size ≤ cover run) :
    SessionInv f ⟨⟨writeGap s.heap.words (cover pre) size (cover run), s.heap.f_size⟩,
      some ((cover pre : ℤ) + 1) :: s.returned⟩ 0 (pre ++ (cutGap size (cover run) ++ post)) := by
  have hmapped := hs.mapped
  have hend := hs.tiles.end_eq
  simp only [cover_append] at hend
  have hnew : (cover pre, size) ∈ used 0 (pre ++ (cutGap size (cover run) ++ post)) := by
    rw [used_append, used_append, used_cutGap _ hsize, Nat.zero_add]
    simp
  have hfollows : Follows f s.heap.words (writeGap s.heap.words (cover pre) size (cover run)) 0 0
      (pre ++ (run ++ post)) (pre ++ (cutGap size (cover run) ++ post)) := by
    rintro k hk (⟨length, hmem⟩ | ⟨v, hv, hword⟩)
    · refine .inl ⟨length, ?_⟩
      rw [used_append, used_append, used_of_free _ hneg] at hmem
      rw [used_append, used_append, cover_cutGap hfit]
      simp only [List.nil_append, List.mem_append] at hmem ⊢
      exact hmem.imp id .inr
    · by_cases hstart : k = cover pre
      · exact .inl ⟨size, by rw [hstart]; exact hnew⟩
      · by_cases hrest : k = cover pre + size
        · by_cases hlt : size < cover run
          · refine .inr ⟨-((cover run : ℤ) - size), by omega, ?_⟩
            rw [hrest, writeGap, if_pos hlt, List.getElem?_set_ne (by omega),
              List.getElem?_set_self (by omega)]
          · refine .inr ⟨v, hv, ?_⟩
            rw [writeGap, if_neg hlt, List.getElem?_set_ne (Ne.symm hstart), hword]
        · exact .inr ⟨v, hv, by rw [writeGap_getElem? hstart hrest, hword]⟩
  refine ⟨hs.size, by rwa [writeGap_length], tiles_writeGap hs.tiles hmapped hsize hfit, .inl rfl,
    ?_⟩
  intro ptr hptr
  rcases List.mem_cons.mp hptr with heq | hptr
  · cases heq
    exact ⟨cover pre, rfl, by omega, .inl ⟨size, hnew⟩⟩
  · exact hs.keep hfollows ptr hptr

/-- A used block becomes free, together with the free blocks right after it. -/
theorem join_inv {pre post : List ℤ} {size : ℕ}
    (hs : SessionInv f s j (pre ++ (size : ℤ) :: post)) (hsize : 0 < size) :
    SessionInv f ⟨⟨s.heap.words.set (j + cover pre)
      (-((size + cover (post.takeWhile (· < 0)) : ℕ) : ℤ)), s.heap.f_size⟩, s.returned⟩ j
      (pre ++ joinFree size post) := by
  have hmapped := hs.mapped
  have hend := hs.tiles.end_eq
  have hjoin := tiles_joinFree hs.tiles hmapped
  obtain ⟨-, hheader, -⟩ := tiles_append.mp hs.tiles
  rw [Int.natAbs_natCast] at hjoin
  simp only [cover_append, cover_cons, Int.natAbs_natCast] at hend
  have hzero : (s.heap.words.set (j + cover pre)
      (-((size + cover (post.takeWhile (· < 0)) : ℕ) : ℤ)))[j + cover pre]? =
        some (-((size + cover (post.takeWhile (· < 0)) : ℕ) : ℤ)) :=
    List.getElem?_set_self (by omega)
  refine ⟨hs.size, by simpa using hmapped, hjoin, ?_, hs.keep ?_⟩
  · refine hs.first.imp id fun hfirst => ?_
    have hne : j + cover pre ≠ 0 := by
      intro heq
      rw [heq, hfirst] at hheader
      have hlength := Option.some.inj hheader
      omega
    rw [List.getElem?_set_ne hne, hfirst]
  · intro k hk hplace
    by_cases hstart : k = j + cover pre
    · subst hstart
      exact .inr ⟨_, Int.neg_nonpos_of_nonneg (Int.natCast_nonneg _), hzero⟩
    · refine hplace.imp ?_ fun ⟨v, hv, hword⟩ =>
        ⟨v, hv, by rw [List.getElem?_set_ne (Ne.symm hstart), hword]⟩
      rintro ⟨length, hmem⟩
      refine ⟨length, ?_⟩
      rw [used_append, used_joinFree, Int.natAbs_natCast]
      rw [used_append, used, if_pos (by omega), Int.natAbs_natCast] at hmem
      rcases List.mem_append.mp hmem with hmem | hmem
      · exact List.mem_append_left _ hmem
      · rcases List.mem_cons.mp hmem with heq | hmem
        · exact absurd (congrArg Prod.fst heq) hstart
        · exact List.mem_append_right _ hmem

theorem null_inv (hs : SessionInv f s j bs) :
    SessionInv f ⟨s.heap, none :: s.returned⟩ j bs :=
  ⟨hs.size, hs.mapped, hs.tiles, hs.first, fun ptr hptr =>
    hs.returned ptr ((List.mem_cons.mp hptr).resolve_left (by simp))⟩

/-- In a heap that is tiled from its start `my_malloc` returns, and in another one it writes the
first header again or ends the process. -/
theorem malloc_session (hf : 1 ≤ f) (hf' : f < 2 ^ 31) (hs : SessionInv f s j bs) (bytes : ℕ) :
    (∃ t j' bs', call s (.malloc bytes) = .ok t ∧ SessionInv f t j' bs') ∨
      call s (.malloc bytes) = .error .segmentation := by
  have hsize := hs.size
  have hmapped := hs.mapped
  by_cases hbytes : bytes = 0
  · subst hbytes
    exact .inl ⟨_, j, bs, rfl, null_inv hs⟩
  · have hpos := Nat.pos_of_ne_zero hbytes
    by_cases hzero : payloadWords bytes % 2 ^ 32 = 2 ^ 32 - 1
    · obtain ⟨j', bs', hinv⟩ := zero_inv hf hs
      have hmalloc := myMalloc_zero (h := s.heap) hpos (by omega) hzero
      refine .inl ⟨_, j', bs', ?_, hinv⟩
      simp only [call, hmalloc, Except.map]
    · obtain ⟨size, hwords, hpositive⟩ :
          ∃ size : ℕ, u64 (u64 (alignBytes bytes) + 1) = size ∧ 0 < size := by
        by_cases hsmall : payloadWords bytes % 2 ^ 32 < 2 ^ 31
        · exact ⟨_, request_small hpos hsmall, Nat.succ_pos _⟩
        · obtain ⟨size, hwords, hhuge⟩ := request_huge hpos (by omega) hzero
          exact ⟨size, hwords, by omega⟩
      rcases hs.first with rfl | hfirst
      · have htiled : Tiled s.heap bs := ⟨hsize ▸ hs.tiles, by omega, by omega⟩
        rcases myMalloc_gap htiled hbytes hwords hpositive with
          ⟨-, hnone⟩ | ⟨pre, run, post, rfl, hneg, hfit, -, hsome⟩
        · refine .inl ⟨_, 0, bs, ?_, null_inv hs⟩
          simp only [call, hnone, Except.map]
        · refine .inl ⟨_, 0, _, ?_, cut_inv hs hneg hpositive hfit⟩
          simp only [call, hsome, Except.map]
      · right
        have hload : s.heap.load 0 = .ok 0 := load_of (k := 0) hfirst
        have hin : u64 0 < (s.heap.f_size : ℤ) := by
          rw [u64_of_range (by omega) (by omega)]
          omega
        have hsearch : findFirstEmptyGap s.heap size = .error .segmentation := by
          rw [findFirstEmptyGap, if_neg (by omega), findLoop, if_pos hin, hload]
          rfl
        have hmalloc : myMalloc s.heap bytes = .error .segmentation := by
          rw [myMalloc, if_neg (by omega)]
          simp only [hwords, hsearch, Except.bind]
        simp only [call, hmalloc, Except.map]

theorem free_session (hf' : f < 2 ^ 31) (hs : SessionInv f s j bs) {ptr : Option ℤ}
    (hptr : ptr ∈ s.returned) :
    (∃ t j' bs', call s (.free ptr) = .ok t ∧ SessionInv f t j' bs') ∨
      call s (.free ptr) = .error .wrongPtr := by
  have hsize := hs.size
  have hmapped := hs.mapped
  cases ptr with
  | none => exact .inr rfl
  | some ptr =>
    obtain ⟨k, rfl, hk, hplace⟩ := hs.returned ptr hptr
    by_cases hend : k + 1 = f
    · right
      have hfree : myFree s.heap (some ((k : ℤ) + 1)) = .error .wrongPtr := by
        simp only [myFree]
        rw [if_pos (by omega)]
      simp only [call, hfree, Except.map]
    · left
      rcases hplace with ⟨length, hmem⟩ | ⟨v, hv, hword⟩
      · obtain ⟨pre, post, rfl, hstart, hpos⟩ := used_split hmem
        simp only at hstart hpos
        subst hstart
        have hlast := hs.tiles.end_eq
        simp only [cover_append, cover_cons, Int.natAbs_natCast] at hlast
        have hfree := myFree_tiles (hsize ▸ hs.tiles) (by omega) (by omega)
          (show j + cover pre + 1 < s.heap.f_size by omega)
        rw [Nat.cast_add (j + cover pre), Nat.cast_one] at hfree
        refine ⟨_, j, _, ?_, join_inv hs hpos⟩
        simp only [call, hfree, Except.map]
      · refine ⟨s, j, bs, ?_, hs⟩
        have hfree : myFree s.heap (some ((k : ℤ) + 1)) = .ok s.heap := by
          have hindex : (k : ℤ) + 1 - 1 = k := by omega
          simp only [myFree]
          rw [if_neg (by omega), hindex, load_of hword]
          simp only [Except.bind]
          rw [if_pos hv]
        simp only [call, hfree, Except.map]

end Session

section Main
variable {bytes : ℕ}

theorem nextCall_inv {f : ℕ} (hf : 1 ≤ f) (hf' : f < 2 ^ 31) {s t : Session} {c : Call}
    (hs : ∃ j bs, SessionInv f s j bs) (h : nextCall s c = some t) :
    ∃ j bs, SessionInv f t j bs := by
  obtain ⟨j, bs, hs⟩ := hs
  unfold nextCall at h
  split_ifs at h with hc
  have hcall : (∃ t j' bs', call s c = .ok t ∧ SessionInv f t j' bs') ∨
      ∃ fault, call s c = .error fault := by
    cases c with
    | malloc bytes => exact (malloc_session hf hf' hs bytes).imp id fun hexit => ⟨_, hexit⟩
    | free ptr => exact (free_session hf' hs hc).imp id fun hexit => ⟨_, hexit⟩
  rcases hcall with ⟨u, j', bs', hu, hinv⟩ | ⟨fault, hfault⟩
  · rw [hu] at h
    cases h
    exact ⟨j', bs', hinv⟩
  · rw [hfault] at h
    cases h

theorem staysInside_of_small (hlo : 4 ≤ bytes) (hhi : bytes < 4100) : StaysInside bytes := by
  intro mapping hmapping
  obtain ⟨f, hf⟩ : ∃ f, bytes / 4 = f := ⟨_, rfl⟩
  have hmap : f ≤ mapping.length := by
    rw [hmapping, mappedWords]
    omega
  rw [hf]
  refine ⟨.inl ⟨_, myallocInitialize_eq (by omega) hmap⟩, ?_⟩
  intro heap s hinit hs c hc
  have hstart := initial_inv (by omega) (by omega) hinit
  have hfirst : SessionInv f ⟨heap, []⟩ 0 [-(f : ℤ)] := by
    have hsize : heap.f_size = f := hstart.size
    have htiles := hstart.tiled.tiles
    have hmapped := hstart.tiled.mapped
    simp only [initial, hsize] at htiles hmapped
    exact ⟨hsize, hmapped, htiles, .inl rfl, by simp⟩
  obtain ⟨j, bs, hinv⟩ := hs.invariant
    (fun _ _ _ hs hnext => nextCall_inv (by omega) (by omega) hs hnext) ⟨0, _, hfirst⟩
  cases c with
  | malloc bytes =>
    rcases malloc_session (by omega) (by omega) hinv bytes with ⟨t, -, -, ht, -⟩ | hexit
    · exact .inl ⟨t, ht⟩
    · exact .inr (.inl hexit)
  | free ptr =>
    rcases free_session (by omega) hinv hc with ⟨t, -, -, ht, -⟩ | hexit
    · exact .inl ⟨t, ht⟩
    · exact .inr (.inr hexit)

/-- In a larger file the zeros of `memset` already go past the mapping. -/
theorem myallocInitialize_outside {f : ℕ} {mapping : List ℤ} (hf : 1025 ≤ f)
    (hmapping : mapping.length = mappedWords f) :
    myallocInitialize f mapping = .error .outside := by
  have hshort : mappedWords f < f := by
    unfold mappedWords
    omega
  rw [myallocInitialize, if_neg (by omega)]

theorem not_staysInside (hbytes : 4100 ≤ bytes) : ¬ StaysInside bytes := by
  intro h
  have hlength : (List.replicate (mappedWords (bytes / 4)) (0 : ℤ)).length =
      mappedWords (bytes / 4) := List.length_replicate
  obtain ⟨hinit, -⟩ := h _ hlength
  rw [myallocInitialize_outside (by omega) hlength] at hinit
  rcases hinit with ⟨heap, hok⟩ | hexit | hexit
  · cases hok
  · cases hexit
  · cases hexit

/-- All accesses lie inside the mapping exactly if the file has at most 1024 whole words. -/
theorem swap_mapping_iff (hbytes : 4 ≤ bytes) : StaysInside bytes ↔ bytes < 4100 := by
  constructor
  · intro h
    by_contra hge
    exact not_staysInside (by omega) h
  · exact staysInside_of_small hbytes

theorem swap_mapping_page : StaysInside 4096 ↔ 4096 < 4100 := swap_mapping_iff (by decide)

/-- A file of 1025 words, of which 1024 are mapped. -/
theorem swap_mapping_outside : ¬ StaysInside 4100 := not_staysInside le_rfl

end Main

end Acos.SwapAlloc
