import Acos.SwapAlloc.FirstFit

/-! Requests of any 64-bit size. `align_bytes` narrows the number of words to an `int32_t`, so that
the size searched for may be another than the one asked for, and even zero. -/
namespace Acos.SwapAlloc
open Acos.Blocks Acos.MachineInt Acos.Transition

/-- The words of a request without its header. -/
def payloadWords (bytes : ℕ) : ℕ := (bytes + 3) / 4

/-- What the client does when a request may have any size. -/
def Requested (s : State) : Label → Prop
  | .malloc bytes => bytes < 2 ^ 64
  | l => Allowed s l

instance (s : State) (l : Label) : Decidable (Requested s l) :=
  match l with
  | .malloc bytes => inferInstanceAs (Decidable (bytes < 2 ^ 64))
  | .free ptr => inferInstanceAs (Decidable (Allowed s (.free ptr)))
  | .refree ptr => inferInstanceAs (Decidable (Allowed s (.refree ptr)))
  | .write index value => inferInstanceAs (Decidable (Allowed s (.write index value)))

def request (s : State) (l : Label) : Option State :=
  if Requested s l then (step s l).toOption else none

/-- If `my_malloc` returns a pointer, it is that of a block in the heap with room for the bytes,
and the headers still tile the heap. -/
def Sound (s : State) (bytes : ℕ) : Prop :=
  ∀ heap ptr, myMalloc s.heap bytes = .ok (heap, some ptr) →
    ∃ bs, Tiles heap.words 0 bs heap.f_size ∧ ∃ block ∈ used 0 bs,
      ptr = (block.1 : ℤ) + 1 ∧ bytes ≤ 4 * (block.2 - 1) ∧ block.1 + block.2 ≤ heap.f_size

/-- The number of words is kept when it is narrowed, or becomes negative but not `-1`, or becomes a
smaller one for which there is no gap. -/
def Faithful (s : State) (bytes : ℕ) : Prop :=
  payloadWords bytes < 2 ^ 31 ∨
    2 ^ 31 ≤ payloadWords bytes % 2 ^ 32 ∧ payloadWords bytes % 2 ^ 32 ≠ 2 ^ 32 - 1 ∨
    payloadWords bytes % 2 ^ 32 < 2 ^ 31 ∧ ∀ bs, Tiles s.heap.words 0 bs s.heap.f_size →
      ∀ start length, FreeRun bs start length → length < payloadWords bytes % 2 ^ 32 + 1

section Narrowing
variable {bytes : ℕ}

theorem alignBytes_i32 (hpos : 0 < bytes) : alignBytes bytes = i32 (payloadWords bytes) := by
  unfold alignBytes payloadWords
  rw [if_neg (by omega)]
  congr 1
  omega

/-- The narrowed number of words is not negative. -/
theorem request_small (hpos : 0 < bytes) (h : payloadWords bytes % 2 ^ 32 < 2 ^ 31) :
    u64 (u64 (alignBytes bytes) + 1) = (payloadWords bytes % 2 ^ 32 + 1 : ℕ) := by
  rw [alignBytes_i32 hpos]
  unfold u64 i32
  omega

/-- It is `-1`. -/
theorem request_zero (hpos : 0 < bytes) (h : payloadWords bytes % 2 ^ 32 = 2 ^ 32 - 1) :
    u64 (u64 (alignBytes bytes) + 1) = 0 := by
  rw [alignBytes_i32 hpos]
  unfold u64 i32
  omega

/-- It is another negative number. -/
theorem request_huge (hpos : 0 < bytes) (h : 2 ^ 31 ≤ payloadWords bytes % 2 ^ 32)
    (hne : payloadWords bytes % 2 ^ 32 ≠ 2 ^ 32 - 1) :
    ∃ size : ℕ, u64 (u64 (alignBytes bytes) + 1) = size ∧ 2 ^ 32 ≤ size := by
  refine ⟨2 ^ 64 - 2 ^ 32 + payloadWords bytes % 2 ^ 32 + 1, ?_, by omega⟩
  rw [alignBytes_i32 hpos]
  unfold u64 i32
  omega

end Narrowing

section Requests
variable {f bytes : ℕ} {s : State} {bs : List ℤ}

/-- A request for more words than there are finds nothing. -/
theorem firstGap_huge {size : ℕ} (htiled : Tiled s.heap bs) (hsize : 2 ^ 32 ≤ size) :
    firstGap size bs 0 0 = none := by
  cases hgap : firstGap size bs 0 0 with
  | none => rfl
  | some gap =>
    obtain ⟨start, length⟩ := gap
    obtain ⟨pre, run, post, hbs, -, -, hlength, hfit⟩ :=
      firstGap_some [] htiled.tiles.ne_zero (by simp) cover_nil.symm (le_refl 0) hgap
    have hend := htiled.tiles.end_eq
    have hsmall := htiled.small
    rw [List.nil_append] at hbs
    simp only [hbs, cover_append] at hend
    omega

/-- A faithful request gets a block of its size, or nothing. -/
theorem malloc_faithful (hs : Inv f s bs) (hpos : 0 < bytes) (h : Faithful s bytes) :
    payloadWords bytes < 2 ^ 31 ∨ myMalloc s.heap bytes = .ok (s.heap, none) := by
  rcases h with h | ⟨h, hne⟩ | ⟨h, hshort⟩
  · exact .inl h
  · obtain ⟨size, hsize, hhuge⟩ := request_huge hpos h hne
    rcases myMalloc_gap hs.tiled (by omega) hsize (by omega) with
      ⟨-, hnone⟩ | ⟨pre, run, post, -, -, -, hgap, -⟩
    · exact .inr hnone
    · rw [firstGap_huge hs.tiled hhuge] at hgap
      cases hgap
  · rcases myMalloc_gap hs.tiled (by omega) (request_small hpos h) (by omega) with
      ⟨-, hnone⟩ | ⟨pre, run, post, -, -, -, hgap, -⟩
    · exact .inr hnone
    · obtain ⟨first, hlow, -⟩ := firstGap_some_lowest [] hs.tiled.tiles.ne_zero (by simp)
        cover_nil.symm le_rfl (by omega) hgap
      obtain ⟨length, hrun, hle⟩ := hlow.fits
      have hlt := hshort bs hs.tiled.tiles first length (by rwa [List.nil_append] at hrun)
      omega

theorem malloc_null_inv (hs : Inv f s bs) (h : myMalloc s.heap bytes = .ok (s.heap, none)) :
    step s (.malloc bytes) = .ok { s with freed := [] } ∧ Inv f { s with freed := [] } bs := by
  refine ⟨?_, hs.size, hs.tiled, hs.blocks, hs.long, by simp⟩
  simp only [step, h, Except.map]

/-- Every request of the step is faithful. -/
def FaithfulStep (s : State) : Label → Prop
  | .malloc bytes => Faithful s bytes
  | _ => True

theorem request_inv {t : State} {l : Label} (hs : Inv f s bs) (hl : FaithfulStep s l)
    (h : request s l = some t) : ∃ bs, Inv f t bs := by
  unfold request at h
  split_ifs at h with hrequested
  have hstep : ∃ t bs, step s l = .ok t ∧ Inv f t bs := by
    cases l with
    | malloc bytes =>
      by_cases hzero : bytes = 0
      · have hsmall : (bytes + 3) / 4 < 2 ^ 31 := by omega
        obtain ⟨t, bs', ht, hinv, -⟩ := malloc_inv hs hsmall
        exact ⟨t, bs', ht, hinv⟩
      · rcases malloc_faithful hs (Nat.pos_of_ne_zero hzero) hl with hsmall | hnone
        · obtain ⟨t, bs', ht, hinv, -⟩ := malloc_inv hs hsmall
          exact ⟨t, bs', ht, hinv⟩
        · exact ⟨_, bs, malloc_null_inv hs hnone⟩
    | free ptr =>
      obtain ⟨t, bs', ht, hinv, -⟩ := step_inv hs (l := .free ptr) hrequested
      exact ⟨t, bs', ht, hinv⟩
    | refree ptr =>
      obtain ⟨t, bs', ht, hinv, -⟩ := step_inv hs (l := .refree ptr) hrequested
      exact ⟨t, bs', ht, hinv⟩
    | write index value =>
      obtain ⟨t, bs', ht, hinv, -⟩ := step_inv hs (l := .write index value) hrequested
      exact ⟨t, bs', ht, hinv⟩
  obtain ⟨u, bs', hu, hinv⟩ := hstep
  rw [hu] at h
  cases h
  exact ⟨bs', hinv⟩

theorem sound_of_faithful (hs : Inv f s bs) (hpos : 0 < bytes) (h : Faithful s bytes) :
    Sound s bytes := by
  intro heap ptr hmalloc
  rcases malloc_faithful hs hpos h with hsmall | hnone
  · rcases myMalloc_tiled hs.tiled hsmall with hnone | ⟨pre, run, post, hbs, -, -, hfit, hsome⟩
    · rw [hnone] at hmalloc
      cases hmalloc
    · rw [hsome] at hmalloc
      cases hmalloc
      have htiles := hs.tiled.tiles
      rw [hbs] at htiles
      have hwords : 0 < blockWords bytes := Nat.succ_pos _
      have hcut := tiles_writeGap htiles hs.tiled.mapped hwords hfit
      have hend := hcut.end_eq
      refine ⟨_, hcut, (cover pre, blockWords bytes), ?_, rfl, ?_, ?_⟩
      · rw [used_append, used_append, used_cutGap _ hwords]
        simp
      · unfold blockWords
        omega
      · simp only [cover_append, cover_cutGap hfit] at hend
        simp only
        omega
  · rw [hnone] at hmalloc
    cases hmalloc

/-- The header of a used block is its length. -/
theorem used_header {words : List ℤ} {j : ℕ} {block : ℕ × ℕ} (htiles : Tiles words 0 bs j)
    (hblock : block ∈ used 0 bs) : words[block.1]? = some (block.2 : ℤ) := by
  obtain ⟨pre, post, rfl, hstart, -⟩ := used_split hblock
  obtain ⟨-, hheader, -⟩ := tiles_append.mp htiles
  rwa [hstart]

theorem writeGap_start {words : List ℤ} {start size gap : ℕ} (h : start < words.length) :
    (writeGap words start size gap)[start]? = some (size : ℤ) := by
  unfold writeGap
  split_ifs
  · rw [List.getElem?_set_self (by simpa using h)]
  · rw [List.getElem?_set_self h]

/-- A request whose words are narrowed to `-1` writes a zero over the first header. -/
theorem myMalloc_zero {h : Heap} (hpos : 0 < bytes) (hlen : 0 < h.words.length)
    (hzero : payloadWords bytes % 2 ^ 32 = 2 ^ 32 - 1) :
    myMalloc h bytes = .ok (⟨h.words.set 0 0, h.f_size⟩, some 1) := by
  have hstore := store_of (h := h) 0 hlen
  rw [show ((0 : ℕ) : ℤ) = 0 from rfl] at hstore
  unfold myMalloc
  rw [if_neg (by omega)]
  simp only [request_zero hpos hzero]
  rw [show findFirstEmptyGap h 0 = .ok (0, 0) from rfl]
  simp only [Except.bind]
  rw [takeGap, if_neg (by decide), if_neg (by decide)]
  simp only [Except.bind, show i32 0 = 0 from rfl, hstore]
  rfl

theorem faithful_of_sound (hs : Inv f s bs) (hf : 1 ≤ f) (hpos : 0 < bytes) (h : Sound s bytes) :
    Faithful s bytes := by
  have hmapped := hs.tiled.mapped
  have hsize := hs.size
  by_cases hzero : payloadWords bytes % 2 ^ 32 = 2 ^ 32 - 1
  · obtain ⟨bs', htiles, -⟩ := h _ _ (myMalloc_zero hpos (by omega) hzero)
    cases bs' with
    | nil =>
      have hend : 0 = s.heap.f_size := htiles
      omega
    | cons b bs' =>
      obtain ⟨hb, hne, -⟩ := htiles
      rw [List.getElem?_set_self (by omega)] at hb
      exact absurd (Option.some.inj hb).symm hne
  · by_cases hsmall : payloadWords bytes % 2 ^ 32 < 2 ^ 31
    · by_cases hwords : payloadWords bytes < 2 ^ 31
      · exact .inl hwords
      · refine .inr (.inr ⟨hsmall, fun bs' htiles start length hrun => ?_⟩)
        have htiled : Tiled s.heap bs' := ⟨htiles, hmapped, hs.tiled.small⟩
        have hpositive : 0 < payloadWords bytes % 2 ^ 32 + 1 := Nat.succ_pos _
        rcases myMalloc_gap htiled (by omega) (request_small hpos hsmall) hpositive with
          ⟨hgap, -⟩ | ⟨pre, taken, post, hbs, -, hfit, -, hsome⟩
        · exact firstGap_none_short [] htiles.ne_zero (by simp) cover_nil.symm hpositive hgap
            start length (by rwa [List.nil_append])
        · obtain ⟨bs'', htiles', block, hblock, hptr, hroom, -⟩ := h _ _ hsome
          have hend := htiles.end_eq
          simp only [hbs, cover_append] at hend
          have hstart : block.1 = cover pre := by omega
          have hheader := used_header htiles' hblock
          rw [hstart, writeGap_start (by omega)] at hheader
          have hlength : block.2 = payloadWords bytes % 2 ^ 32 + 1 :=
            (Int.ofNat.inj (Option.some.inj hheader)).symm
          unfold payloadWords at hwords hsmall hlength
          omega
    · exact .inr (.inl ⟨by omega, hzero⟩)

end Requests

section Main
variable {f bytes : ℕ} {mapping : List ℤ} {heap : Heap} {s : State}

/-- After a run of faithful requests a request of any size is sound exactly if it is faithful. -/
theorem my_malloc_sound_iff (hf : 1 ≤ f) (hf' : f < 2 ^ 31)
    (hinit : myallocInitialize f mapping = .ok heap) {ops : List Label}
    (hrun : run request (initial heap) ops = some s)
    (hops : Along request FaithfulStep (initial heap) ops) (hpos : 0 < bytes) :
    Sound s bytes ↔ Faithful s bytes := by
  obtain ⟨bs, hinv⟩ := run_invariant_along
    (fun _ _ _ hs hl hnext => request_inv hs.choose_spec hl hnext)
    ⟨_, initial_inv hf hf' hinit⟩ hops hrun
  exact ⟨faithful_of_sound hinv hf hpos, sound_of_faithful hinv hpos⟩

/-- Four bytes after two blocks were taken from a heap of five words, one of them freed twice and
taken again. -/
theorem my_malloc_sound_ops : ∃ heap s, myallocInitialize 5 (List.replicate 5 0) = .ok heap ∧
    run request (initial heap) clientOps = some s ∧ Sound s 4 := by
  obtain ⟨heap, s, hinit, hrun⟩ : ∃ heap s, myallocInitialize 5 (List.replicate 5 0) = .ok heap ∧
      run request (initial heap) clientOps = some s := ⟨_, _, rfl, rfl⟩
  have hwords : ∀ bytes ∈ [1, 4, 8], payloadWords bytes < 2 ^ 31 := by decide
  have hops : Along request FaithfulStep (initial heap) clientOps := by
    cases hinit
    exact .cons (.inl (hwords 1 (by decide))) rfl <| .cons (.inl (hwords 8 (by decide))) rfl <|
      .cons trivial rfl <| .cons trivial rfl <| .cons trivial rfl <|
      .cons (.inl (hwords 4 (by decide))) rfl trivial
  have hiff : Sound s 4 ↔ Faithful s 4 :=
    my_malloc_sound_iff (by decide) (by decide) hinit hrun hops (by decide)
  exact ⟨heap, s, hinit, hrun, hiff.mpr (.inl (hwords 4 (by decide)))⟩

/-- In a heap of five words a request of `2 ^ 34 - 4` bytes returns a pointer, and a zero stands
where the first header was. -/
theorem my_malloc_unsound : ∃ heap, myallocInitialize 5 (List.replicate 5 0) = .ok heap ∧
    ¬ Sound (initial heap) (2 ^ 34 - 4) := by
  refine ⟨⟨[-5, 0, 0, 0, 0], 5⟩, rfl, fun hsound => ?_⟩
  have hmalloc : myMalloc ⟨[-5, 0, 0, 0, 0], 5⟩ (2 ^ 34 - 4 : ℕ) =
      .ok (⟨[0, 0, 0, 0, 0], 5⟩, some 1) := by decide
  obtain ⟨bs, htiles, -⟩ := hsound _ _ hmalloc
  cases bs with
  | nil => cases htiles
  | cons b bs =>
    obtain ⟨hb, hne, -⟩ := htiles
    exact absurd (Option.some.inj hb).symm hne

end Main

end Acos.SwapAlloc
