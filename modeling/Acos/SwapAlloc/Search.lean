import Acos.Lib.Blocks
import Acos.SwapAlloc.Model

/-! What the two functions of the allocator do to a heap that its headers tile, in terms of
the list of headers. -/
namespace Acos.SwapAlloc
open Acos.Blocks Acos.MachineInt

theorem load_of {h : Heap} {k : ℕ} {v : ℤ} (hv : h.words[k]? = some v) : h.load k = .ok v := by
  simp [Heap.load, hv]

theorem store_of {h : Heap} {k : ℕ} (v : ℤ) (hk : k < h.words.length) :
    h.store k v = .ok { h with words := h.words.set k v } := by
  simp [Heap.store, hk]

theorem myallocInitialize_eq {f : ℕ} {mapping : List ℤ} (hf : 1 ≤ f) (hmap : f ≤ mapping.length) :
    myallocInitialize f mapping =
      .ok ⟨(List.replicate f 0 ++ mapping.drop f).set 0 (i32 (-i32 f)), f⟩ := by
  have hlen : 0 < (List.replicate f (0 : ℤ) ++ mapping.drop f).length := by
    rw [List.length_append, List.length_replicate]
    omega
  have hstore := store_of (h := ⟨List.replicate f 0 ++ mapping.drop f, f⟩) (i32 (-i32 f)) hlen
  rw [myallocInitialize, if_pos hmap, ← hstore]
  rfl

theorem myallocInitialize_mapped {f : ℕ} {mapping : List ℤ} {heap : Heap}
    (h : myallocInitialize f mapping = .ok heap) : f ≤ mapping.length := by
  unfold myallocInitialize at h
  split_ifs at h with hmap
  exact hmap

/-- The headers tile the heap, which is small enough for its indices to be `int`s. -/
structure Tiled (h : Heap) (bs : List ℤ) : Prop where
  tiles : Tiles h.words 0 bs h.f_size
  mapped : h.f_size ≤ h.words.length
  small : h.f_size < 2 ^ 31

section Search

/-- The first gap of `size` words: with `g` free words before word `i`, where it starts and how
long it is once it is long enough. -/
def firstGap (size : ℕ) : List ℤ → ℕ → ℕ → Option (ℕ × ℕ)
  | [], _, _ => none
  | b :: bs, i, g =>
    if 0 < b then firstGap size bs (i + b.natAbs) 0
    else if size ≤ b.natAbs + g then some (i - g, b.natAbs + g)
    else firstGap size bs (i + b.natAbs) (g + b.natAbs)

/-- The result of `find_first_empty_gap` for a gap, if there is one. -/
def gapResult : Option (ℕ × ℕ) → ℤ × ℤ
  | none => (-1, 0)
  | some (start, length) => (start, length)

theorem findLoop_tiles {h : Heap} {size fuel i g : ℕ} {bs : List ℤ}
    (htiles : Tiles h.words i bs h.f_size) (hsmall : h.f_size < 2 ^ 31) (hg : g ≤ i)
    (hfuel : bs.length < fuel) :
    findLoop h size fuel i g = .ok (gapResult (firstGap size bs i g)) := by
  induction bs generalizing i g fuel with
  | nil =>
    obtain ⟨fuel, rfl⟩ := Nat.exists_eq_add_of_lt hfuel
    have hend : i = h.f_size := htiles
    have hstop : ¬ u64 i < h.f_size := by
      rw [u64_of_range (by omega) (by omega)]
      omega
    simp only [List.length_nil, Nat.zero_add, findLoop, if_neg hstop, firstGap, gapResult]
  | cons b bs ih =>
    obtain ⟨fuel, rfl⟩ := Nat.exists_eq_succ_of_ne_zero (show fuel ≠ 0 by omega)
    have hend := htiles.end_eq
    obtain ⟨hb, hne, hrest⟩ := htiles
    rw [cover_cons] at hend
    have hgo : u64 i < h.f_size := by
      rw [u64_of_range (by omega) (by omega)]
      omega
    have hlen : bs.length < fuel := by
      rw [List.length_cons] at hfuel
      omega
    have hnext : i32 ((i : ℤ) + b.natAbs) = ((i + b.natAbs : ℕ) : ℤ) := by
      rw [i32_of_range (by omega) (by omega)]
      omega
    rw [findLoop, if_pos hgo, load_of hb]
    simp only [Except.bind, firstGap]
    by_cases hpos : 0 < b
    · have habs : (b.natAbs : ℤ) = b := by omega
      rw [habs] at hnext
      rw [if_pos hpos, if_pos hpos, hnext]
      exact ih hrest (Nat.zero_le _) hlen
    · have habs : i32 (-b) = b.natAbs := by
        rw [i32_of_range (by omega) (by omega)]
        omega
      have hsum : u64 ((b.natAbs : ℤ) + g) = ((b.natAbs + g : ℕ) : ℤ) := by
        rw [u64_of_range (by omega) (by omega)]
        omega
      have hsum' : u64 ((g : ℤ) + b.natAbs) = ((g + b.natAbs : ℕ) : ℤ) := by
        rw [u64_of_range (by omega) (by omega)]
        omega
      rw [if_neg hpos, if_pos (by omega), if_neg hpos, habs, hsum, hsum', hnext]
      by_cases hfit : size ≤ b.natAbs + g
      · have hstart : i64 ((i : ℤ) - g) = ((i - g : ℕ) : ℤ) := by
          rw [i64_of_range (by omega) (by omega)]
          omega
        rw [if_pos (by omega), if_pos hfit, hstart]
        rfl
      · rw [if_neg (by omega), if_neg hfit]
        exact ih hrest (by omega) hlen

/-- The gap that is found is a run of free blocks. `before` are the free blocks just before
word `i`, which the search has passed already. -/
theorem firstGap_some {size i g start length : ℕ} {bs : List ℤ} (before : List ℤ)
    (hne : ∀ b ∈ bs, b ≠ 0) (hbefore : ∀ b ∈ before, b < 0) (hg : g = cover before) (hi : g ≤ i)
    (h : firstGap size bs i g = some (start, length)) :
    ∃ pre run post, before ++ bs = pre ++ (run ++ post) ∧ (∀ b ∈ run, b < 0) ∧
      start + g = i + cover pre ∧ length = cover run ∧ size ≤ length := by
  induction bs generalizing i g before with
  | nil => cases h
  | cons b bs ih =>
    have hb := hne b (by simp)
    have hbs : ∀ c ∈ bs, c ≠ 0 := fun c hc => hne c (by simp [hc])
    rw [firstGap] at h
    by_cases hpos : 0 < b
    · rw [if_pos hpos] at h
      obtain ⟨pre, run, post, heq, hrun, hstart, hlen, hsize⟩ :=
        ih [] hbs (by simp) cover_nil.symm (Nat.zero_le _) h
      refine ⟨before ++ b :: pre, run, post, ?_, hrun, ?_, hlen, hsize⟩
      · rw [List.nil_append] at heq
        simp [heq]
      · simp only [cover_append, cover_cons]
        omega
    · have hmore : ∀ c ∈ before ++ [b], c < 0 :=
        List.forall_mem_append.mpr ⟨hbefore, List.forall_mem_singleton.mpr (by omega)⟩
      have hcover : cover (before ++ [b]) = g + b.natAbs := by
        simp [hg]
      rw [if_neg hpos] at h
      split_ifs at h with hfit
      · cases h
        refine ⟨[], before ++ [b], bs, by simp, hmore, ?_, ?_, hfit⟩
        · simp only [cover_nil]
          omega
        · rw [hcover]
          omega
      · obtain ⟨pre, run, post, heq, hrun, hstart, hlen, hsize⟩ :=
          ih (before ++ [b]) hbs hmore hcover.symm (by omega) h
        refine ⟨pre, run, post, ?_, hrun, by omega, hlen, hsize⟩
        rw [← heq]
        simp

theorem findFirstEmptyGap_tiled {h : Heap} {bs : List ℤ} (ht : Tiled h bs) {size : ℕ}
    (hsize : 0 < size) :
    findFirstEmptyGap h size = .ok (gapResult (firstGap size bs 0 0)) := by
  have hlen := ht.tiles.length_le
  have hend := ht.tiles.end_eq
  rw [findFirstEmptyGap, if_neg (by omega)]
  exact findLoop_tiles ht.tiles ht.small (le_refl 0) (by omega)

end Search

section Malloc

/-- The headers after a block of `size` words has been cut from a gap. -/
def cutGap (size gap : ℕ) : List ℤ :=
  if size < gap then [(size : ℤ), -((gap : ℤ) - size)] else [(size : ℤ)]

theorem cover_cutGap {size gap : ℕ} (h : size ≤ gap) : cover (cutGap size gap) = gap := by
  unfold cutGap
  split_ifs
  · simp only [cover_cons, cover_nil]
    omega
  · simp only [cover_cons, cover_nil]
    omega

/-- The words after `my_malloc` has written the headers of a gap at `start`. -/
def writeGap (words : List ℤ) (start size gap : ℕ) : List ℤ :=
  (if size < gap then words.set (start + size) (-((gap : ℤ) - size)) else words).set start size

theorem writeGap_length (words : List ℤ) (start size gap : ℕ) :
    (writeGap words start size gap).length = words.length := by
  unfold writeGap
  split_ifs <;> simp

/-- Only the two headers are written. -/
theorem writeGap_getElem? {words : List ℤ} {start size gap k : ℕ} (hk : k ≠ start)
    (hk' : k ≠ start + size) : (writeGap words start size gap)[k]? = words[k]? := by
  unfold writeGap
  rw [List.getElem?_set_ne (Ne.symm hk)]
  split_ifs
  · rw [List.getElem?_set_ne (Ne.symm hk')]
  · rfl

theorem tiles_cutGap {words : List ℤ} {start size gap : ℕ} (hsize : 0 < size) (hfit : size ≤ gap)
    (hin : start + gap ≤ words.length) :
    Tiles (writeGap words start size gap) start (cutGap size gap) (start + gap) := by
  unfold writeGap cutGap
  split_ifs with hlt
  · refine ⟨?_, by omega, ?_, by omega, ?_⟩
    · rw [List.getElem?_set_self (by simp; omega)]
    · have habs : ((size : ℕ) : ℤ).natAbs = size := by omega
      rw [habs, List.getElem?_set_ne (by omega), List.getElem?_set_self (by omega)]
    · unfold Tiles
      omega
  · refine ⟨?_, by omega, ?_⟩
    · rw [List.getElem?_set_self (by omega)]
    · unfold Tiles
      omega

/-- A gap in the headers is replaced by the block cut from it. -/
theorem tiles_writeGap {words : List ℤ} {pre run post : List ℤ} {size f : ℕ}
    (htiles : Tiles words 0 (pre ++ (run ++ post)) f) (hmapped : f ≤ words.length)
    (hsize : 0 < size) (hfit : size ≤ cover run) :
    Tiles (writeGap words (cover pre) size (cover run)) 0
      (pre ++ (cutGap size (cover run) ++ post)) f := by
  have hend := htiles.end_eq
  simp only [cover_append] at hend
  obtain ⟨hpre, hrest⟩ := tiles_append.mp htiles
  obtain ⟨_, hpost⟩ := tiles_append.mp hrest
  rw [Nat.zero_add] at hpre hpost
  rw [tiles_append, tiles_append, Nat.zero_add, cover_cutGap hfit]
  refine ⟨hpre.congr fun k _ hk => ?_, tiles_cutGap hsize hfit (by omega),
    hpost.congr fun k hk _ => ?_⟩
  · exact writeGap_getElem? (by omega) (by omega)
  · by_cases hlt : size < cover run
    · exact writeGap_getElem? (by omega) (by omega)
    · unfold writeGap
      rw [if_neg hlt, List.getElem?_set_ne (by omega)]

theorem alignBytes_eq {bytes : ℕ} (hpos : 0 < bytes) (hmax : (bytes + 3) / 4 < 2 ^ 31) :
    u64 (u64 (alignBytes bytes) + 1) = blockWords bytes := by
  have hwords : alignBytes bytes = ((bytes + 3) / 4 : ℕ) := by
    unfold alignBytes
    rw [if_neg (by omega), i32_of_range (by omega) (by omega)]
    omega
  have halign : u64 (alignBytes bytes) = ((bytes + 3) / 4 : ℕ) := by
    rw [hwords, u64_of_range (by omega) (by omega)]
  unfold blockWords
  rw [halign, u64_of_range (by omega) (by omega)]
  omega

theorem takeGap_eq {h : Heap} {start size gap : ℕ} (hin : start + gap ≤ h.words.length)
    (hpos : 0 < size) (hfit : size ≤ gap) (hsmall : start + gap < 2 ^ 31) :
    takeGap h size start gap =
      .ok (⟨writeGap h.words start size gap, h.f_size⟩, some ((start : ℤ) + 1)) := by
  have hsize : i32 (size : ℤ) = size := i32_of_range (by omega) (by omega)
  unfold takeGap
  rw [if_neg (by omega), hsize]
  by_cases hlt : size < gap
  · have hindex : i64 ((start : ℤ) + size) = ((start + size : ℕ) : ℤ) := by
      rw [i64_of_range (by omega) (by omega)]
      omega
    have hrest : i32 (-((gap : ℤ) - size)) = -((gap : ℤ) - size) :=
      i32_of_range (by omega) (by omega)
    have hlen : start < (h.words.set (start + size) (-((gap : ℤ) - size))).length := by
      rw [List.length_set]
      omega
    rw [if_pos (by omega), hindex, hrest, store_of _ (by omega), writeGap, if_pos hlt]
    simp only [Except.bind]
    rw [store_of _ hlen]
  · rw [if_neg (by omega), writeGap, if_neg hlt]
    simp only [Except.bind]
    rw [store_of _ (by omega)]

/-- `my_malloc` for a request of `size` words either finds no gap and changes nothing, or cuts the
block from the gap. -/
theorem myMalloc_gap {h : Heap} {bs : List ℤ} (ht : Tiled h bs) {bytes size : ℕ}
    (hbytes : bytes ≠ 0) (hsize : u64 (u64 (alignBytes bytes) + 1) = size) (hpos : 0 < size) :
    firstGap size bs 0 0 = none ∧ myMalloc h bytes = .ok (h, none) ∨
      ∃ pre run post, bs = pre ++ (run ++ post) ∧ (∀ b ∈ run, b < 0) ∧ size ≤ cover run ∧
        firstGap size bs 0 0 = some (cover pre, cover run) ∧
        myMalloc h bytes = .ok (⟨writeGap h.words (cover pre) size (cover run), h.f_size⟩,
          some ((cover pre : ℤ) + 1)) := by
  unfold myMalloc
  rw [if_neg (by omega)]
  simp only [hsize, findFirstEmptyGap_tiled ht hpos, Except.bind]
  cases hgap : firstGap size bs 0 0 with
  | none => exact .inl ⟨rfl, rfl⟩
  | some gap =>
    obtain ⟨start, length⟩ := gap
    obtain ⟨pre, run, post, hbs, hrun, hstart, hlength, hfit⟩ :=
      firstGap_some [] ht.tiles.ne_zero (by simp) cover_nil.symm (le_refl 0) hgap
    have hend := ht.tiles.end_eq
    have hmapped := ht.mapped
    have hsmall := ht.small
    rw [List.nil_append] at hbs
    rw [Nat.add_zero, Nat.zero_add] at hstart
    subst hstart hlength
    simp only [hbs, cover_append] at hend
    exact .inr ⟨pre, run, post, hbs, hrun, hfit, rfl,
      takeGap_eq (by omega) hpos hfit (by omega)⟩

/-- `my_malloc` of a size whose words fit an `int` either changes nothing, or cuts the block from a
run of free blocks. -/
theorem myMalloc_tiled {h : Heap} {bs : List ℤ} (ht : Tiled h bs) {bytes : ℕ}
    (hmax : (bytes + 3) / 4 < 2 ^ 31) :
    myMalloc h bytes = .ok (h, none) ∨
      ∃ pre run post, bs = pre ++ (run ++ post) ∧ (∀ b ∈ run, b < 0) ∧
        0 < bytes ∧ blockWords bytes ≤ cover run ∧
        myMalloc h bytes = .ok (⟨writeGap h.words (cover pre) (blockWords bytes) (cover run),
          h.f_size⟩, some ((cover pre : ℤ) + 1)) := by
  by_cases hzero : bytes = 0
  · rw [hzero]
    exact .inl rfl
  · have hpos := Nat.pos_of_ne_zero hzero
    rcases myMalloc_gap ht hzero (alignBytes_eq hpos hmax) (Nat.succ_pos _) with
      ⟨-, hnone⟩ | ⟨pre, run, post, hbs, hrun, hfit, -, hsome⟩
    · exact .inl hnone
    · exact .inr ⟨pre, run, post, hbs, hrun, hpos, hfit, hsome⟩

end Malloc

section Free

theorem freeLoop_tiles {h : Heap} {start e fuel : ℕ} {bs : List ℤ}
    (htiles : Tiles h.words (start + e) bs h.f_size) (hsmall : h.f_size < 2 ^ 31)
    (hfuel : bs.length < fuel) :
    freeLoop h start fuel e = .ok ((e + cover (bs.takeWhile (· < 0)) : ℕ) : ℤ) := by
  induction bs generalizing e fuel with
  | nil =>
    obtain ⟨fuel, rfl⟩ := Nat.exists_eq_add_of_lt hfuel
    have hend : start + e = h.f_size := htiles
    simp only [List.length_nil, Nat.zero_add, freeLoop]
    rw [if_neg (by omega)]
    simp
  | cons b bs ih =>
    obtain ⟨fuel, rfl⟩ := Nat.exists_eq_succ_of_ne_zero (show fuel ≠ 0 by omega)
    have hend := htiles.end_eq
    obtain ⟨hb, hne, hrest⟩ := htiles
    rw [cover_cons] at hend
    rw [List.length_cons] at hfuel
    have hload : h.load ((start : ℤ) + e) = .ok b := by
      rw [← Nat.cast_add]
      exact load_of hb
    rw [freeLoop, if_pos (by omega), hload]
    simp only [Except.bind]
    by_cases hneg : b < 0
    · have hadd : i32 ((e : ℤ) + -b) = ((e + b.natAbs : ℕ) : ℤ) := by
        rw [i32_of_range (by omega) (by omega)]
        omega
      rw [Nat.add_assoc] at hrest
      rw [if_pos hneg, hadd, ih hrest (by omega), List.takeWhile_cons, if_pos (by simpa using hneg),
        cover_cons, Nat.add_assoc]
    · rw [if_neg hneg, List.takeWhile_cons, if_neg (by simpa using hneg)]
      simp

/-- The headers after the block with header `b` has been freed, which joins it to the free
blocks right after it. -/
def joinFree (b : ℤ) (post : List ℤ) : List ℤ :=
  -((b.natAbs + cover (post.takeWhile (· < 0)) : ℕ) : ℤ) :: post.dropWhile (· < 0)

/-- Freeing a block writes its header only. -/
theorem tiles_joinFree {words : List ℤ} {pre post : List ℤ} {b : ℤ} {i f : ℕ}
    (htiles : Tiles words i (pre ++ b :: post) f) (hmapped : f ≤ words.length) :
    Tiles (words.set (i + cover pre) (-((b.natAbs + cover (post.takeWhile (· < 0)) : ℕ) : ℤ))) i
      (pre ++ joinFree b post) f := by
  have hend := htiles.end_eq
  obtain ⟨hpre, hb, hne, hpost⟩ := tiles_append.mp htiles
  rw [← List.takeWhile_append_dropWhile (p := (· < 0)) (l := post)] at hpost hend
  obtain ⟨_, hrest⟩ := tiles_append.mp hpost
  simp only [cover_append, cover_cons] at hend
  rw [tiles_append, joinFree]
  refine ⟨hpre.congr fun k _ hk => List.getElem?_set_ne (by omega), ?_, by omega, ?_⟩
  · rw [List.getElem?_set_self (by omega)]
  · rw [Int.natAbs_neg, Int.natAbs_natCast, ← Nat.add_assoc]
    exact hrest.congr fun k hk _ => List.getElem?_set_ne (by omega)

/-- Freeing a block of headers that tile the heap from word `i` on. -/
theorem myFree_tiles {h : Heap} {pre post : List ℤ} {i size : ℕ}
    (htiles : Tiles h.words i (pre ++ (size : ℤ) :: post) h.f_size)
    (hmapped : h.f_size ≤ h.words.length) (hsmall : h.f_size < 2 ^ 31)
    (hin : i + cover pre + 1 < h.f_size) :
    myFree h (some ((i + cover pre + 1 : ℕ) : ℤ)) =
      .ok ⟨h.words.set (i + cover pre)
        (-((size + cover (post.takeWhile (· < 0)) : ℕ) : ℤ)), h.f_size⟩ := by
  have hend := htiles.end_eq
  have hlen := htiles.length_le
  obtain ⟨_, hb, hne, hpost⟩ := tiles_append.mp htiles
  simp only [cover_append, cover_cons, List.length_append, List.length_cons,
    Int.natAbs_natCast] at hend hlen hpost
  have hjoined : cover (post.takeWhile (· < 0)) ≤ cover post := by
    have hsplit := cover_append (post.takeWhile (· < 0)) (post.dropWhile (· < 0))
    rw [List.takeWhile_append_dropWhile] at hsplit
    omega
  have hindex : ((i + cover pre + 1 : ℕ) : ℤ) - 1 = (i + cover pre : ℕ) := by omega
  unfold myFree
  simp only
  rw [if_neg (by omega), hindex, load_of hb]
  simp only [Except.bind]
  rw [if_neg (by omega), freeLoop_tiles hpost hsmall (by omega)]
  simp only
  rw [i32_of_range (by omega) (by omega), store_of _ (by omega)]

theorem myFree_tiled {h : Heap} {pre post : List ℤ} {size : ℕ}
    (ht : Tiled h (pre ++ (size : ℤ) :: post)) (hsize : 2 ≤ size) :
    myFree h (some ((cover pre + 1 : ℕ) : ℤ)) =
      .ok ⟨h.words.set (cover pre)
        (-((size + cover (post.takeWhile (· < 0)) : ℕ) : ℤ)), h.f_size⟩ := by
  have hend := ht.tiles.end_eq
  simp only [cover_append, cover_cons, Int.natAbs_natCast] at hend
  have hfree := myFree_tiles ht.tiles ht.mapped ht.small (by omega)
  rwa [Nat.zero_add] at hfree

/-- Freeing a pointer whose header is not that of a used block changes nothing. -/
theorem myFree_free {h : Heap} {k : ℕ} {v : ℤ} (hk : h.words[k]? = some v) (hv : v < 0)
    (hin : k + 1 < h.f_size) : myFree h (some ((k + 1 : ℕ) : ℤ)) = .ok h := by
  have hindex : ((k + 1 : ℕ) : ℤ) - 1 = (k : ℕ) := by omega
  unfold myFree
  simp only
  rw [if_neg (by omega), hindex, load_of hk]
  simp only [Except.bind]
  rw [if_pos (by omega)]

end Free

end Acos.SwapAlloc
