import Acos.SwapAlloc.Search
import Mathlib.Data.List.TakeWhile

/-! Whole runs of a client of the allocator. Headers that `my_free` and the search have left
inside a larger free block are dead: the list of headers that tiles the heap never comes back
to them. -/
namespace Acos.SwapAlloc
open Acos.Blocks Acos.MachineInt Acos.Transition

/-- The words of the block after its header are the same. -/
def KeepsPayload (words words' : List ℤ) (block : ℕ × ℕ) : Prop :=
  ∀ k, block.1 < k → k < block.1 + block.2 → words'[k]? = words[k]?

/-- The used blocks of the tiling are the client's, and a freed pointer still has a negative
header outside all of them. -/
structure Inv (f : ℕ) (s : State) (bs : List ℤ) : Prop where
  size : s.heap.f_size = f
  tiled : Tiled s.heap bs
  blocks : s.live.Perm (used 0 bs)
  long : ∀ block ∈ s.live, 2 ≤ block.2
  freed : ∀ ptr ∈ s.freed, ∃ k v, ptr = k + 1 ∧ ptr < f ∧ s.heap.words[k]? = some v ∧ v < 0 ∧
    ∀ block ∈ s.live, k < block.1 ∨ block.1 + block.2 ≤ k

section Steps
variable {f : ℕ} {s : State} {bs : List ℤ}

/-- A client's block among the headers: the blocks before it and after it are elsewhere. -/
theorem Inv.split (hs : Inv f s bs) {block : ℕ × ℕ} (hb : block ∈ s.live) :
    ∃ pre post, bs = pre ++ (block.2 : ℤ) :: post ∧ block.1 = cover pre ∧
      s.live.Perm (used 0 pre ++ block :: used (cover pre + block.2) post) := by
  obtain ⟨pre, post, hbs, hstart, hpos⟩ := used_split (hs.blocks.mem_iff.mp hb)
  refine ⟨pre, post, hbs, by omega, ?_⟩
  have hperm := hs.blocks
  rw [hbs, used_append, Nat.zero_add, used, if_pos (by omega), Int.natAbs_natCast] at hperm
  have hblock : (cover pre, block.2) = block := by
    rw [← Nat.zero_add (cover pre), ← hstart]
  rw [hblock] at hperm
  exact hperm

theorem used_cutGap (start : ℕ) {size gap : ℕ} (hsize : 0 < size) :
    used start (cutGap size gap) = [(start, size)] := by
  unfold cutGap
  split_ifs with hlt
  · rw [used, if_pos (by omega), used, if_neg (by omega), used, Int.natAbs_natCast]
  · rw [used, if_pos (by omega), used, Int.natAbs_natCast]

theorem malloc_inv (hs : Inv f s bs) {bytes : ℕ} (hmax : (bytes + 3) / 4 < 2 ^ 31) :
    ∃ t bs', step s (.malloc bytes) = .ok t ∧ Inv f t bs' ∧
      ∀ block ∈ s.live, KeepsPayload s.heap.words t.heap.words block := by
  rcases myMalloc_tiled hs.tiled hmax with hnone |
    ⟨pre, run, post, hbs, hrun, hbytes, hfit, hsome⟩
  · refine ⟨{ s with freed := [] }, bs, ?_, ?_, fun _ _ _ _ _ => rfl⟩
    · simp only [step, hnone, Except.map]
    · exact ⟨hs.size, hs.tiled, hs.blocks, hs.long, by simp⟩
  · have hmapped := hs.tiled.mapped
    have htiles := hs.tiled.tiles
    rw [hbs] at htiles
    have hpos : 0 < blockWords bytes := Nat.succ_pos _
    have hused : used 0 bs = used 0 pre ++ used (cover pre + cover run) post := by
      rw [hbs, used_append, used_append, used_of_free _ hrun, List.nil_append, Nat.zero_add]
    refine ⟨⟨⟨writeGap s.heap.words (cover pre) (blockWords bytes) (cover run), s.heap.f_size⟩,
      (cover pre, blockWords bytes) :: s.live, []⟩,
      pre ++ (cutGap (blockWords bytes) (cover run) ++ post), ?_, ?_, ?_⟩
    · have hstart : ((cover pre : ℤ) + 1 - 1).toNat = cover pre := by omega
      simp only [step, hsome, Except.map, hstart]
    · refine ⟨hs.size, ⟨tiles_writeGap htiles hmapped hpos hfit, ?_, hs.tiled.small⟩, ?_, ?_,
        by simp⟩
      · rw [writeGap_length]
        exact hmapped
      · rw [used_append, used_append, Nat.zero_add, used_cutGap _ hpos, cover_cutGap hfit]
        have hperm := hs.blocks
        rw [hused] at hperm
        exact (hperm.cons _).trans List.perm_middle.symm
      · intro block hb
        rcases List.mem_cons.mp hb with rfl | hb
        · simp only [blockWords]
          omega
        · exact hs.long block hb
    · intro block hb k hk hk'
      have hmem := hs.blocks.mem_iff.mp hb
      rw [hused] at hmem
      rcases List.mem_append.mp hmem with hmem | hmem
      · have hbounds := used_bounds hmem
        exact writeGap_getElem? (by omega) (by omega)
      · have hbounds := used_bounds hmem
        exact writeGap_getElem? (by omega) (by omega)

theorem used_joinFree (i : ℕ) (b : ℤ) (post : List ℤ) :
    used i (joinFree b post) = used (i + b.natAbs) post := by
  have hneg : ∀ c ∈ post.takeWhile (· < 0), c < 0 := by
    intro c hc
    simpa using List.mem_takeWhile_imp hc
  conv_rhs => rw [← List.takeWhile_append_dropWhile (p := (· < 0)) (l := post)]
  rw [used_append, used_of_free _ hneg, List.nil_append, joinFree, used, if_neg (by omega),
    Int.natAbs_neg, Int.natAbs_natCast, Nat.add_assoc]

theorem free_inv (hs : Inv f s bs) {block : ℕ × ℕ} (hb : block ∈ s.live) :
    ∃ t bs', step s (.free (block.1 + 1)) = .ok t ∧ Inv f t bs' ∧
      ∀ block ∈ s.live, KeepsPayload s.heap.words t.heap.words block := by
  obtain ⟨pre, post, hbs, hstart, hperm⟩ := hs.split hb
  have htiled := hs.tiled
  have hend := htiled.tiles.end_eq
  have hmapped := htiled.mapped
  have hlong := hs.long block hb
  rw [hbs] at htiled
  simp only [hbs, cover_append, cover_cons, Int.natAbs_natCast] at hend
  have hfree := myFree_tiled htiled hlong
  have hjoin := tiles_joinFree htiled.tiles hmapped
  rw [Int.natAbs_natCast, Nat.zero_add] at hjoin
  have helsewhere : ∀ x ∈ used 0 pre ++ used (cover pre + block.2) post,
      x.1 + x.2 ≤ cover pre ∧ 0 < x.2 ∨ cover pre + block.2 ≤ x.1 := by
    intro x hx
    rcases List.mem_append.mp hx with hx | hx
    · have hbounds := used_bounds hx
      exact .inl (by omega)
    · exact .inr (used_bounds hx).1
  have hrest : (s.live.filter fun x => x.1 + 1 ≠ block.1 + 1).Perm
      (used 0 pre ++ used (cover pre + block.2) post) := by
    apply (hperm.filter _).trans
    rw [List.filter_append, List.filter_cons, if_neg (by simp), ← List.filter_append]
    rw [List.filter_eq_self.mpr]
    intro x hx
    have hx := helsewhere x hx
    simp only [decide_eq_true_eq]
    omega
  have hpayload : ∀ x ∈ s.live, ∀ k, x.1 < k → k < x.1 + x.2 → k ≠ cover pre := by
    intro x hx k hk hk'
    rcases List.mem_append.mp (hperm.mem_iff.mp hx) with hmem | hmem
    · have hbounds := used_bounds hmem
      omega
    · rcases List.mem_cons.mp hmem with rfl | hmem
      · omega
      · have hbounds := used_bounds hmem
        omega
  refine ⟨⟨⟨s.heap.words.set (cover pre)
      (-((block.2 + cover (post.takeWhile (· < 0)) : ℕ) : ℤ)), s.heap.f_size⟩,
    s.live.filter fun x => x.1 + 1 ≠ block.1 + 1, (block.1 + 1) :: s.freed⟩,
    pre ++ joinFree block.2 post, ?_, ⟨hs.size, ⟨hjoin, ?_, htiled.small⟩, ?_, ?_, ?_⟩, ?_⟩
  · rw [hstart] at hrest ⊢
    simp only [step, hfree, Except.map]
  · rw [List.length_set]
    exact hmapped
  · rw [used_append, Nat.zero_add, used_joinFree, Int.natAbs_natCast]
    exact hrest
  · intro x hx
    exact hs.long x (List.mem_filter.mp hx).1
  · intro ptr hptr
    rcases List.mem_cons.mp hptr with rfl | hptr
    · refine ⟨cover pre, _, by omega, ?_, List.getElem?_set_self (by omega), by omega, ?_⟩
      · have hsize := hs.size
        omega
      · intro x hx
        have hx := helsewhere x (hrest.mem_iff.mp hx)
        omega
    · obtain ⟨k, v, hk, hin, hv, hneg, hout⟩ := hs.freed ptr hptr
      have hne : k ≠ cover pre := by
        have hblock := hout block hb
        omega
      refine ⟨k, v, hk, hin, ?_, hneg, fun x hx => hout x (List.mem_filter.mp hx).1⟩
      rw [← hv]
      exact List.getElem?_set_ne hne.symm
  · intro x hx k hk hk'
    exact List.getElem?_set_ne (hpayload x hx k hk hk').symm

theorem refree_inv (hs : Inv f s bs) {ptr : ℕ} (hptr : ptr ∈ s.freed) :
    step s (.refree ptr) = .ok s := by
  obtain ⟨k, v, rfl, hin, hv, hneg, _⟩ := hs.freed ptr hptr
  have hsize := hs.size
  have hfree := myFree_free hv hneg (by omega)
  simp only [step, hfree, Except.map]

theorem write_inv (hs : Inv f s bs) {index : ℕ} {block : ℕ × ℕ} (hb : block ∈ s.live)
    (hlo : block.1 < index) (hhi : index < block.1 + block.2) (value : ℤ) :
    ∃ t, step s (.write index value) = .ok t ∧ Inv f t bs := by
  obtain ⟨pre, post, hbs, hstart, hperm⟩ := hs.split hb
  have hend := hs.tiled.tiles.end_eq
  have hmapped := hs.tiled.mapped
  simp only [hbs, cover_append, cover_cons, Int.natAbs_natCast] at hend
  have htiles := hs.tiled.tiles
  rw [hbs] at htiles
  obtain ⟨hpre, hheader, hne, hpost⟩ := tiles_append.mp htiles
  refine ⟨⟨⟨s.heap.words.set index value, s.heap.f_size⟩, s.live, s.freed⟩, ?_, ?_⟩
  · simp only [step, store_of value (show index < s.heap.words.length by omega), Except.map]
  · refine ⟨hs.size, ⟨?_, ?_, hs.tiled.small⟩, hs.blocks, hs.long, ?_⟩
    · rw [hbs, tiles_append]
      refine ⟨hpre.congr fun k _ hk => List.getElem?_set_ne (by omega), ?_, hne,
        hpost.congr fun k hk _ => List.getElem?_set_ne (by omega)⟩
      rw [← hheader]
      exact List.getElem?_set_ne (by omega)
    · rw [List.length_set]
      exact hmapped
    · intro ptr hptr
      obtain ⟨k, v, hk, hin, hv, hneg, hout⟩ := hs.freed ptr hptr
      have hne : index ≠ k := by
        have hblock := hout block hb
        omega
      refine ⟨k, v, hk, hin, ?_, hneg, hout⟩
      rw [← hv]
      exact List.getElem?_set_ne hne

end Steps

/-- What the operations leave alone: `my_malloc` and `my_free` every payload, a repeated
`my_free` everything. -/
def Undisturbed (s : State) : Label → State → Prop
  | .malloc _, t => ∀ block ∈ s.live, KeepsPayload s.heap.words t.heap.words block
  | .free _, t => ∀ block ∈ s.live, KeepsPayload s.heap.words t.heap.words block
  | .refree _, t => t = s
  | .write _ _, _ => True

/-- Every allowed operation returns, with the invariant kept. -/
theorem step_inv {f : ℕ} {s : State} {bs : List ℤ} (hs : Inv f s bs) {l : Label}
    (hl : Allowed s l) : ∃ t bs', step s l = .ok t ∧ Inv f t bs' ∧ Undisturbed s l t := by
  cases l with
  | malloc bytes =>
    have hbytes : bytes ≤ 2 ^ 31 := hl
    exact malloc_inv hs (by omega)
  | free ptr =>
    obtain ⟨block, hb, rfl⟩ := hl
    exact free_inv hs hb
  | refree ptr => exact ⟨s, bs, refree_inv hs hl, hs, rfl⟩
  | write index value =>
    obtain ⟨⟨block, hb, hlo, hhi⟩, _⟩ := hl
    obtain ⟨t, ht, hinv⟩ := write_inv hs hb hlo hhi value
    exact ⟨t, bs, ht, hinv, trivial⟩

theorem next_inv {f : ℕ} {s t : State} {l : Label} (hs : ∃ bs, Inv f s bs)
    (h : next s l = some t) : ∃ bs, Inv f t bs := by
  obtain ⟨bs, hs⟩ := hs
  unfold next at h
  split_ifs at h with hl
  obtain ⟨u, bs', hu, hinv, _⟩ := step_inv hs hl
  rw [hu] at h
  cases h
  exact ⟨bs', hinv⟩

theorem initial_inv {f : ℕ} {mapping : List ℤ} {heap : Heap} (hf : 1 ≤ f) (hf' : f < 2 ^ 31)
    (h : myallocInitialize f mapping = .ok heap) : Inv f (initial heap) [-(f : ℤ)] := by
  have hmap := myallocInitialize_mapped h
  have hword : i32 (-i32 f) = -(f : ℤ) := by
    rw [i32_of_range (x := f) (by omega) (by omega), i32_of_range (by omega) (by omega)]
  have hlen : (List.replicate f (0 : ℤ) ++ mapping.drop f).length = mapping.length := by
    rw [List.length_append, List.length_replicate, List.length_drop]
    omega
  rw [myallocInitialize_eq hf hmap, hword] at h
  cases h
  refine ⟨rfl, ⟨⟨?_, by omega, ?_⟩, ?_, hf'⟩, ?_, by simp [initial], by simp [initial]⟩
  · exact List.getElem?_set_self (by omega)
  · simp [initial, Tiles]
  · simp only [initial, List.length_set]
    omega
  · rw [used_of_free 0 (by simp; omega)]
    exact .refl _

/-- In every reachable state the headers tile the heap and the allocated blocks are disjoint
and inside it, and whatever the client does next returns and leaves the payloads alone. -/
theorem heap_always_tiled {f : ℕ} {mapping : List ℤ} {heap : Heap} {s : State} (hf : 1 ≤ f)
    (hf' : f < 2 ^ 31) (hinit : myallocInitialize f mapping = .ok heap)
    (hs : Reachable next (initial heap) s) :
    (∃ bs, Tiles s.heap.words 0 bs f) ∧ s.live.Pairwise Apart ∧
      (∀ block ∈ s.live, block.1 + block.2 ≤ f) ∧
        ∀ l, Allowed s l → ∃ t, step s l = .ok t ∧ Undisturbed s l t := by
  obtain ⟨bs, hinv⟩ := hs.invariant (fun _ _ _ hs hnext => next_inv hs hnext)
    ⟨_, initial_inv hf hf' hinit⟩
  have htiles := hinv.tiled.tiles
  rw [hinv.size] at htiles
  refine ⟨⟨bs, htiles⟩, ?_, ?_, ?_⟩
  · exact hinv.blocks.symm.pairwise (used_pairwise 0 bs) Apart.symm
  · intro block hb
    have hbounds := used_bounds (hinv.blocks.mem_iff.mp hb)
    have hend := htiles.end_eq
    omega
  · intro l hl
    obtain ⟨t, _, ht, _, hkeep⟩ := step_inv hinv hl
    exact ⟨t, ht, hkeep⟩

/-- Two blocks in a heap of five words; the first is freed twice and taken again. -/
def clientOps : List Label :=
  [.malloc 1, .malloc 8, .write 1 7, .free 1, .refree 1, .malloc 4]

theorem heap_always_tiled_ops :
    ∃ heap s, myallocInitialize 5 (List.replicate 5 0) = .ok heap ∧
      run next (initial heap) clientOps = some s ∧ s.live = [(0, 2), (2, 3)] ∧
      (∃ bs, Tiles s.heap.words 0 bs 5) ∧ s.live.Pairwise Apart ∧
        (∀ block ∈ s.live, block.1 + block.2 ≤ 5) ∧
          ∀ l, Allowed s l → ∃ t, step s l = .ok t ∧ Undisturbed s l t := by
  obtain ⟨heap, s, hinit, hrun, hlive⟩ :
      ∃ heap s, myallocInitialize 5 (List.replicate 5 0) = .ok heap ∧
        run next (initial heap) clientOps = some s ∧ s.live = [(0, 2), (2, 3)] :=
    ⟨_, _, rfl, rfl, rfl⟩
  exact ⟨heap, s, hinit, hrun, hlive,
    heap_always_tiled (by decide) (by decide) hinit ⟨_, hrun⟩⟩

end Acos.SwapAlloc
