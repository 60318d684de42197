import Acos.AsmMergesort.Blocks
import Acos.AsmMergesort.CSort

/-! The loops of `merge__` do what those of the C function do, on arrays in memory. -/
namespace Acos.AsmMergesort
open Acos.MachineInt Acos.WordMemory Acos.X86

/-- The array of `int` at `X` has these elements from `lo` on, up to `hi`. -/
def Shows (mem : Memory) (X lo hi : ℕ) (A : ℕ → ℤ) : Prop :=
  ∀ x, lo ≤ x → x < hi → i32 (load 4 mem (X + 4 * x)) = A x

/-- What stays as it is in the frame: all but the counters and the local arrays. -/
def Fixed (bp a : ℕ) : Prop := bp - 136 ≤ a ∧ a < bp - 104 ∨ bp - 92 ≤ a ∧ a < bp + 16

/-- The places of the arrays, and the bounds of the two parts. -/
structure Places (bp p q r L R out : ℕ) : Prop where
  enough : 144 ≤ bp
  top : bp + 16 ≤ 2 ^ 64
  left_le : p ≤ q
  right_lt : q < r
  sum_lt : p + r < 2 ^ 31
  left : L + 4 * (q - p + 1) + 140 ≤ bp
  right : R + 4 * (r - q) ≤ L
  bound : out + 4 * (r + 1) ≤ 2 ^ 64
  apart : out + 4 * (r + 1) ≤ R ∨ bp + 16 ≤ out + 4 * p

/-- The frame of `merge__` when the local arrays have their places. -/
structure Frame (bp p q r L R out : ℕ) (m : Machine) : Prop where
  rbp : m.reg .rbp = bp
  start : load 4 m.mem (bp - 92) = p
  middle : load 4 m.mem (bp - 84) = q
  count_left : load 4 m.mem (bp - 80) = q - p + 1
  count_right : load 4 m.mem (bp - 76) = r - q
  left : load 8 m.mem (bp - 64) = L
  right : load 8 m.mem (bp - 48) = R
  array : load 8 m.mem (bp - 136) = out
  canary : load 8 m.mem (bp - 40) = m.fs 40 % 2 ^ 64

section
variable (layout : Layout Label) {bp p q r L R out : ℕ} {m m' : Machine} {l l' : Label}

/-- The local arrays get their places. -/
theorem Frame.relocate {L' R' : ℕ} (h : Frame bp p q r L R out m) (hlo : 144 ≤ bp)
    (hrbp : m'.reg .rbp = bp) (hfs : m'.fs = m.fs)
    (hmem : Keeps (fun a => Fixed bp a ∧ ¬(bp - 72 ≤ a ∧ a < bp - 40)) m.mem m'.mem)
    (hL : load 8 m'.mem (bp - 64) = L') (hR : load 8 m'.mem (bp - 48) = R') :
    Frame bp p q r L' R' out m' := by
  have hload {n d : ℕ} (hd : n ≤ d ∧ (d ≤ 40 ∨ 72 + n ≤ d ∧ d ≤ 92 ∨ 104 + n ≤ d ∧ d ≤ 136)) :
      load n m'.mem (bp - d) = load n m.mem (bp - d) :=
    hmem.load fun a _ _ => by
      unfold Fixed
      omega
  refine ⟨hrbp, ?_, ?_, ?_, ?_, hL, hR, ?_, ?_⟩
  · rw [hload (by omega), h.start]
  · rw [hload (by omega), h.middle]
  · rw [hload (by omega), h.count_left]
  · rw [hload (by omega), h.count_right]
  · rw [hload (by omega), h.array]
  · rw [hload (by omega), h.canary, hfs]

variable {layout} in
theorem Frame.keep (h : Frame bp p q r L R out m) (hlo : 144 ≤ bp)
    (hrun : Runs code layout [.rbp] (m, .at l) (m', .at l'))
    (hmem : Keeps (Fixed bp) m.mem m'.mem) : Frame bp p q r L R out m' := by
  have hload {d : ℕ} (hd : 8 ≤ d ∧ d ≤ 92) : load 8 m'.mem (bp - d) = load 8 m.mem (bp - d) :=
    hmem.load fun a _ _ => by
      unfold Fixed
      omega
  refine h.relocate hlo ((hrun.reg .rbp (List.mem_singleton_self _)).trans h.rbp) hrun.fs
    (hmem.mono fun a ha => ha.1) ?_ ?_
  · rw [hload (by omega), h.left]
  · rw [hload (by omega), h.right]

theorem compare_dword_less {x y : ℕ} {a b : ℤ} (hx : i32 x = a) (hy : i32 y = b) :
    (X86.compare .dword x y).less = decide (a < b) := by
  simp only [X86.compare, Width.signed, hx, hy]

theorem counter_less {i n : ℕ} (hi : i < 2 ^ 31) (hn : n < 2 ^ 31) :
    (X86.compare .dword i n).less = decide (i < n) := by
  rw [compare_dword_less (i32_natCast hi) (i32_natCast hn), decide_eq_decide]
  exact Nat.cast_lt

theorem compareCounter_keeps (counter count : ℕ) :
    ∀ op ∈ compareCounter counter count, op.keeps [.rbp] := by
  simp [compareCounter, slot, Op.keeps, Op.plain, Op.writes]

theorem fill_keeps (counter array : ℕ) : ∀ op ∈ fill counter array, op.keeps [.rbp] := by
  simp [fill, slot, Op.keeps, Op.plain, Op.writes]

theorem take_keeps (counter array : ℕ) : ∀ op ∈ take counter array, op.keeps [.rbp] := by
  simp [take, advance, put, slot, Op.keeps, Op.plain, Op.writes]

theorem takeRest_keeps (counter array : ℕ) : ∀ op ∈ takeRest counter array, op.keeps [.rbp] := by
  simp [takeRest, advance, put, slot, Op.keeps, Op.plain, Op.writes]

/-- The comparison at the head of a loop. -/
theorem counter_test {head body exit : Label} {counter count i n : ℕ}
    (hhead : code head = ⟨compareCounter counter count, .jcc .l body exit⟩ ∨
      code head = ⟨compareCounter counter count, .jcc .ge exit body⟩)
    (hrbp : m.reg .rbp = bp) (hlo : 144 ≤ bp) (hhi : bp < 2 ^ 64) (hcounter : counter ≤ 136)
    (hcount : count ≤ 136) (hi : load 4 m.mem (bp - counter) = i)
    (hn : load 4 m.mem (bp - count) = n) :
    ∃ m', Runs code layout [.rbp] (m, .at head)
        (m', .at (if (X86.compare .dword i n).less then body else exit)) ∧ m'.mem = m.mem := by
  obtain ⟨hflags, hmem⟩ := exec_compareCounter hrbp hlo hhi hcounter hcount hi hn
  rcases hhead with hhead | hhead
  · have hrun := Runs.jcc layout hhead (compareCounter_keeps counter count) hflags
    rw [Cond.holds] at hrun
    exact ⟨_, hrun, hmem⟩
  · have hrun := Runs.jcc layout hhead (compareCounter_keeps counter count) hflags
    simp only [Cond.holds, Bool.not_eq_true', ← Bool.not_eq_true, ite_not] at hrun
    exact ⟨_, hrun, hmem⟩

/-- The test at the head of a loop. -/
theorem loop_test {head body exit : Label} {counter count i n : ℕ}
    (hhead : code head = ⟨compareCounter counter count, .jcc .l body exit⟩ ∨
      code head = ⟨compareCounter counter count, .jcc .ge exit body⟩)
    (hrbp : m.reg .rbp = bp) (hlo : 144 ≤ bp) (hhi : bp < 2 ^ 64) (hcounter : counter ≤ 136)
    (hcount : count ≤ 136) (hi : load 4 m.mem (bp - counter) = i)
    (hn : load 4 m.mem (bp - count) = n) (hilt : i < 2 ^ 31) (hnlt : n < 2 ^ 31) :
    ∃ m', Runs code layout [.rbp] (m, .at head) (m', .at (if i < n then body else exit)) ∧
      m'.mem = m.mem := by
  obtain ⟨m', hrun, hmem⟩ := counter_test layout hhead hrbp hlo hhi hcounter hcount hi hn
  rw [counter_less hilt hnlt] at hrun
  simp only [decide_eq_true_eq] at hrun
  exact ⟨m', hrun, hmem⟩

/-- A loop whose size is below 0 is left at once. -/
theorem loop_skip {head body exit : Label} {counter count n : ℕ}
    (hhead : code head = ⟨compareCounter counter count, .jcc .l body exit⟩ ∨
      code head = ⟨compareCounter counter count, .jcc .ge exit body⟩)
    (hrbp : m.reg .rbp = bp) (hlo : 144 ≤ bp) (hhi : bp < 2 ^ 64) (hcounter : counter ≤ 136)
    (hcount : count ≤ 136) (hi : load 4 m.mem (bp - counter) = 0)
    (hn : load 4 m.mem (bp - count) = n) (hneg : 2 ^ 31 ≤ n) :
    ∃ m', Runs code layout [.rbp] (m, .at head) (m', .at exit) ∧ m'.mem = m.mem := by
  obtain ⟨m', hrun, hmem⟩ := counter_test layout hhead hrbp hlo hhi hcounter hcount hi hn
  have hlt := hn ▸ load_lt 4 m.mem (bp - count)
  have hzero : i32 (0 : ℕ) = (0 : ℕ) := i32_natCast (by omega)
  have hsize : ¬ ((0 : ℕ) : ℤ) < i32 n := by
    unfold i32
    omega
  rw [compare_dword_less hzero rfl, decide_eq_false hsize] at hrun
  exact ⟨m', hrun, hmem⟩

/-- A loop that fills a local array of `n` elements, at `X`, from the elements `base` and so on of
`A`; `index` is the part of its body that finds the element. -/
structure FillLoop (bp p q r L R out : ℕ) (head body exit : Label) (index : List Op)
    (counter count array X n base : ℕ) : Prop where
  head_eq : code head = ⟨compareCounter counter count, .jcc .l body exit⟩
  body_eq : code body = ⟨index ++ fill counter array, .jmp head⟩
  keeps : ∀ op ∈ index, op.keeps [.rbp]
  counter_bounds : 96 ≤ counter ∧ counter ≤ 100
  count_le : count ≤ 92
  array_le : array ≤ 64
  enough : 144 ≤ bp
  top : bp + 16 ≤ 2 ^ 64
  below : X + 4 * n + 140 ≤ bp
  size_lt : n < 2 ^ 31
  bound : out + 4 * (base + n) ≤ 2 ^ 64
  apart : out + 4 * (base + n) ≤ X ∨ bp + 16 ≤ out + 4 * base
  slots : ∀ m, Frame bp p q r L R out m →
    load 4 m.mem (bp - count) = n ∧ load 8 m.mem (bp - array) = X
  index_eq : ∀ m i, Frame bp p q r L R out m → load 4 m.mem (bp - counter) = i → i < n →
    (execs m index).reg .rax = base + i ∧ (execs m index).mem = m.mem

section
variable {head body exit : Label} {index : List Op} {counter count array X n base i : ℕ}

theorem FillLoop.test
    (h : FillLoop bp p q r L R out head body exit index counter count array X n base)
    (hframe : Frame bp p q r L R out m) (hi : load 4 m.mem (bp - counter) = i) (hle : i ≤ n) :
    ∃ m', Runs code layout [.rbp] (m, .at head) (m', .at (if i < n then body else exit)) ∧
      m'.mem = m.mem := by
  obtain ⟨_, _, _, hcounter, hcount, _, hlo, htop, _, hsize, _, _, _, _⟩ := id h
  exact loop_test layout (.inl h.head_eq) hframe.rbp hlo (by omega) (by omega) (by omega) hi
    (h.slots m hframe).1 (by omega) hsize

theorem FillLoop.step
    (h : FillLoop bp p q r L R out head body exit index counter count array X n base)
    (hframe : Frame bp p q r L R out m) (hi : load 4 m.mem (bp - counter) = i) (hlt : i < n) :
    ∃ m', Runs code layout [.rbp] (m, .at head) (m', .at head) ∧
      m'.mem = store 4 (store 4 m.mem (X + 4 * i) (load 4 m.mem (out + 4 * (base + i))))
        (bp - counter) (i + 1) := by
  obtain ⟨m1, hrun1, hmem1⟩ := h.test layout hframe hi hlt.le
  rw [if_pos hlt] at hrun1
  have hframe1 : Frame bp p q r L R out m1 :=
    hframe.keep h.enough hrun1 (by rw [hmem1]; exact Keeps.refl _ _)
  obtain ⟨hrax, hindexmem⟩ := h.index_eq m1 i hframe1 (by rw [hmem1, hi]) hlt
  have hmem : (execs m1 index).mem = m.mem := hindexmem.trans hmem1
  have hrbp : (execs m1 index).reg .rbp = bp :=
    (execs_reg_of_keeps _ h.keeps (List.mem_singleton_self _)).trans hframe1.rbp
  have hi1 : load 4 (execs m1 index).mem (bp - counter) = i := by rw [hmem, hi]
  have hX1 : load 8 (execs m1 index).mem (bp - array) = X := by rw [hmem, (h.slots m hframe).2]
  have hout1 : load 8 (execs m1 index).mem (bp - 136) = out := by rw [hmem, hframe.array]
  have hrun2 := Runs.jmp layout (m := m1) h.body_eq
    (List.forall_mem_append.mpr ⟨h.keeps, fill_keeps counter array⟩)
  rw [execs_append] at hrun2
  obtain ⟨_, _, _, hcounter, _, harray, hlo, htop, hbelow, hsize, hbound, _, _, _⟩ := h
  refine ⟨_, hrun1.trans hrun2, ?_⟩
  rw [exec_fill hrbp hlo (by omega) (by omega) (by omega) hrax hi1 hout1 hX1 (by omega) (by omega)
    (by omega), hmem]

theorem FillLoop.run
    (h : FillLoop bp p q r L R out head body exit index counter count array X n base)
    (hframe : Frame bp p q r L R out m) (hi : load 4 m.mem (bp - counter) = i) (hle : i ≤ n)
    (hdone : ∀ k < i, load 4 m.mem (X + 4 * k) = load 4 m.mem (out + 4 * (base + k))) :
    ∃ m', Runs code layout [.rbp] (m, .at head) (m', .at exit) ∧
      Keeps (fun a => ¬(X ≤ a ∧ a < X + 4 * n) ∧ ¬(bp - counter ≤ a ∧ a < bp - counter + 4))
        m.mem m'.mem ∧
      ∀ k < n, load 4 m'.mem (X + 4 * k) = load 4 m.mem (out + 4 * (base + k)) := by
  induction hd : n - i generalizing m i with
  | zero =>
    obtain ⟨m', hrun, hmem⟩ := h.test layout hframe hi hle
    rw [if_neg (by omega)] at hrun
    refine ⟨m', hrun, ?_, fun k hk => ?_⟩
    · rw [hmem]
      exact Keeps.refl _ _
    · rw [hmem]
      exact hdone k (by omega)
  | succ d ih =>
    obtain ⟨m2, hrun2, hmem2⟩ := h.step layout hframe hi (by omega)
    obtain ⟨_, _, _, hcounter, _, _, hlo, htop, hbelow, hsize, _, hapart, _, _⟩ := id h
    have hv := load_lt 4 m.mem (out + 4 * (base + i))
    have hother {k x : ℕ} (hcounter : x + k ≤ bp - counter ∨ bp - counter + 4 ≤ x)
        (hplace : x + k ≤ X + 4 * i ∨ X + 4 * i + 4 ≤ x) : load k m2.mem x = load k m.mem x := by
      rw [hmem2, load_store_of_apart hcounter, load_store_of_apart hplace]
    have hi2 : load 4 m2.mem (bp - counter) = i + 1 := by
      rw [hmem2, load_store (by omega)]
    have hplace : load 4 m2.mem (X + 4 * i) = load 4 m.mem (out + 4 * (base + i)) := by
      rw [hmem2, load_store_of_apart (by omega), load_store (by omega)]
    have hchange : Keeps (fun a => ¬(X ≤ a ∧ a < X + 4 * n) ∧
        ¬(bp - counter ≤ a ∧ a < bp - counter + 4)) m.mem m2.mem := by
      rw [hmem2]
      exact (store_keeps fun a ha => by omega).trans (store_keeps fun a ha => by omega)
    have hframe2 : Frame bp p q r L R out m2 :=
      hframe.keep hlo hrun2 (hchange.mono fun a ha => by unfold Fixed at ha; omega)
    have hdone2 : ∀ k < i + 1,
        load 4 m2.mem (X + 4 * k) = load 4 m2.mem (out + 4 * (base + k)) := by
      intro k hk
      rw [hother (x := out + 4 * (base + k)) (by omega) (by omega)]
      rcases Nat.lt_succ_iff_lt_or_eq.mp hk with hless | rfl
      · rw [hother (by omega) (by omega), hdone k hless]
      · exact hplace
    obtain ⟨m', hrun', hkeeps', hdone'⟩ := ih hframe2 hi2 (by omega) hdone2 (by omega)
    refine ⟨m', hrun2.trans hrun', hchange.trans hkeeps', fun k hk => ?_⟩
    rw [hdone' k hk, hother (by omega) (by omega)]

end

theorem Places.fillLeft (h : Places bp p q r L R out) :
    FillLoop bp p q r L R out .L8 .L9 .L8_exit (sourceIndex 92 96) 96 80 64 L (q - p + 1) p := by
  obtain ⟨hlo, htop, hpq, hqr, hsum, hL, hR, hbound, hapart⟩ := h
  refine ⟨rfl, rfl, by decide, by omega, by omega, by omega, hlo, htop, hL, by omega, by omega,
    by omega, fun m hm => ⟨hm.count_left, hm.left⟩, fun m i hm hi hlt => ?_⟩
  exact exec_sourceIndex hm.rbp hlo (by omega) (by omega) (by omega) hm.start hi (by omega)

theorem Places.fillRight (h : Places bp p q r L R out) :
    FillLoop bp p q r L R out .L10 .L11 .L10_exit
      (sourceIndex 84 100 ++ [.alu .add .qword (.reg .rax) (.imm 1)]) 100 76 48 R (r - q)
      (q + 1) := by
  obtain ⟨hlo, htop, hpq, hqr, hsum, hL, hR, hbound, hapart⟩ := h
  refine ⟨rfl, rfl, by decide, by omega, by omega, by omega, hlo, htop, by omega, by omega,
    by omega, by omega, fun m hm => ⟨hm.count_right, hm.right⟩, fun m j hm hj hlt => ?_⟩
  obtain ⟨hrax, hmem⟩ := exec_sourceIndex hm.rbp hlo (by omega) (show 84 ≤ 136 by omega)
    (by omega) hm.middle hj (by omega)
  rw [execs_append]
  refine ⟨?_, (execs_mem (by decide)).trans hmem⟩
  simp (disch := omega) [hrax, Nat.mod_eq_of_lt, Nat.add_right_comm]

theorem Shows.keep {mem mem' : Memory} {P : ℕ → Prop} {X lo hi : ℕ} {A : ℕ → ℤ}
    (h : Shows mem X lo hi A) (hmem : Keeps P mem mem')
    (hP : ∀ a, X + 4 * lo ≤ a → a < X + 4 * hi → P a) : Shows mem' X lo hi A := by
  intro x hlo hhi
  rw [hmem.load fun a ha ha' => hP a (by omega) (by omega)]
  exact h x hlo hhi

/-- The element of a local array with the index `i` is taken over to the index `k` of `A`. -/
structure Takes (bp out counter i k v : ℕ) (mem mem' : Memory) : Prop where
  counter_eq : load 4 mem' (bp - counter) = i + 1
  place_eq : load 4 mem' (bp - 104) = k + 1
  element : load 4 mem' (out + 4 * k) = v
  keeps : Keeps (fun a => ¬(bp - counter ≤ a ∧ a < bp - counter + 4) ∧
    ¬(bp - 104 ≤ a ∧ a < bp - 104 + 4) ∧ ¬(out + 4 * k ≤ a ∧ a < out + 4 * k + 4)) mem mem'

theorem Takes.shows {counter i k v lo hi : ℕ} {mem mem' : Memory} {A : ℕ → ℤ}
    (h : Takes bp out counter i k v mem mem') (hA : Shows mem out lo hi A)
    (hcounter : counter ≤ 104) (hlo : 144 ≤ bp)
    (hapart : out + 4 * hi ≤ bp - 104 ∨ bp + 16 ≤ out + 4 * lo) :
    Shows mem' out lo hi (Function.update A k (i32 v)) := by
  intro x hx hx'
  by_cases hxk : x = k
  · rw [hxk, h.element, Function.update_self]
  · rw [Function.update_of_ne hxk, ← hA x hx hx', h.keeps.load]
    omega

section
variable {head body exit : Label} {counter count array X n i k : ℕ} {A F : ℕ → ℤ}

/-- One of the loops that take over what is left of a local array of `n` elements, at `X`. -/
structure RestLoop (bp p q r L R out : ℕ) (head body exit : Label) (counter count array X n : ℕ) :
    Prop where
  head_eq : code head = ⟨compareCounter counter count, .jcc .l body exit⟩
  body_eq : code body = ⟨takeRest counter array, .jmp head⟩
  counter_bounds : 96 ≤ counter ∧ counter ≤ 100
  count_le : count ≤ 92
  array_bounds : 48 ≤ array ∧ array ≤ 64
  after : R ≤ X
  below : X + 4 * n + 140 ≤ bp
  size_lt : n < 2 ^ 31
  slots : ∀ m, Frame bp p q r L R out m →
    load 4 m.mem (bp - count) = n ∧ load 8 m.mem (bp - array) = X

theorem Places.restLeft (h : Places bp p q r L R out) :
    RestLoop bp p q r L R out .L17 .L18 .L17_exit 96 80 64 L (q - p + 1) := by
  obtain ⟨hlo, htop, hpq, hqr, hsum, hL, hR, hbound, hapart⟩ := h
  exact ⟨rfl, rfl, by omega, by omega, by omega, by omega, hL, by omega,
    fun m hm => ⟨hm.count_left, hm.left⟩⟩

theorem Places.restRight (h : Places bp p q r L R out) :
    RestLoop bp p q r L R out .L19 .L20 .L19_exit 100 76 48 R (r - q) := by
  obtain ⟨hlo, htop, hpq, hqr, hsum, hL, hR, hbound, hapart⟩ := h
  exact ⟨rfl, rfl, by omega, by omega, by omega, by omega, by omega, by omega,
    fun m hm => ⟨hm.count_right, hm.right⟩⟩

theorem RestLoop.test (h : RestLoop bp p q r L R out head body exit counter count array X n)
    (hplaces : Places bp p q r L R out) (hframe : Frame bp p q r L R out m)
    (hi : load 4 m.mem (bp - counter) = i) (hle : i ≤ n) :
    ∃ m', Runs code layout [.rbp] (m, .at head) (m', .at (if i < n then body else exit)) ∧
      m'.mem = m.mem := by
  obtain ⟨_, _, hcounter, hcount, _, hafter, hbelow, hsize, _⟩ := id h
  obtain ⟨hlo, htop, hpq, hqr, hsum, hL, hR, hbound, hapart⟩ := hplaces
  exact loop_test layout (.inl h.head_eq) hframe.rbp hlo (by omega) (by omega) (by omega) hi
    (h.slots m hframe).1 (by omega) (by omega)

theorem RestLoop.step (h : RestLoop bp p q r L R out head body exit counter count array X n)
    (hplaces : Places bp p q r L R out) (hframe : Frame bp p q r L R out m)
    (hi : load 4 m.mem (bp - counter) = i) (hk : load 4 m.mem (bp - 104) = k) (hlt : i < n)
    (hpk : p ≤ k) (hkr : k ≤ r) :
    ∃ m', Runs code layout [.rbp] (m, .at head) (m', .at head) ∧
      Takes bp out counter i k (load 4 m.mem (X + 4 * i)) m.mem m'.mem := by
  obtain ⟨m1, hrun1, hmem1⟩ := h.test layout hplaces hframe hi hlt.le
  rw [if_pos hlt] at hrun1
  have hframe1 : Frame bp p q r L R out m1 :=
    hframe.keep hplaces.enough hrun1 (by rw [hmem1]; exact Keeps.refl _ _)
  obtain ⟨_, hbody, hcounter, hcount, harray, hafter, hbelow, hsize, hslots⟩ := h
  obtain ⟨hlo, htop, hpq, hqr, hsum, hL, hR, hbound, hapart⟩ := hplaces
  have hmem := exec_takeRest hframe1.rbp hlo (by omega) hcounter harray (by rw [hmem1, hi])
    (by rw [hmem1, hk]) (hslots m1 hframe1).2 hframe1.array (by omega) (by omega) (by omega)
    (by omega)
  rw [hmem1] at hmem
  have hv := load_lt 4 m.mem (X + 4 * i)
  refine ⟨_, hrun1.trans (Runs.jmp layout hbody (takeRest_keeps counter array)), ?_, ?_, ?_, ?_⟩
  · rw [hmem, load_store_of_apart (by omega), load_store_of_apart (by omega),
      load_store (by omega)]
  · rw [hmem, load_store_of_apart (by omega), load_store (by omega)]
  · rw [hmem, load_store (by omega)]
  · rw [hmem]
    exact ((store_keeps fun a ha => by omega).trans (store_keeps fun a ha => by omega)).trans
      (store_keeps fun a ha => by omega)

theorem Takes.fixed {counter v : ℕ} {mem mem' : Memory} (h : Takes bp out counter i k v mem mem')
    (hplaces : Places bp p q r L R out) (hcounter : 96 ≤ counter ∧ counter ≤ 104) (hpk : p ≤ k)
    (hkr : k ≤ r) : Keeps (Fixed bp) mem mem' := by
  obtain ⟨hlo, htop, hpq, hqr, hsum, hL, hR, hbound, hapart⟩ := hplaces
  refine h.keeps.mono fun a ha => ?_
  unfold Fixed at ha
  omega

/-- The loop does what `copyRest` does. -/
theorem RestLoop.run (h : RestLoop bp p q r L R out head body exit counter count array X n)
    (hplaces : Places bp p q r L R out) (hframe : Frame bp p q r L R out m)
    (hi : load 4 m.mem (bp - counter) = i) (hk : load 4 m.mem (bp - 104) = k) (hle : i ≤ n)
    (hpk : p ≤ k) (hkr : k + (n - i) ≤ r + 1) (hF : Shows m.mem X 0 n F)
    (hA : Shows m.mem out p (r + 1) A) :
    ∃ m', Runs code layout [.rbp] (m, .at head) (m', .at exit) ∧
      Keeps (fun a => ¬(bp - counter ≤ a ∧ a < bp - counter + 4) ∧
        ¬(bp - 104 ≤ a ∧ a < bp - 104 + 4) ∧ ¬(out + 4 * p ≤ a ∧ a < out + 4 * (r + 1)))
        m.mem m'.mem ∧
      load 4 m'.mem (bp - 104) = (copyRest F n A i k).2 ∧
      Shows m'.mem out p (r + 1) (copyRest F n A i k).1 := by
  induction hd : n - i generalizing m i k A with
  | zero =>
    obtain ⟨m', hrun, hmem⟩ := h.test layout hplaces hframe hi hle
    rw [if_neg (by omega)] at hrun
    rw [copyRest, if_neg (by omega)]
    refine ⟨m', hrun, ?_, ?_, ?_⟩
    · rw [hmem]
      exact Keeps.refl _ _
    · rw [hmem]
      exact hk
    · rw [hmem]
      exact hA
  | succ d ih =>
    have hlt : i < n := by omega
    obtain ⟨m2, hrun2, htakes⟩ :=
      h.step layout hplaces hframe hi hk hlt hpk (by omega)
    obtain ⟨_, _, hcounter, _, _, hafter, hbelow, _, _⟩ := id h
    have hframe2 := hframe.keep hplaces.enough hrun2
      (htakes.fixed hplaces (by omega) hpk (by omega))
    obtain ⟨hlo, htop, hpq, hqr, hsum, hL, hR, hbound, hapart⟩ := id hplaces
    have hF2 : Shows m2.mem X 0 n F := hF.keep htakes.keeps fun a _ _ => by omega
    have hA2 := htakes.shows hA (by omega) hlo (by omega)
    rw [hF i (Nat.zero_le i) hlt] at hA2
    obtain ⟨m', hrun', hkeeps', hplace', hA'⟩ := ih hframe2 htakes.counter_eq htakes.place_eq
      (by omega) (by omega) (by omega) hF2 hA2 (by omega)
    rw [copyRest, if_pos hlt]
    refine ⟨m', hrun2.trans hrun', ?_, hplace', hA'⟩
    exact (htakes.keeps.mono fun a ha => by omega).trans hkeeps'

/-- The smaller head of the two arrays is taken over. -/
theorem take_step (hcode : code l = ⟨AsmMergesort.take counter array, .jmp .L14⟩)
    (hcounter : 96 ≤ counter ∧ counter ≤ 100) (harray : 48 ≤ array ∧ array ≤ 64)
    (hbelow : X + 4 * n + 140 ≤ bp) (hsize : n < 2 ^ 31) (hplaces : Places bp p q r L R out)
    (hframe : Frame bp p q r L R out m)
    (hX : load 8 m.mem (bp - array) = X) (hi : load 4 m.mem (bp - counter) = i)
    (hk : load 4 m.mem (bp - 104) = k) (hlt : i < n) (hpk : p ≤ k) (hkr : k ≤ r) :
    ∃ m', Runs code layout [.rbp] (m, .at l) (m', .at .L12) ∧
      Takes bp out counter i k (load 4 m.mem (X + 4 * i)) m.mem m'.mem := by
  have hframe' := hframe
  obtain ⟨hlo, htop, hpq, hqr, hsum, hL, hR, hbound, hapart⟩ := hplaces
  have hmem1 := exec_take hframe.rbp hlo (by omega) hcounter harray hi hk hX hframe.array
    (by omega) (by omega) (by omega) (by omega)
  have hrun1 := Runs.jmp layout (m := m) hcode (take_keeps counter array)
  have hv := load_lt 4 m.mem (X + 4 * i)
  generalize execs m (AsmMergesort.take counter array) = m1 at hmem1 hrun1
  have hk1 : load 4 m1.mem (bp - 104) = k := by
    rw [hmem1, load_store_of_apart (by omega), load_store_of_apart (by omega), hk]
  have hmem2 := exec_next ((hrun1.reg .rbp (List.mem_singleton_self _)).trans hframe.rbp) hlo
    (by omega) hk1 (by omega)
  have hkeeps : ∀ op ∈ (code .L14).ops, op.keeps [.rbp] := by decide
  have hrun2 := Runs.jmp layout (m := m1) (show code .L14 = ⟨_, .jmp .L12⟩ from rfl) hkeeps
  refine ⟨_, hrun1.trans hrun2, ?_, ?_, ?_, ?_⟩
  · rw [hmem2, hmem1, load_store_of_apart (by omega), load_store_of_apart (by omega),
      load_store (by omega)]
  · rw [hmem2, load_store (by omega)]
  · rw [hmem2, hmem1, load_store_of_apart (by omega), load_store (by omega)]
  · rw [hmem2, hmem1]
    exact ((store_keeps fun a ha => by omega).trans (store_keeps fun a ha => by omega)).trans
      (store_keeps fun a ha => by omega)

theorem code_L12 : code .L12 = ⟨compareCounter 96 80, .jcc .ge .L17 .L12_right⟩ := rfl

theorem code_L12_right :
    code .L12_right = ⟨compareCounter 100 76, .jcc .l .L16 .L12_exit⟩ := rfl

/-- While both arrays have elements left, their heads are compared. -/
theorem heads_step {j : ℕ} {G : ℕ → ℤ} (hplaces : Places bp p q r L R out)
    (hframe : Frame bp p q r L R out m) (hi : load 4 m.mem (bp - 96) = i)
    (hj : load 4 m.mem (bp - 100) = j) (hilt : i < q - p + 1) (hjlt : j < r - q)
    (hF : Shows m.mem L 0 (q - p + 1) F) (hG : Shows m.mem R 0 (r - q) G) :
    ∃ m', Runs code layout [.rbp] (m, .at .L12)
        (m', .at (if F i < G j then .L16_left else .L13)) ∧ m'.mem = m.mem := by
  obtain ⟨hlo, htop, hpq, hqr, hsum, hL, hR, hbound, hapart⟩ := hplaces
  obtain ⟨m1, hrun1, hmem1⟩ := loop_test layout (.inr code_L12) hframe.rbp hlo (by omega)
    (by omega) (by omega) hi hframe.count_left (by omega) (by omega)
  rw [if_pos hilt] at hrun1
  have hframe1 := hframe.keep hlo hrun1 (by rw [hmem1]; exact Keeps.refl _ _)
  obtain ⟨m2, hrun2, hmem2⟩ := loop_test layout (.inl code_L12_right) hframe1.rbp hlo
    (by omega) (by omega) (by omega) (by rw [hmem1, hj]) hframe1.count_right (by omega) (by omega)
  rw [if_pos hjlt] at hrun2
  have hframe2 := hframe1.keep hlo hrun2 (by rw [hmem2]; exact Keeps.refl _ _)
  rw [hmem1] at hmem2
  obtain ⟨hflags, hmem3⟩ := exec_compareHeads hframe2.rbp hlo (by omega) (by rw [hmem2, hi])
    (by rw [hmem2, hj]) hframe2.left hframe2.right (by omega) (by omega) (by omega) (by omega)
  have hkeeps : ∀ op ∈ compareHeads, op.keeps [.rbp] := by decide
  have hrun3 := Runs.jcc layout (show code .L16 = ⟨_, .jcc .ge .L13 .L16_left⟩ from rfl) hkeeps
    hflags
  rw [hmem2] at hmem3 hrun3
  rw [Cond.holds, compare_dword_less (hF i (Nat.zero_le i) hilt) (hG j (Nat.zero_le j) hjlt),
    ← decide_not] at hrun3
  simp only [decide_eq_true_eq, ite_not] at hrun3
  exact ⟨_, (hrun1.trans hrun2).trans hrun3, hmem3⟩

/-- When an array is used up, the other loops follow. -/
theorem merge_end {j : ℕ} (hplaces : Places bp p q r L R out) (hframe : Frame bp p q r L R out m)
    (hi : load 4 m.mem (bp - 96) = i) (hj : load 4 m.mem (bp - 100) = j) (hile : i ≤ q - p + 1)
    (hjle : j ≤ r - q) (hend : ¬(i < q - p + 1 ∧ j < r - q)) :
    ∃ m', Runs code layout [.rbp] (m, .at .L12) (m', .at .L17) ∧ m'.mem = m.mem := by
  obtain ⟨hlo, htop, hpq, hqr, hsum, hL, hR, hbound, hapart⟩ := hplaces
  obtain ⟨m1, hrun1, hmem1⟩ := loop_test layout (.inr code_L12) hframe.rbp hlo (by omega)
    (by omega) (by omega) hi hframe.count_left (by omega) (by omega)
  by_cases hilt : i < q - p + 1
  · rw [if_pos hilt] at hrun1
    have hframe1 := hframe.keep hlo hrun1 (by rw [hmem1]; exact Keeps.refl _ _)
    obtain ⟨m2, hrun2, hmem2⟩ := loop_test layout (.inl code_L12_right) hframe1.rbp hlo
      (by omega) (by omega) (by omega) (by rw [hmem1, hj]) hframe1.count_right (by omega)
      (by omega)
    rw [if_neg (fun hjlt => hend ⟨hilt, hjlt⟩)] at hrun2
    have hrun3 : Runs code layout [.rbp] (m2, .at .L12_exit) (m2, .at .L17) :=
      Runs.jmp layout rfl (List.forall_mem_nil _)
    exact ⟨m2, (hrun1.trans hrun2).trans hrun3, hmem2.trans hmem1⟩
  · rw [if_neg hilt] at hrun1
    exact ⟨m1, hrun1, hmem1⟩

/-- What the loops change: the counters and the elements of `A`. -/
def Merged (bp p r out a : ℕ) : Prop :=
  bp - 104 ≤ a ∧ a < bp - 92 ∨ out + 4 * p ≤ a ∧ a < out + 4 * (r + 1)

/-- The loops together do what `mergeFrom` does. -/
theorem merge_loops {j : ℕ} {G : ℕ → ℤ} (hplaces : Places bp p q r L R out)
    (hframe : Frame bp p q r L R out m) (hi : load 4 m.mem (bp - 96) = i)
    (hj : load 4 m.mem (bp - 100) = j) (hk : load 4 m.mem (bp - 104) = p + i + j)
    (hile : i ≤ q - p + 1) (hjle : j ≤ r - q) (hF : Shows m.mem L 0 (q - p + 1) F)
    (hG : Shows m.mem R 0 (r - q) G) (hA : Shows m.mem out p (r + 1) A) :
    ∃ m', Runs code layout [.rbp] (m, .at .L12) (m', .at .L19_exit) ∧
      Keeps (fun a => ¬ Merged bp p r out a) m.mem m'.mem ∧
      Shows m'.mem out p (r + 1) (mergeFrom F G (q - p + 1) (r - q) A i j (p + i + j)) := by
  obtain ⟨hlo, htop, hpq, hqr, hsum, hL, hR, hbound, hapart⟩ := id hplaces
  induction hd : q - p + 1 - i + (r - q - j) using Nat.strong_induction_on
    generalizing m i j A with
  | _ d ih =>
    by_cases hboth : i < q - p + 1 ∧ j < r - q
    · obtain ⟨hilt, hjlt⟩ := hboth
      obtain ⟨m1, hrun1, hmem1⟩ := heads_step layout hplaces hframe hi hj hilt hjlt hF hG
      have hframe1 := hframe.keep hlo hrun1 (by rw [hmem1]; exact Keeps.refl _ _)
      by_cases hless : F i < G j
      · rw [if_pos hless] at hrun1
        obtain ⟨m2, hrun2, htakes⟩ := take_step layout (show code .L16_left = _ from rfl)
          (by omega) (by omega) hL (by omega) hplaces hframe1 hframe1.left (by rw [hmem1, hi])
          (by rw [hmem1, hk]) hilt (by omega) (by omega)
        rw [hmem1] at htakes
        have hframe2 := hframe.keep hlo (hrun1.trans hrun2)
          (htakes.fixed hplaces (by omega) (by omega) (by omega))
        have hA2 := htakes.shows hA (by omega) hlo (by omega)
        rw [hF i (Nat.zero_le i) hilt] at hA2
        have hother : load 4 m2.mem (bp - 100) = j := by
          rw [htakes.keeps.load fun a _ _ => by omega, hj]
        obtain ⟨m', hrun', hkeeps', hA'⟩ := ih _ (by omega) hframe2 htakes.counter_eq hother
          (by rw [htakes.place_eq]; omega) (by omega) hjle
          (hF.keep htakes.keeps fun a _ _ => by omega) (hG.keep htakes.keeps fun a _ _ => by omega)
          hA2 rfl
        refine ⟨m', (hrun1.trans hrun2).trans hrun', ?_, ?_⟩
        · exact (htakes.keeps.mono fun a ha => by unfold Merged at ha; omega).trans hkeeps'
        · rw [mergeFrom_left hilt hjlt hless]
          rwa [show p + (i + 1) + j = p + i + j + 1 by omega] at hA'
      · rw [if_neg hless] at hrun1
        obtain ⟨m2, hrun2, htakes⟩ := take_step layout (show code .L13 = _ from rfl)
          (by omega) (by omega) (show R + 4 * (r - q) + 140 ≤ bp by omega) (by omega) hplaces
          hframe1 hframe1.right (by rw [hmem1, hj]) (by rw [hmem1, hk]) hjlt (by omega) (by omega)
        rw [hmem1] at htakes
        have hframe2 := hframe.keep hlo (hrun1.trans hrun2)
          (htakes.fixed hplaces (by omega) (by omega) (by omega))
        have hA2 := htakes.shows hA (by omega) hlo (by omega)
        rw [hG j (Nat.zero_le j) hjlt] at hA2
        have hother : load 4 m2.mem (bp - 96) = i := by
          rw [htakes.keeps.load fun a _ _ => by omega, hi]
        obtain ⟨m', hrun', hkeeps', hA'⟩ := ih _ (by omega) hframe2 hother htakes.counter_eq
          (by rw [htakes.place_eq]; omega) hile (by omega)
          (hF.keep htakes.keeps fun a _ _ => by omega) (hG.keep htakes.keeps fun a _ _ => by omega)
          hA2 rfl
        refine ⟨m', (hrun1.trans hrun2).trans hrun', ?_, ?_⟩
        · exact (htakes.keeps.mono fun a ha => by unfold Merged at ha; omega).trans hkeeps'
        · rw [mergeFrom_right hilt hjlt hless]
          rwa [show p + i + (j + 1) = p + i + j + 1 by omega] at hA'
    · obtain ⟨m1, hrun1, hmem1⟩ := merge_end layout hplaces hframe hi hj hile hjle hboth
      have hframe1 := hframe.keep hlo hrun1 (by rw [hmem1]; exact Keeps.refl _ _)
      rw [← hmem1] at hi hj hk hF hG hA
      obtain ⟨m2, hrun2, hkeeps2, hplace2, hA2⟩ := hplaces.restLeft.run layout hplaces hframe1 hi
        hk hile (by omega) (by omega) hF hA
      have hexit : Runs code layout [.rbp] (m2, .at .L17_exit) (m2, .at .L19) :=
        Runs.jmp layout rfl (List.forall_mem_nil _)
      have hframe2 := hframe1.keep hlo hrun2
        (hkeeps2.mono fun a ha => by unfold Fixed at ha; omega)
      have hj2 : load 4 m2.mem (bp - 100) = j := by
        rw [hkeeps2.load fun a _ _ => by omega, hj]
      obtain ⟨hend, _, _⟩ := copyRest_spec F (q - p + 1) A i (p + i + j)
      obtain ⟨m', hrun', hkeeps', _, hA'⟩ := hplaces.restRight.run layout hplaces hframe2 hj2
        hplace2 hjle (by omega) (by omega) (hG.keep hkeeps2 fun a _ _ => by omega) hA2
      refine ⟨m', ((hrun1.trans hrun2).trans hexit).trans hrun', ?_, ?_⟩
      · rw [← hmem1]
        exact (hkeeps2.mono fun a ha => by unfold Merged at ha; omega).trans
          (hkeeps'.mono fun a ha => by unfold Merged at ha; omega)
      · rw [mergeFrom_end hboth]
        exact hA'

/-- Both local arrays are filled, and then merged. -/
theorem merge_body (hplaces : Places bp p q r L R out) (hframe : Frame bp p q r L R out m)
    (hi : load 4 m.mem (bp - 96) = 0) (hA : Shows m.mem out p (r + 1) A) :
    ∃ m', Runs code layout [.rbp] (m, .at .L8) (m', .at .L19_exit) ∧
      Keeps (fun a => ¬ Merged bp p r out a ∧ ¬(R ≤ a ∧ a < L + 4 * (q - p + 1))) m.mem m'.mem ∧
      Shows m'.mem out p (r + 1) (Merge A p q r) := by
  obtain ⟨hlo, htop, hpq, hqr, hsum, hL, hR, hbound, hapart⟩ := id hplaces
  obtain ⟨m1, hrun1, hkeeps1, hleft⟩ := hplaces.fillLeft.run layout hframe hi (Nat.zero_le _) nofun
  have hframe1 := hframe.keep hlo hrun1 (hkeeps1.mono fun a ha => by unfold Fixed at ha; omega)
  have hA1 := hA.keep hkeeps1 fun a _ _ => by omega
  have hF1 : Shows m1.mem L 0 (q - p + 1) fun i => A (p + i) := by
    intro i _ hi
    rw [hleft i hi, hA (p + i) (by omega) (by omega)]
  have hrun2 := Runs.jmp layout (m := m1) (show code .L8_exit = ⟨clear 100, .jmp .L10⟩ from rfl)
    (show ∀ op ∈ clear 100, op.keeps [.rbp] by decide)
  have hmem2 : (execs m1 (clear 100)).mem = store 4 m1.mem (bp - 100) 0 :=
    exec_clear hframe1.rbp (by omega) (by omega)
  generalize execs m1 (clear 100) = m2 at hrun2 hmem2
  have hkeeps2 : Keeps (fun a => a < bp - 100 ∨ bp - 100 + 4 ≤ a) m1.mem m2.mem := by
    rw [hmem2]
    exact store_keeps fun a ha => ha
  have hframe2 := hframe1.keep hlo hrun2 (hkeeps2.mono fun a ha => by unfold Fixed at ha; omega)
  have hj2 : load 4 m2.mem (bp - 100) = 0 := by rw [hmem2, load_store (by omega)]
  have hA2 := hA1.keep hkeeps2 fun a _ _ => by omega
  obtain ⟨m3, hrun3, hkeeps3, hright⟩ :=
    hplaces.fillRight.run layout hframe2 hj2 (Nat.zero_le _) nofun
  have hframe3 := hframe2.keep hlo hrun3 (hkeeps3.mono fun a ha => by unfold Fixed at ha; omega)
  have hA3 := hA2.keep hkeeps3 fun a _ _ => by omega
  have hF3 := (hF1.keep hkeeps2 fun a _ _ => by omega).keep hkeeps3 fun a _ _ => by omega
  have hG3 : Shows m3.mem R 0 (r - q) fun j => A (q + 1 + j) := by
    intro j _ hj
    rw [hright j hj, hA2 (q + 1 + j) (by omega) (by omega)]
  have hrun4 := Runs.jmp layout (m := m3) (show code .L10_exit = ⟨startMerge, .jmp .L12⟩ from rfl)
    (show ∀ op ∈ startMerge, op.keeps [.rbp] by decide)
  have hmem4 := exec_startMerge hframe3.rbp hlo (by omega) hframe3.start
  generalize execs m3 startMerge = m4 at hrun4 hmem4
  have hkeeps4 : Keeps (fun a => a < bp - 104 ∨ bp - 92 ≤ a) m3.mem m4.mem := by
    rw [hmem4]
    exact ((store_keeps fun a ha => by omega).trans (store_keeps fun a ha => by omega)).trans
      (store_keeps fun a ha => by omega)
  have hframe4 := hframe3.keep hlo hrun4 (hkeeps4.mono fun a ha => by unfold Fixed at ha; omega)
  have hi4 : load 4 m4.mem (bp - 96) = 0 := by
    rw [hmem4, load_store_of_apart (by omega), load_store_of_apart (by omega),
      load_store (by omega)]
  have hj4 : load 4 m4.mem (bp - 100) = 0 := by
    rw [hmem4, load_store_of_apart (by omega), load_store (by omega)]
  have hk4 : load 4 m4.mem (bp - 104) = p + 0 + 0 := by
    rw [hmem4, load_store (by omega)]
    rfl
  obtain ⟨m', hrun', hkeeps', hA'⟩ := merge_loops layout hplaces hframe4 hi4 hj4 hk4
    (Nat.zero_le _) (Nat.zero_le _) (hF3.keep hkeeps4 fun a _ _ => by omega)
    (hG3.keep hkeeps4 fun a _ _ => by omega) (hA3.keep hkeeps4 fun a _ _ => by omega)
  refine ⟨m', (((hrun1.trans hrun2).trans hrun3).trans hrun4).trans hrun', ?_, ?_⟩
  · refine (((hkeeps1.mono ?_).trans (hkeeps2.mono ?_)).trans (hkeeps3.mono ?_)).trans
      ((hkeeps4.mono ?_).trans (hkeeps'.mono fun a ha => ha.1))
    all_goals
      intro a ha
      unfold Merged at ha
      omega
  · rw [Merge_eq]
    exact hA'

end

end
end Acos.AsmMergesort
