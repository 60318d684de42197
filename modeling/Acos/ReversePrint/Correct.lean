import Acos.ReversePrint.Model

/-! The buffer grows as long as its size is an `int`. The printing loop goes back one word before it
tests, so there has to be one. -/
namespace Acos.ReversePrint
open Acos.ArmText Acos.CString

/-- The caller's registers are on the stack, apart from the buffer. -/
structure Framed (stdin stdout : Word) (m s : Machine) (w : World) : Prop where
  sp : s.reg .sp = m.reg .sp - 16#32
  saved : Machine.Holds s.mem (m.reg .sp - 16#32) [m.reg .r4, m.reg .r5, m.reg .r6, m.reg .lr]
  apart : ∀ i, 4 * i + 4 ≤ w.size → ¬ Fixed stdin stdout (m.reg .sp - 16#32) (w.word i)

/-- The characters `xs` are in the buffer, `rest` is still to be read. -/
structure Filled (stdin stdout : Word) (m s : Machine) (w : World) (xs rest : Bytes) : Prop
    extends Framed stdin stdout m s w where
  r4 : s.reg .r4 = BitVec.ofNat 32 w.size
  r5 : s.reg .r5 = w.base
  r6 : s.reg .r6 = BitVec.ofNat 32 (4 * xs.length)
  input : w.input = rest
  output : w.output = []
  chars : Machine.Holds s.mem w.base (xs.map charWord)
  power : ∃ j, w.size = 2 ^ (j + 3)
  size_le : w.size = 8 ∨ w.size ≤ 8 * xs.length

section
variable {stdin stdout : Word} {m s s' : Machine} {w w' : World} {xs rest : Bytes} {c : UInt8}

abbrev Run (lib : Library stdin stdout (m.reg .sp - 16#32)) :
    State Label World → State Label World → Prop := Steps (code stdin stdout) lib.call InBuffer

variable (lib : Library stdin stdout (m.reg .sp - 16#32))

theorem Framed.of_eq (h : Framed stdin stdout m s w) (hsp : s'.reg .sp = s.reg .sp)
    (hmem : s'.mem = s.mem) : Framed stdin stdout m s' w :=
  ⟨hsp.trans h.sp, hmem ▸ h.saved, h.apart⟩

/-- The frame outlives a call. -/
theorem Framed.called (h : Framed stdin stdout m s w) (routine : Routine)
    (hapart : ∀ i, 4 * i + 4 ≤ w'.size → ¬ Fixed stdin stdout (m.reg .sp - 16#32) (w'.word i)) :
    Framed stdin stdout m (lib.call routine s w).1 w' := by
  refine ⟨(lib.saved h.sp routine w .sp (by decide)).trans h.sp, ?_, hapart⟩
  exact h.saved.congr fun i hi => lib.fixed h.sp routine w _ (.inr (.inr ⟨i, hi, rfl⟩))

/-- The frame outlives a store to the buffer. -/
theorem Framed.stored (h : Framed stdin stdout m s w) {i : ℕ} (hi : 4 * i + 4 ≤ w.size) (v : Word) :
    Framed stdin stdout m (s.store (w.word i) v) w := by
  refine ⟨h.sp, h.saved.congr fun j hj => ?_, h.apart⟩
  rw [Machine.store_mem, if_neg]
  exact fun heq => h.apart i hi (.inr (.inr ⟨j, hj, heq.symm⟩))

theorem charWord_ne (c : UInt8) : charWord c ≠ -1 := by
  intro h
  have hlt := c.toNat_lt
  have hnat := congrArg BitVec.toNat h
  rw [charWord, BitVec.toNat_ofNat, Nat.mod_eq_of_lt (by omega)] at hnat
  have hminus : (-1 : Word).toNat = 2 ^ 32 - 1 := by decide
  omega

/-- A call of `fgetc`. -/
theorem readsym_steps (h : Framed stdin stdout m s w) :
    ∃ s', Run lib ⟨s, w, .at .readsym⟩ ⟨s', { w with input := w.input.tail }, .at .gotsym⟩ ∧
      Framed stdin stdout m s' { w with input := w.input.tail } ∧
      s'.reg .r0 = w.input.head?.elim (-1) charWord ∧
      (∀ r ∈ [Reg.r4, .r5, .r6], s'.reg r = s.reg r) ∧
      ∀ i, 4 * i + 4 ≤ w.size → s'.mem (w.word i) = s.mem (w.word i) := by
  have hframed : Framed stdin stdout m (execs s (readsymOps stdin)) w :=
    h.of_eq (by simp [readsymOps]) (by simp [readsymOps])
  obtain ⟨hr0, hworld⟩ := lib.fgetc hframed.sp (by simp [readsymOps]) w
  have hcall : Run lib ⟨s, w, .at .readsym⟩
      ⟨(lib.call .fgetc (execs s (readsymOps stdin)) w).1,
        (lib.call .fgetc (execs s (readsymOps stdin)) w).2, .at .gotsym⟩ :=
    Steps.block rfl ⟨trivial, trivial, trivial⟩
  rw [hworld] at hcall
  refine ⟨_, hcall, hframed.called lib .fgetc h.apart, hr0, fun r hr => ?_, fun i hi => ?_⟩
  · rw [lib.saved hframed.sp .fgetc w r
      (List.mem_append_left [Reg.r7, .r8, .r9, .r10, .r11, .sp] hr)]
    have hne : r ≠ .r0 := by
      rintro rfl
      exact absurd hr (by decide)
    simp [readsymOps, hne]
  · rw [lib.buffer hframed.sp .fgetc w (.inl rfl) i hi]
    simp [readsymOps]

/-- The test for the end of the input. -/
theorem gotsym_steps (s : Machine) (w : World) : Run lib ⟨s, w, .at .gotsym⟩
    ⟨execs s gotsymOps, w, .at (if s.reg .r0 = -1 then .print_buffer else .write)⟩ := by
  have hblock : Run lib ⟨s, w, .at .gotsym⟩ ((Term.bc .eq .print_buffer .write).exec lib.call
      (execs s gotsymOps) w) := Steps.block rfl ⟨trivial, trivial⟩
  simpa [Term.exec, Cond.holds, gotsymOps, ArmText.compare] using hblock

theorem Filled.size_le_max (h : Filled stdin stdout m s w xs rest) (hlen : xs.length ≤ 2 ^ 28) :
    8 ≤ w.size ∧ 4 ∣ w.size ∧ w.size ≤ 2 ^ 31 := by
  obtain ⟨j, hj⟩ := h.power
  have hsize := h.size_le
  have hpos := Nat.one_le_two_pow (n := j)
  rw [Nat.pow_add] at hj
  exact ⟨by omega, ⟨2 * 2 ^ j, by omega⟩, by omega⟩

/-- The word that is written next is in the buffer. -/
theorem inBuffer_word {i : ℕ} (hi : 4 * i + 4 ≤ w.size) (hsize : w.size ≤ 2 ^ 31) :
    (w.base + BitVec.ofNat 32 (4 * i) - w.base).toNat + 4 ≤ w.size := by
  rw [BitVec.add_comm, BitVec.add_sub_cancel, BitVec.toNat_ofNat, Nat.mod_eq_of_lt (by omega)]
  exact hi

/-- A character is read and written to the buffer. -/
theorem write_steps (h : Filled stdin stdout m s w xs (c :: rest)) (hlen : xs.length ≤ 2 ^ 28)
    (hroom : 4 * xs.length < w.size) :
    ∃ s' w', Run lib ⟨s, w, .at .readsym⟩ ⟨s', w',
        .at (if (BitVec.ofNat 32 (4 * (xs.length + 1))).slt (BitVec.ofNat 32 w.size) then
          .skip_double_buffer else .double_buffer)⟩ ∧
      Filled stdin stdout m s' w' (xs ++ [c]) rest ∧ w'.size = w.size := by
  obtain ⟨hlow, hfour, hhigh⟩ := h.size_le_max hlen
  obtain ⟨s₁, hread, hframed, hr0, hkept, hmem⟩ := readsym_steps lib h.toFramed
  have hgot := gotsym_steps lib s₁ { w with input := w.input.tail }
  rw [h.input, List.head?_cons, Option.elim_some] at hr0
  rw [hr0, if_neg (charWord_ne c)] at hgot
  have hr4 := (hkept .r4 (by decide)).trans h.r4
  have hr5 := (hkept .r5 (by decide)).trans h.r5
  have hr6 := (hkept .r6 (by decide)).trans h.r6
  have hlast : 4 * xs.length + 4 ≤ w.size := by omega
  have hnext : BitVec.ofNat 32 (4 * xs.length) + 4 = BitVec.ofNat 32 (4 * (xs.length + 1)) := by
    bv_omega
  have hwrite : Run lib ⟨execs s₁ gotsymOps, { w with input := w.input.tail }, .at .write⟩
      ((Term.bc .lt .skip_double_buffer .double_buffer).exec lib.call
        (execs (execs s₁ gotsymOps) writeOps) { w with input := w.input.tail }) := by
    refine Steps.block rfl ⟨?_, trivial, trivial, trivial⟩
    simpa [InBuffer, gotsymOps, hr5, hr6] using inBuffer_word hlast hhigh
  have hless : (execs (execs s₁ gotsymOps) writeOps).flags.less =
      (BitVec.ofNat 32 (4 * (xs.length + 1))).slt (BitVec.ofNat 32 w.size) := by
    rw [← hnext]
    simp [gotsymOps, writeOps, ArmText.compare, hr4, hr6]
  have hmem' : (execs (execs s₁ gotsymOps) writeOps).mem =
      (s₁.store (w.word xs.length) (charWord c)).mem := by
    simp [gotsymOps, writeOps, hr5, hr6, hr0, World.word]
    rfl
  rw [Term.exec, Cond.holds, hless] at hwrite
  refine ⟨_, _, (hread.trans hgot).trans hwrite, ?_, rfl⟩
  have hstored : Framed stdin stdout m (execs (execs s₁ gotsymOps) writeOps)
      { w with input := w.input.tail } :=
    (hframed.stored hlast (charWord c)).of_eq (by simp [gotsymOps, writeOps]) hmem'
  refine ⟨hstored, ?_, ?_, ?_, ?_, h.output, ?_, h.power, ?_⟩
  · simpa [gotsymOps, writeOps] using hr4
  · simpa [gotsymOps, writeOps] using hr5
  · rw [List.length_append, List.length_singleton, ← hnext]
    simp [gotsymOps, writeOps, hr6]
  · rw [h.input, List.tail_cons]
  · rw [List.map_append, hmem']
    refine Machine.Holds.concat (h.chars.congr fun i hi => ?_) ?_
    · rw [List.length_map] at hi
      have hne : w.word i ≠ w.word xs.length := by
        unfold World.word
        bv_omega
      rw [Machine.store_mem]
      exact (if_neg hne).trans (hmem i (by omega))
    · rw [List.length_map, Machine.store_mem]
      exact if_pos rfl
  · rw [List.length_append, List.length_singleton]
    exact h.size_le.imp_right fun hle => hle.trans (by omega)

/-- A call of `realloc`, whose result goes to `r5`. -/
theorem realloc_steps {l next target : Label} {ops : List Op} {size : ℕ}
    (hcall : code stdin stdout l = ⟨ops, .bl .realloc next⟩)
    (hnext : code stdin stdout next = ⟨[.mov .r5 (.reg .r0)], .b target⟩)
    (hok : Checked (InBuffer w) s ops) (hframed : Framed stdin stdout m (execs s ops) w)
    (hr0 : (execs s ops).reg .r0 = w.base) (hr1 : ((execs s ops).reg .r1).toNat = size)
    (hsize : size ≤ 2 ^ 31) :
    ∃ s' base, Run lib ⟨s, w, .at l⟩ ⟨s', { w with base := base, size := size }, .at target⟩ ∧
      Framed stdin stdout m s' { w with base := base, size := size } ∧ s'.reg .r5 = base ∧
      (∀ r ∈ [Reg.r4, .r6], s'.reg r = (execs s ops).reg r) ∧
      ∀ i, 4 * i + 4 ≤ w.size → 4 * i + 4 ≤ size →
        s'.mem (base + BitVec.ofNat 32 (4 * i)) = (execs s ops).mem (w.word i) := by
  obtain ⟨hworld, hapart, hcontents⟩ := lib.realloc hframed.sp w hr0 (hr1 ▸ hsize)
  have hrun : Run lib ⟨s, w, .at l⟩ ((Term.bl .realloc next).exec lib.call (execs s ops) w) :=
    Steps.block hcall hok
  rw [Term.exec, hworld, hr1] at hrun
  rw [hworld, hr1] at hapart hcontents
  have hsaved := lib.saved hframed.sp .realloc w
  have hframed' : Framed stdin stdout m (lib.call .realloc (execs s ops) w).1
      { w with base := (lib.call .realloc (execs s ops) w).1.reg .r0, size := size } :=
    hframed.called lib .realloc hapart
  generalize (lib.call .realloc (execs s ops) w).1 = s₁ at *
  have hmove : Run lib ⟨s₁, { w with base := s₁.reg .r0, size := size }, .at next⟩
      ⟨s₁.set .r5 (s₁.reg .r0), { w with base := s₁.reg .r0, size := size }, .at target⟩ :=
    Steps.block hnext ⟨trivial, trivial⟩
  have hkept : ∀ r ∈ [Reg.r4, .r6], (s₁.set .r5 (s₁.reg .r0)).reg r = (execs s ops).reg r := by
    rw [List.forall_mem_cons, List.forall_mem_singleton]
    exact ⟨hsaved .r4 (by decide), hsaved .r6 (by decide)⟩
  exact ⟨_, _, hrun.trans hmove, hframed'.of_eq rfl rfl, Machine.set_reg _ _ _ _, hkept, hcontents⟩

/-- The buffer is doubled, in words. -/
theorem double_steps (h : Filled stdin stdout m s w xs rest) {size : ℕ}
    (hdouble : (BitVec.ofNat 32 (w.size * 2)).toNat = size) (hsize : size ≤ 2 ^ 31) :
    ∃ s' base, Run lib ⟨s, w, .at .double_buffer⟩
        ⟨s', { w with base := base, size := size }, .at .skip_double_buffer⟩ ∧
      Framed stdin stdout m s' { w with base := base, size := size } ∧
      s'.reg .r4 = BitVec.ofNat 32 (w.size * 2) ∧ s'.reg .r5 = base ∧ s'.reg .r6 = s.reg .r6 ∧
      ∀ i, 4 * i + 4 ≤ w.size → 4 * i + 4 ≤ size →
        s'.mem (base + BitVec.ofNat 32 (4 * i)) = s.mem (w.word i) := by
  have hframed : Framed stdin stdout m (execs s doubleOps) w :=
    h.toFramed.of_eq (by simp [doubleOps]) (by simp [doubleOps])
  have hr0 : (execs s doubleOps).reg .r0 = w.base := by simp [doubleOps, h.r5]
  have hr1 : ((execs s doubleOps).reg .r1).toNat = size := by
    rw [← hdouble]
    simp [doubleOps, h.r4, BitVec.ofNat_mul]
  obtain ⟨s', base, hrun, hframed', hr5, hkept, hcontents⟩ :=
    realloc_steps lib (l := .double_buffer) rfl rfl
      ⟨trivial, trivial, trivial, trivial, trivial⟩ hframed hr0 hr1 hsize
  refine ⟨s', base, hrun, hframed', ?_, hr5, ?_, ?_⟩
  · rw [hkept .r4 (by decide)]
    simp [doubleOps, h.r4, BitVec.ofNat_mul]
  · rw [hkept .r6 (by decide)]
    simp [doubleOps]
  · intro i hi hi'
    rw [hcontents i hi hi']
    simp [doubleOps]

theorem skip_steps (s : Machine) (w : World) :
    Run lib ⟨s, w, .at .skip_double_buffer⟩ ⟨s, w, .at .readsym⟩ := Steps.block rfl trivial

theorem ofNat_slt {a b : ℕ} (ha : a < 2 ^ 31) (hb : b < 2 ^ 31) :
    (BitVec.ofNat 32 a).slt (BitVec.ofNat 32 b) = decide (a < b) := by
  have hvalue {n : ℕ} (hn : n < 2 ^ 31) : (BitVec.ofNat 32 n).toInt = n := by
    have hnat : (BitVec.ofNat 32 n).toNat = n := by
      rw [BitVec.toNat_ofNat, Nat.mod_eq_of_lt (by omega)]
    rw [BitVec.toInt_eq_toNat_of_lt (by omega), hnat]
  rw [BitVec.slt, hvalue ha, hvalue hb]
  simp

/-- One round of the reading loop. -/
theorem read_steps (h : Filled stdin stdout m s w xs (c :: rest)) (hlen : xs.length < 2 ^ 28)
    (hroom : 4 * xs.length < w.size) :
    ∃ s' w', Run lib ⟨s, w, .at .readsym⟩ ⟨s', w', .at .readsym⟩ ∧
      Filled stdin stdout m s' w' (xs ++ [c]) rest ∧ 4 * (xs ++ [c]).length < w'.size := by
  obtain ⟨hlow, hfour, -⟩ := h.size_le_max hlen.le
  have hhigh : w.size < 2 ^ 31 := by
    have hsize := h.size_le
    omega
  have hlength : (xs ++ [c]).length = xs.length + 1 := by simp
  obtain ⟨s₁, w₁, hwrite, h₁, hsize₁⟩ := write_steps lib h hlen.le hroom
  rw [ofNat_slt (by omega) hhigh] at hwrite
  by_cases hless : 4 * (xs.length + 1) < w.size
  · rw [decide_eq_true hless, if_pos rfl] at hwrite
    exact ⟨s₁, w₁, hwrite.trans (skip_steps lib s₁ w₁), h₁, by omega⟩
  · rw [decide_eq_false hless, if_neg Bool.false_ne_true] at hwrite
    have hfull : w₁.size = 4 * (xs.length + 1) := by omega
    have hdouble : (BitVec.ofNat 32 (w₁.size * 2)).toNat = w₁.size * 2 := by
      rw [BitVec.toNat_ofNat, Nat.mod_eq_of_lt (by omega)]
    obtain ⟨s₂, base, hrun, hframed, hr4, hr5, hr6, hcontents⟩ :=
      double_steps lib h₁ hdouble (by omega)
    refine ⟨s₂, _, (hwrite.trans hrun).trans (skip_steps lib s₂ _), ⟨hframed, hr4, hr5,
      hr6.trans h₁.r6, h₁.input, h₁.output, h₁.chars.congr ?_, ?_, .inr ?_⟩, ?_⟩
    · intro i hi
      rw [List.length_map, hlength] at hi
      exact hcontents i (by omega) (by omega)
    · obtain ⟨j, hj⟩ := h₁.power
      exact ⟨j + 1, by rw [hj, ← Nat.pow_succ]⟩
    · rw [hlength]
      exact (by omega : w₁.size * 2 ≤ 8 * (xs.length + 1))
    · rw [hlength]
      exact (by omega : 4 * (xs.length + 1) < w₁.size * 2)

/-- The reading loop, as long as the size of the buffer is an `int`. -/
theorem read_run {taken left : Bytes} (h : Filled stdin stdout m s w xs (taken ++ left))
    (hlen : xs.length + taken.length ≤ 2 ^ 28) (hroom : 4 * xs.length < w.size) :
    ∃ s' w', Run lib ⟨s, w, .at .readsym⟩ ⟨s', w', .at .readsym⟩ ∧
      Filled stdin stdout m s' w' (xs ++ taken) left ∧ 4 * (xs ++ taken).length < w'.size := by
  induction taken generalizing s w xs with
  | nil =>
    rw [List.append_nil]
    exact ⟨s, w, Steps.refl _, h, hroom⟩
  | cons c taken ih =>
    rw [List.length_cons] at hlen
    obtain ⟨s₁, w₁, hrun, h₁, hroom₁⟩ := read_steps lib h (by omega) hroom
    have hlength : (xs ++ [c]).length = xs.length + 1 := by simp
    obtain ⟨s₂, w₂, hrest, h₂, hroom₂⟩ := ih h₁ (by omega) hroom₁
    rw [List.append_assoc, List.singleton_append] at h₂ hroom₂
    exact ⟨s₂, w₂, hrun.trans hrest, h₂, hroom₂⟩

/-- The characters from `i` on have been printed. -/
structure Printing (stdin stdout : Word) (m s : Machine) (w : World) (xs : Bytes) (i : ℕ) : Prop
    extends Framed stdin stdout m s w where
  r5 : s.reg .r5 = w.base
  r6 : s.reg .r6 = BitVec.ofNat 32 (4 * i)
  chars : Machine.Holds s.mem w.base (xs.map charWord)
  output : w.output = (xs.drop i).reverse
  index : i ≤ xs.length
  room : 4 * xs.length ≤ w.size ∧ w.size ≤ 2 ^ 31

/-- At the end of the input. -/
theorem eof_steps (h : Filled stdin stdout m s w xs []) (hlen : xs.length ≤ 2 ^ 28)
    (hroom : 4 * xs.length < w.size) :
    ∃ s' w', Run lib ⟨s, w, .at .readsym⟩ ⟨s', w', .at .print_buffer⟩ ∧
      Printing stdin stdout m s' w' xs xs.length := by
  obtain ⟨hlow, hfour, hhigh⟩ := h.size_le_max hlen
  obtain ⟨s₁, hread, hframed, hr0, hkept, hmem⟩ := readsym_steps lib h.toFramed
  have hgot := gotsym_steps lib s₁ { w with input := w.input.tail }
  rw [h.input, List.head?_nil, Option.elim_none] at hr0
  rw [if_pos hr0] at hgot
  refine ⟨_, _, hread.trans hgot, hframed.of_eq rfl rfl, ?_, ?_, ?_, ?_, le_rfl, hroom.le, hhigh⟩
  · exact (hkept .r5 (by decide)).trans h.r5
  · exact (hkept .r6 (by decide)).trans h.r6
  · refine h.chars.congr fun i hi => ?_
    rw [List.length_map] at hi
    exact hmem i (by omega)
  · rw [List.drop_length, List.reverse_nil]
    exact h.output

theorem charWord_toUInt8 (c : UInt8) : UInt8.ofNat (charWord c).toNat = c := by
  have hlt := c.toNat_lt
  rw [charWord, BitVec.toNat_ofNat, Nat.mod_eq_of_lt (by omega), UInt8.ofNat_toNat]

/-- The test at the end of a round of the printing loop. -/
theorem printed_steps (s : Machine) (w : World) : ∃ s', Run lib ⟨s, w, .at .printed⟩
      ⟨s', w, .at (if s.reg .r6 = 0 then .exit_main else .print_buffer)⟩ ∧
    s'.reg = s.reg ∧ s'.mem = s.mem := by
  have hblock : Run lib ⟨s, w, .at .printed⟩ ((Term.bc .eq .exit_main .again).exec lib.call
      (execs s printedOps) w) := Steps.block rfl ⟨trivial, trivial⟩
  have hagain : Run lib ⟨execs s printedOps, w, .at .again⟩
      ⟨execs s printedOps, w, .at .print_buffer⟩ := Steps.block rfl trivial
  have hzero : (execs s printedOps).flags.zero = (s.reg .r6 == 0) := by
    simp [printedOps, ArmText.compare]
  rw [Term.exec, Cond.holds, hzero] at hblock
  refine ⟨execs s printedOps, ?_, rfl, rfl⟩
  by_cases hlast : s.reg .r6 = 0
  · rw [hlast] at hblock
    rw [if_pos hlast]
    exact hblock
  · rw [beq_eq_false_iff_ne.mpr hlast] at hblock
    rw [if_neg hlast]
    exact hblock.trans hagain

/-- One round of the printing loop. -/
theorem print_steps {i : ℕ} (h : Printing stdin stdout m s w xs (i + 1)) :
    ∃ s' w', Run lib ⟨s, w, .at .print_buffer⟩
        ⟨s', w', .at (if i = 0 then .exit_main else .print_buffer)⟩ ∧
      Printing stdin stdout m s' w' xs i := by
  have hindex := h.index
  obtain ⟨hroom, hhigh⟩ := h.room
  have hback : BitVec.ofNat 32 (4 * (i + 1)) - 4 = BitVec.ofNat 32 (4 * i) := by bv_omega
  have hr6 : (execs s (printOps stdout)).reg .r6 = BitVec.ofNat 32 (4 * i) := by
    rw [← hback]
    simp [printOps, h.r6]
  have hr0 : (execs s (printOps stdout)).reg .r0 = charWord xs[i] := by
    have hword := h.chars.get (i := i) (by rw [List.length_map]; omega)
    rw [List.getElem_map, ← hback] at hword
    rw [← hword]
    simp [printOps, h.r5, h.r6]
  have hframed : Framed stdin stdout m (execs s (printOps stdout)) w :=
    h.toFramed.of_eq (by simp [printOps]) (by simp [printOps])
  have hworld := lib.fputc hframed.sp (by simp [printOps]) w
  have hok : Checked (InBuffer w) s (printOps stdout) := by
    refine ⟨trivial, ?_, trivial, trivial, trivial⟩
    have hword := inBuffer_word (w := w) (i := i) (by omega) hhigh
    rw [← hback] at hword
    simpa [InBuffer, h.r5, h.r6] using hword
  have hcall : Run lib ⟨s, w, .at .print_buffer⟩ ((Term.bl .fputc .printed).exec lib.call
      (execs s (printOps stdout)) w) := Steps.block rfl hok
  rw [Term.exec, hworld, hr0, charWord_toUInt8] at hcall
  have hsaved := lib.saved hframed.sp .fputc w
  have hbuffer := lib.buffer hframed.sp .fputc w (.inr rfl)
  have hframed' : Framed stdin stdout m (lib.call .fputc (execs s (printOps stdout)) w).1
      { w with output := w.output ++ [xs[i]] } := hframed.called lib .fputc h.apart
  generalize (lib.call .fputc (execs s (printOps stdout)) w).1 = s₁ at *
  have hr6' : s₁.reg .r6 = BitVec.ofNat 32 (4 * i) := (hsaved .r6 (by decide)).trans hr6
  have hzero : s₁.reg .r6 = 0 ↔ i = 0 := by
    rw [hr6']
    bv_omega
  obtain ⟨s₂, hprinted, hreg, hmem⟩ :=
    printed_steps lib s₁ { w with output := w.output ++ [xs[i]] }
  simp only [hzero] at hprinted
  refine ⟨s₂, _, hcall.trans hprinted, hframed'.of_eq (congrFun hreg _) hmem, ?_, ?_, ?_, ?_,
    by omega, hroom, hhigh⟩
  · rw [hreg, hsaved .r5 (by decide)]
    simp [printOps, h.r5]
  · rw [hreg, hr6']
  · refine h.chars.congr fun j hj => ?_
    rw [List.length_map] at hj
    rw [hmem]
    refine (hbuffer j (by omega)).trans ?_
    simp [printOps, World.word]
  · rw [List.drop_eq_getElem_cons (by omega), List.reverse_cons]
    exact congrArg (· ++ [xs[i]]) h.output

/-- The printing loop. -/
theorem print_run {i : ℕ} (h : Printing stdin stdout m s w xs (i + 1)) :
    ∃ s' w', Run lib ⟨s, w, .at .print_buffer⟩ ⟨s', w', .at .exit_main⟩ ∧
      Printing stdin stdout m s' w' xs 0 := by
  induction i generalizing s w with
  | zero =>
    obtain ⟨s₁, w₁, hrun, h₁⟩ := print_steps lib h
    exact ⟨s₁, w₁, hrun, h₁⟩
  | succ i ih =>
    obtain ⟨s₁, w₁, hrun, h₁⟩ := print_steps lib h
    rw [if_neg (Nat.succ_ne_zero i)] at hrun
    obtain ⟨s₂, w₂, hrest, h₂⟩ := ih h₁
    exact ⟨s₂, w₂, hrun.trans hrest, h₂⟩

/-- The way back to the caller. -/
theorem exit_steps (h : Printing stdin stdout m s w xs 0) :
    ∃ t w', Run lib ⟨s, w, .at .exit_main⟩ ⟨t, w', .out (m.reg .lr)⟩ ∧
      w'.output = xs.reverse := by
  have hframed : Framed stdin stdout m (s.set .r0 (s.reg .r5)) w :=
    h.toFramed.of_eq (by simp) rfl
  have hout := lib.free hframed.sp w (by simp [h.r5])
  have hcall : Run lib ⟨s, w, .at .exit_main⟩ ((Term.bl .free .freed).exec lib.call
      (s.set .r0 (s.reg .r5)) w) := Steps.block rfl ⟨trivial, trivial⟩
  rw [Term.exec] at hcall
  have hframed' : Framed stdin stdout m (lib.call .free (s.set .r0 (s.reg .r5)) w).1 w :=
    hframed.called lib .free h.apart
  generalize lib.call .free (s.set .r0 (s.reg .r5)) w = called at *
  obtain ⟨s₁, w₁⟩ := called
  have hreturn : Run lib ⟨s₁, w₁, .at .freed⟩ ⟨execs s₁ freedOps, w₁,
      .out ((execs s₁ freedOps).reg .lr)⟩ := Steps.block rfl ⟨trivial, trivial, trivial⟩
  have hlr : (execs s₁ freedOps).reg .lr = m.reg .lr := by
    obtain ⟨-, -, -, hlr, -⟩ := hframed'.saved
    rw [← hlr, ← hframed'.sp]
    simp [freedOps]
  rw [hlr] at hreturn
  exact ⟨_, w₁, hcall.trans hreturn, hout.trans h.output⟩

/-- The start, up to the reading loop. -/
theorem start_steps (h6 : m.reg .r6 = 0)
    (input : Bytes) : ∃ s' w', Run lib ⟨m, ⟨input, [], 0, 0⟩, .at .main⟩ ⟨s', w', .at .readsym⟩ ∧
      Filled stdin stdout m s' w' [] input ∧ 0 < w'.size := by
  have hsaved : Machine.Holds (execs m mainOps).mem (m.reg .sp - 16#32)
      [m.reg .r4, m.reg .r5, m.reg .r6, m.reg .lr] :=
    @Machine.storeRegs_holds (m.set .sp (m.reg .sp - 16#32)) _ [.r4, .r5, .r6, .lr] (by decide)
  have hframed : Framed stdin stdout m (execs m mainOps) ⟨input, [], 0, 0⟩ :=
    ⟨by simp [mainOps], hsaved, fun i hi => absurd hi (Nat.not_succ_le_zero _)⟩
  have hr1 : ((execs m mainOps).reg .r1).toNat = 8 := by simp [mainOps]
  obtain ⟨s', base, hrun, hframed', hr5, hkept, -⟩ :=
    realloc_steps lib (l := .main) rfl rfl
      ⟨trivial, trivial, trivial, trivial, trivial⟩ hframed (by simp [mainOps]) hr1 (by decide)
  refine ⟨s', _, hrun, ⟨hframed', ?_, hr5, ?_, rfl, rfl, trivial, ⟨0, rfl⟩, .inl rfl⟩,
    Nat.succ_pos 7⟩
  · rw [hkept .r4 (by decide)]
    simp [mainOps]
  · rw [hkept .r6 (by decide)]
    simp [mainOps, h6]

end

/-- The program comes back to its caller with the input printed backwards, and all its accesses to
the buffer are inside. -/
def Prints {stdin stdout : Word} {m : Machine} (lib : Library stdin stdout (m.reg .sp - 16#32))
    (input : Bytes) : Prop :=
  ∃ t w, Run lib ⟨m, ⟨input, [], 0, 0⟩, .at .main⟩ ⟨t, w, .out (m.reg .lr)⟩ ∧
    w.output = input.reverse

section
variable {stdin stdout : Word} {m : Machine} (lib : Library stdin stdout (m.reg .sp - 16#32))
  {input : Bytes}

theorem prints_of_le (h6 : m.reg .r6 = 0) (hne : input ≠ []) (hlen : input.length ≤ 2 ^ 28) :
    Prints lib input := by
  obtain ⟨s₁, w₁, hstart, h₁, hpos⟩ := start_steps lib h6 input
  have h₁' : Filled stdin stdout m s₁ w₁ [] (input ++ []) := by rwa [List.append_nil]
  obtain ⟨s₂, w₂, hread, h₂, hroom⟩ :=
    read_run lib h₁' (by simpa using hlen) hpos
  rw [List.nil_append] at h₂ hroom
  obtain ⟨s₃, w₃, heof, h₃⟩ := eof_steps lib h₂ hlen hroom
  obtain ⟨i, hi⟩ := Nat.exists_eq_succ_of_ne_zero (mt List.length_eq_zero_iff.mp hne)
  rw [hi] at h₃
  obtain ⟨s₄, w₄, hprint, h₄⟩ := print_run lib h₃
  obtain ⟨t, w₅, hexit, hout⟩ := exit_steps lib h₄
  exact ⟨t, w₅, (((hstart.trans hread).trans heof).trans hprint).trans hexit, hout⟩

/-- A state in which the program is about to access a word outside the buffer ends the run. -/
theorem not_prints {s : State Label World} (h : Run lib ⟨m, ⟨input, [], 0, 0⟩, .at .main⟩ s)
    {l : Label} (hpc : s.pc = .at l) (hstuck : Stuck (code stdin stdout) lib.call InBuffer s) :
    ¬ Prints lib input := by
  rintro ⟨t, w, hrun, -⟩
  have heq := hrun.unique h (stuck_of_out rfl) hstuck
  rw [← heq] at hpc
  cases hpc

/-- Without input the first load is that of the word in front of the buffer. -/
theorem not_prints_nil (h6 : m.reg .r6 = 0) : ¬ Prints lib [] := by
  obtain ⟨s₁, w₁, hstart, h₁, hpos⟩ := start_steps lib h6 []
  obtain ⟨s₂, w₂, heof, h₂⟩ := eof_steps lib h₁ (by decide) hpos
  refine not_prints lib (hstart.trans heof) rfl ?_
  rintro ⟨-, hload, -⟩
  have hhigh := h₂.room.2
  have hfront : (w₂.base + (BitVec.ofNat 32 (4 * 0) - 4) - w₂.base).toNat = 2 ^ 32 - 4 := by
    bv_omega
  have haddress : (s₂.reg .r5 + (s₂.reg .r6 - 4) - w₂.base).toNat + 4 ≤ w₂.size := by
    simpa [InBuffer] using hload
  rw [h₂.r5, h₂.r6, List.length_nil, hfront] at haddress
  omega

/-- Without a buffer the next access is outside. -/
theorem stuck_of_empty {s : Machine} {w : World} (hsize : w.size = 0) :
    Stuck (code stdin stdout) lib.call InBuffer ⟨s, w, .at .print_buffer⟩ ∧
      Stuck (code stdin stdout) lib.call InBuffer ⟨s, w, .at .write⟩ := by
  constructor
  · rintro ⟨-, hload, -⟩
    have haddress : _ + 4 ≤ w.size := hload
    omega
  · rintro ⟨hstore, -⟩
    have haddress : _ + 4 ≤ w.size := hstore
    omega

/-- After `2 ^ 28` characters and one more the size is no longer a number of 32 bits, and `realloc`
is called with 0. -/
theorem not_prints_long (h6 : m.reg .r6 = 0) (hlen : 2 ^ 28 < input.length) :
    ¬ Prints lib input := by
  obtain ⟨c, left, hleft⟩ : ∃ c left, input.drop (2 ^ 28) = c :: left :=
    List.exists_cons_of_length_pos (by rw [List.length_drop]; omega)
  have hsplit := List.take_append_drop (2 ^ 28) input
  have htaken : (input.take (2 ^ 28)).length = 2 ^ 28 := by
    rw [List.length_take]
    omega
  generalize input.take (2 ^ 28) = taken at *
  rw [hleft] at hsplit
  subst hsplit
  obtain ⟨s₁, w₁, hstart, h₁, hpos⟩ := start_steps lib h6 (taken ++ c :: left)
  obtain ⟨s₂, w₂, hread, h₂, hroom⟩ := read_run lib h₁ (by simp [htaken]) hpos
  rw [List.nil_append] at h₂ hroom
  have hsize : w₂.size = 2 ^ 31 := by
    obtain ⟨j, hj⟩ := h₂.power
    have hle := h₂.size_le
    rw [htaken] at hle hroom
    have hexp : 30 < j + 3 :=
      (Nat.pow_lt_pow_iff_right (a := 2) (by decide)).mp (hj ▸ hroom)
    have hpow : 2 ^ 31 ≤ 2 ^ (j + 3) := Nat.pow_le_pow_right (by decide) hexp
    omega
  obtain ⟨s₃, w₃, hwrite, h₃, hsize₃⟩ := write_steps lib h₂ htaken.le hroom
  have hfull : (BitVec.ofNat 32 (4 * (2 ^ 28 + 1))).slt (BitVec.ofNat 32 (2 ^ 31)) = false := by
    decide
  rw [htaken, hsize, hfull, if_neg Bool.false_ne_true] at hwrite
  have hdouble : (BitVec.ofNat 32 (w₃.size * 2)).toNat = 0 := by
    rw [hsize₃, hsize]
    decide
  obtain ⟨s₄, base, hrealloc, hframed, -⟩ := double_steps lib h₃ hdouble (by decide)
  obtain ⟨s₅, hgetc, -⟩ := readsym_steps lib hframed
  have hgot := gotsym_steps lib s₅ ⟨w₃.input.tail, w₃.output, base, 0⟩
  have hrun := (((hstart.trans hread).trans hwrite).trans hrealloc).trans
    ((skip_steps lib s₄ _).trans (hgetc.trans hgot))
  refine not_prints lib hrun rfl ?_
  split
  · exact (stuck_of_empty lib rfl).1
  · exact (stuck_of_empty lib rfl).2

/-- The program prints the input backwards if and only if it has a character and no more than
`2 ^ 28`. -/
theorem prints_iff (h6 : m.reg .r6 = 0) (input : Bytes) :
    Prints lib input ↔ input ≠ [] ∧ input.length ≤ 2 ^ 28 := by
  constructor
  · intro h
    refine ⟨?_, ?_⟩
    · rintro rfl
      exact not_prints_nil lib h6 h
    · by_contra hlong
      exact not_prints_long lib h6 (by omega) h
  · rintro ⟨hne, hlen⟩
    exact prints_of_le lib h6 hne hlen

end

/-- Routines whose `realloc` has the 2 GB from address 4096 on for the buffer. -/
def callLow : Routines Routine World
  | .fgetc, m, w =>
    (m.set .r0 (w.input.head?.elim (-1) charWord), { w with input := w.input.tail })
  | .fputc, m, w => (m, { w with output := w.output ++ [UInt8.ofNat (m.reg .r0).toNat] })
  | .realloc, m, w =>
    (⟨Function.update m.reg .r0 4096, fun a =>
        if 4096 ≤ a.toNat ∧ a.toNat < 4096 + 2 ^ 31 then m.mem (w.base + (a - 4096)) else m.mem a,
      m.flags⟩,
      { w with base := 4096, size := (m.reg .r1).toNat })
  | .free, m, w => (m, w)

def lowLibrary {stdin stdout sp : Word}
    (hhigh : ∀ a, Fixed stdin stdout sp a → 4096 + 2 ^ 31 ≤ a.toNat) :
    Library stdin stdout sp where
  call := callLow
  saved := by
    intro m _ routine w r hr
    have hne : r ≠ .r0 := by
      rintro rfl
      exact absurd hr (by decide)
    cases routine <;> simp [callLow, hne]
  fixed := by
    intro m _ routine w a ha
    have hout := hhigh a ha
    cases routine with
    | realloc => exact if_neg (by omega)
    | _ => rfl
  buffer := by
    rintro m _ routine w (rfl | rfl) i _ <;> rfl
  fgetc := fun _ _ w => ⟨Machine.set_reg _ _ _ _, rfl⟩
  fputc := fun _ _ w => rfl
  realloc := by
    intro m _ w _ hsize
    have hword (i : ℕ) (hi : 4 * i + 4 ≤ 2 ^ 31) :
        (4096 + BitVec.ofNat 32 (4 * i) : Word).toNat = 4096 + 4 * i := by
      bv_omega
    refine ⟨rfl, fun i hi hfixed => ?_, fun i _ hi => ?_⟩
    · have hout : 4096 + 2 ^ 31 ≤ (4096 + BitVec.ofNat 32 (4 * i) : Word).toNat := hhigh _ hfixed
      rw [hword i (by omega)] at hout
      omega
    · have hrange : 4096 ≤ (4096 + BitVec.ofNat 32 (4 * i) : Word).toNat ∧
          (4096 + BitVec.ofNat 32 (4 * i) : Word).toNat < 4096 + 2 ^ 31 := by
        rw [hword i (by omega)]
        omega
      have hback : w.base + (4096 + BitVec.ofNat 32 (4 * i) - 4096) = w.word i := by
        unfold World.word
        bv_omega
      exact (if_pos hrange).trans (congrArg m.mem hback)
  free := fun _ _ _ => rfl

/-- A caller with its stack at 3 GB. -/
def caller : Machine :=
  ⟨fun r => if r = .sp then 0xC0000010 else 0, fun _ => 0, ⟨false, false⟩⟩

theorem caller_fixed (a : Word)
    (h : Fixed 0x90000000 0x90000004 (caller.reg .sp - 16#32) a) : 4096 + 2 ^ 31 ≤ a.toNat := by
  have hsp : caller.reg .sp - 16#32 = 0xC0000000 := by decide
  rw [hsp] at h
  rcases h with rfl | rfl | ⟨i, hi, rfl⟩
  · decide
  · decide
  · bv_omega

theorem prints_line : Prints (lowLibrary caller_fixed) [97, 99, 111, 115, 10] :=
  (prints_iff (lowLibrary caller_fixed) (by decide) [97, 99, 111, 115, 10]).mpr
    ⟨List.cons_ne_nil _ _, by decide⟩

theorem prints_not_empty : ¬ ∀ (stdin stdout : Word) (m : Machine)
    (lib : Library stdin stdout (m.reg .sp - 16#32)), m.reg .r6 = 0 → ∀ input, Prints lib input :=
  fun h => not_prints_nil (lowLibrary caller_fixed) (by decide)
    (h _ _ caller (lowLibrary caller_fixed) (by decide) [])

end Acos.ReversePrint
