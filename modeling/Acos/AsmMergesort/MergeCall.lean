import Acos.AsmMergesort.Merging

/-! How `merge__` enters its frame and leaves it: the local arrays are put below it, page by
page. -/
namespace Acos.AsmMergesort
open Acos.MachineInt Acos.WordMemory Acos.X86

section
variable (layout : Layout Label) {head probing rest touching exit : Label}
  {bp p q r L R out s z n : ℕ}  {m m' : Machine}

theorem pages_test (hhead : code head = ⟨allPages, .jcc .e rest probing⟩) :
    ∃ m', Runs code layout [.rbp, .rax, .rdx, .rsp] (m, .at head)
        (m', .at (if m.reg .rsp = m.reg .rdx then rest else probing)) ∧ m'.mem = m.mem := by
  have hkeeps : ∀ op ∈ allPages, op.keeps [.rbp, .rax, .rdx, .rsp] := by decide
  have hflags : (execs m allPages).flags = some (X86.compare .qword (m.reg .rsp) (m.reg .rdx)) := by
    simp [allPages]
  have hrun := Runs.jcc layout hhead hkeeps hflags
  simp only [Cond.holds, X86.compare, beq_iff_eq] at hrun
  exact ⟨_, hrun, execs_mem (by decide)⟩

/-- The stack pointer goes down to `rdx` page by page. -/
theorem pages_loop {d c : ℕ} (hhead : code head = ⟨allPages, .jcc .e rest probing⟩)
    (hprobing : code probing = ⟨probe, .jmp head⟩) (hsp : m.reg .rsp = (d + 4096 * c) % 2 ^ 64)
    (hdx : m.reg .rdx = d) (hc : c < 2 ^ 52) :
    ∃ m', Runs code layout [.rbp, .rax] (m, .at head) (m', .at rest) ∧ m'.mem = m.mem ∧
      m'.reg .rsp = d := by
  have hd := hdx ▸ m.reg_lt .rdx
  induction c generalizing m with
  | zero =>
    obtain ⟨m', hrun, hmem⟩ := pages_test layout (m := m) hhead
    rw [if_pos (by omega)] at hrun
    have hsp' : m.reg .rsp = d := by omega
    exact ⟨m', hrun.mono (by decide), hmem, (hrun.reg .rsp (by decide)).trans hsp'⟩
  | succ c ih =>
    obtain ⟨m1, hrun1, hmem1⟩ := pages_test layout (m := m) hhead
    rw [if_neg (by omega)] at hrun1
    obtain ⟨hmem2, hsp2⟩ := exec_probe m1
    have hkeeps : ∀ op ∈ probe, op.keeps [.rbp, .rax, .rdx] := by decide
    have hrun2 := (hrun1.mono (by decide)).trans (Runs.jmp layout hprobing hkeeps)
    have hless : minus .qword ((d + 4096 * (c + 1)) % 2 ^ 64) 4096 = (d + 4096 * c) % 2 ^ 64 := by
      simp only [minus, Width.modulus]
      omega
    rw [hrun1.reg .rsp (by decide), hsp, hless] at hsp2
    obtain ⟨m', hrun', hmem', hsp'⟩ := ih (m := execs m1 probe) hsp2
      ((hrun2.reg .rdx (by decide)).trans hdx) (by omega)
    exact ⟨m', (hrun2.mono (by decide)).trans hrun', by rw [hmem', hmem2, hmem1], hsp'⟩

/-- The rest of the array, which is less than a page, is touched if there is any. -/
theorem page_rest (hrest : code rest = ⟨lastPage, .jcc .e exit touching⟩)
    (htouching : code touching = ⟨touch, .jmp exit⟩) (hax : m.reg .rax = z)
    (hsp : m.reg .rsp = s) :
    ∃ m', Runs code layout [.rbp] (m, .at rest) (m', .at exit) ∧ m'.mem = m.mem ∧
      m'.reg .rsp = minus .qword s (z % 4096) := by
  obtain ⟨hsp1, hmem1, hflags⟩ := exec_lastPage hax hsp
  obtain ⟨f, hf⟩ := Option.isSome_iff_exists.mp hflags
  have hkeeps : ∀ op ∈ lastPage, op.keeps [.rbp] := by decide
  have hrun1 := Runs.jcc layout hrest hkeeps hf
  generalize execs m lastPage = m1 at hsp1 hmem1 hrun1
  by_cases hzero : Cond.e.holds f
  · rw [if_pos hzero] at hrun1
    exact ⟨m1, hrun1, hmem1, hsp1⟩
  · rw [if_neg hzero] at hrun1
    obtain ⟨hmem2, hsp2⟩ := exec_touch m1
    have hkeeps : ∀ op ∈ touch, op.keeps [.rbp] := by decide
    exact ⟨_, hrun1.trans (Runs.jmp layout htouching hkeeps), hmem2.trans hmem1, hsp2.trans hsp1⟩

/-- The stack pointer goes down by the size of the array. -/
theorem array_pages (hhead : code head = ⟨allPages, .jcc .e rest probing⟩)
    (hprobing : code probing = ⟨probe, .jmp head⟩)
    (hrest : code rest = ⟨lastPage, .jcc .e exit touching⟩)
    (htouching : code touching = ⟨touch, .jmp exit⟩) (hax : m.reg .rax = z)
    (hdx : m.reg .rdx = minus .qword s (z / 4096 * 4096)) (hsp : m.reg .rsp = s) :
    ∃ m', Runs code layout [.rbp] (m, .at head) (m', .at exit) ∧ m'.mem = m.mem ∧
      m'.reg .rsp = minus .qword s z := by
  have hs := hsp ▸ m.reg_lt .rsp
  have hz := hax ▸ m.reg_lt .rax
  have hwhole : s = (minus .qword s (z / 4096 * 4096) + 4096 * (z / 4096)) % 2 ^ 64 := by
    simp only [minus, Width.modulus]
    omega
  have hall : minus .qword (minus .qword s (z / 4096 * 4096)) (z % 4096) = minus .qword s z := by
    simp only [minus, Width.modulus]
    omega
  obtain ⟨m1, hrun1, hmem1, hsp1⟩ :=
    pages_loop layout (c := z / 4096) hhead hprobing (hsp.trans hwhole) hdx (by omega)
  have hax1 : m1.reg .rax = z := (hrun1.reg .rax (by decide)).trans hax
  obtain ⟨m2, hrun2, hmem2, hsp2⟩ := page_rest layout hrest htouching hax1 hsp1
  exact ⟨m2, (hrun1.mono (by decide)).trans hrun2, hmem2.trans hmem1, hsp2.trans hall⟩

/-- Where the stack ends with an array whose size is the number `n` of 32 bits. -/
def stackBelow (s n : ℕ) : ℕ := minus .qword s (arrayBytes n)

/-- The end of a block allocates an array of `n` elements. -/
theorem allocate_run {l : Label} {ops : List Op} {count last : ℕ} {a b c d : Reg}
    (hcode : code l = ⟨ops ++ allocate count last a b c d, .jmp head⟩)
    (hhead : code head = ⟨allPages, .jcc .e rest probing⟩)
    (hprobing : code probing = ⟨probe, .jmp head⟩)
    (hrest : code rest = ⟨lastPage, .jcc .e exit touching⟩)
    (htouching : code touching = ⟨touch, .jmp exit⟩) (hsound : sound m ops)
    (hregs : ∀ reg ∈ [Reg.rax, .rsp, .rbp], reg ∉ [a, b, c, d])
    (hbp : (execs m ops).reg .rbp = bp) (hsp : (execs m ops).reg .rsp = s) (hlo : 144 ≤ bp)
    (hhi : bp < 2 ^ 64) (hcount : count ≤ 136) (hlast : last ≤ 136)
    (hn : load 4 (execs m ops).mem (bp - count) = n) :
    ∃ m', Runs code layout [] (m, .at l) (m', .at exit) ∧ m'.reg .rbp = bp ∧
      m'.reg .rsp = stackBelow s n ∧
      Keeps (fun a => a < bp - last ∨ bp - last + 8 ≤ a) (execs m ops).mem m'.mem := by
  have hrax := hregs .rax (by decide)
  have hrsp := hregs .rsp (by decide)
  have hrbp := hregs .rbp (by decide)
  obtain ⟨hsound1, hax1, hdx1, hmem1⟩ := exec_allocate hbp hlo hhi hsp hcount hlast hn hrax hrsp
  have hsp1 : (execs (execs m ops) (allocate count last a b c d)).reg .rsp = s :=
    (exec_allocate_reg _ (by simpa using hrsp)).trans hsp
  have hbp1 : (execs (execs m ops) (allocate count last a b c d)).reg .rbp = bp :=
    (exec_allocate_reg _ (by simpa using hrbp)).trans hbp
  have hrun1 : Runs code layout [] (m, .at l)
      (execs (execs m ops) (allocate count last a b c d), .at head) := by
    refine ⟨?_, nofun, ?_⟩
    · rw [← execs_append]
      apply Steps.jmp hcode
      rw [sound_append, hsound, hsound1]
      rfl
    · simp only [execs_fs]
  generalize execs (execs m ops) (allocate count last a b c d) = m1 at *
  obtain ⟨m2, hrun2, hmem2, hsp2⟩ :=
    array_pages layout hhead hprobing hrest htouching hax1 hdx1 hsp1
  refine ⟨m2, hrun1.trans (hrun2.mono nofun), (hrun2.reg .rbp (by decide)).trans hbp1, hsp2, ?_⟩
  rwa [hmem2]

/-- What `merge__` does before it allocates. -/
def prologue : List Op := enter ++ arguments ++ midpoint ++ counts

/-- `t` is `r`, up to multiples of `2 ^ 32`. -/
theorem exec_prologue {t : ℕ} (hsp : m.reg .rsp = s) (hlo : 152 ≤ s) (hdi : m.reg .rdi = p)
    (hsi : m.reg .rsi = r) (hcx : m.reg .rcx = out) (hle : p ≤ r) (hr : r < 2 ^ 31)
    (hq : q = middle p r) (hpq : p ≤ q) (hqp : q + 1 < p + 2 ^ 32) (hqt : q ≤ t)
    (htq : t < q + 2 ^ 32) (ht : t % 2 ^ 32 = r) :
    ∃ L R, Frame (s - 8) p q t L R out (execs m prologue) ∧
      (execs m prologue).reg .rsp = s - 152 ∧
      load 8 (execs m prologue).mem (s - 8) = m.reg .rbp ∧
      Keeps (fun a => a < s - 152 ∨ s ≤ a) m.mem (execs m prologue).mem := by
  have hhi := m.reg_lt .rsp
  have hbpval := m.reg_lt .rbp
  have hcxlt := m.reg_lt .rcx
  have hqlt : q < 4294967296 := hq ▸ middle_lt (by omega)
  rw [hsp] at hhi
  obtain ⟨hbp1, hsp1, hmem1⟩ := exec_enter hsp hlo hhi
  have hregs1 : ∀ reg ∈ [Reg.rdi, .rsi, .rcx, .rdx], (execs m enter).reg reg = m.reg reg := by
    intro reg hreg
    exact execs_reg_of_keeps [.rdi, .rsi, .rcx, .rdx] (by decide) hreg
  have hfs1 := execs_fs m enter
  generalize hm1 : execs m enter = m1 at hbp1 hsp1 hmem1 hregs1 hfs1
  have hmem2 := exec_arguments hbp1 (by omega) (by omega) ((hregs1 .rdi (by decide)).trans hdi)
    ((hregs1 .rsi (by decide)).trans hsi) (by omega) (by omega)
  rw [hregs1 .rcx (by decide), hcx] at hmem2
  have hregs2 : ∀ reg ∈ [Reg.rbp, .rsp], (execs m1 arguments).reg reg = m1.reg reg := by
    intro reg hreg
    exact execs_reg_of_keeps [.rbp, .rsp] (by decide) hreg
  have hfs2 := execs_fs m1 arguments
  generalize hm2 : execs m1 arguments = m2 at hmem2 hregs2 hfs2
  have hbp2 := (hregs2 .rbp (by decide)).trans hbp1
  have hp2 : load 4 m2.mem (s - 8 - 116) = p := by
    simp (disch := omega) [hmem2, load_store_of_apart, load_store]
  have hr2 : load 4 m2.mem (s - 8 - 120) = r := by
    simp (disch := omega) [hmem2, load_store_of_apart, load_store]
  have hmem3 := exec_midpoint hbp2 (by omega) (by omega) hp2 hr2 (by omega)
  rw [← hq] at hmem3
  have hregs3 : ∀ reg ∈ [Reg.rbp, .rsp], (execs m2 midpoint).reg reg = m2.reg reg := by
    intro reg hreg
    exact execs_reg_of_keeps [.rbp, .rsp] (by decide) hreg
  have hfs3 := execs_fs m2 midpoint
  generalize hm3 : execs m2 midpoint = m3 at hmem3 hregs3 hfs3
  have hbp3 := (hregs3 .rbp (by decide)).trans hbp2
  have hp3 : load 4 m3.mem (s - 8 - 92) = p := by
    simp (disch := omega) [hmem3, load_store_of_apart, load_store]
  have hq3 : load 4 m3.mem (s - 8 - 84) = q := by
    simp (disch := omega) [hmem3, load_store]
  have hr3 : load 4 m3.mem (s - 8 - 88) = r := by
    simp (disch := omega) [hmem3, load_store_of_apart, load_store]
  have hmem4 := exec_counts hbp3 (by omega) (by omega) hp3 hq3 hr3 hpq hqp hqt htq ht
  have hregs4 : ∀ reg ∈ [Reg.rbp, .rsp], (execs m3 counts).reg reg = m3.reg reg := by
    intro reg hreg
    exact execs_reg_of_keeps [.rbp, .rsp] (by decide) hreg
  have hfs4 := execs_fs m3 counts
  have hexecs : execs m prologue = execs m3 counts := by
    rw [prologue, execs_append, execs_append, execs_append, hm1, hm2, hm3]
  generalize execs m3 counts = m4 at hmem4 hregs4 hfs4 hexecs
  rw [hexecs]
  refine ⟨_, _, ⟨(hregs4 .rbp (by decide)).trans hbp3, ?_, ?_, ?_, ?_, rfl, rfl, ?_, ?_⟩,
    ?_, ?_, ?_⟩
  · rw [hmem4, load_store_of_apart (by omega), load_store_of_apart (by omega), hp3]
  · rw [hmem4, load_store_of_apart (by omega), load_store_of_apart (by omega), hq3]
  · rw [hmem4, load_store_of_apart (by omega), load_store (by omega)]
  · rw [hmem4, load_store (by omega)]
  · simp (disch := omega) [hmem4, hmem3, hmem2, load_store_of_apart, load_store]
  · simp (disch := omega) [hmem4, hmem3, hmem2, load_store_of_apart, load_store, hfs4, hfs3, hfs2]
  · rw [hregs4 .rsp (by decide), hregs3 .rsp (by decide), hregs2 .rsp (by decide), hsp1]
  · simp (disch := omega) [hmem4, hmem3, hmem2, hmem1, load_store_of_apart, load_store]
  · rw [hmem4, hmem3, hmem2, hmem1]
    repeat refine Keeps.store ?_ fun a ha => by omega
    exact Keeps.refl _ _

/-- The frame, and where the local arrays are put. -/
theorem merge_enter {t : ℕ} (hsp : m.reg .rsp = s) (hlo : 152 ≤ s) (hdi : m.reg .rdi = p)
    (hsi : m.reg .rsi = r) (hcx : m.reg .rcx = out) (hle : p ≤ r) (hr : r < 2 ^ 31)
    (hq : q = middle p r) (hpq : p ≤ q) (hqp : q + 1 < p + 2 ^ 32) (hqt : q ≤ t)
    (htq : t < q + 2 ^ 32) (ht : t % 2 ^ 32 = r) :
    ∃ m', Runs code layout [] (m, .at .merge__) (m', .at .L8) ∧
      Frame (s - 8) p q t (arrayPlace (stackBelow (s - 152) (q - p + 1)))
        (arrayPlace (stackBelow (stackBelow (s - 152) (q - p + 1)) (t - q))) out m' ∧
      load 4 m'.mem (s - 8 - 96) = 0 ∧ load 8 m'.mem (s - 8) = m.reg .rbp ∧
      Keeps (fun a => a < s - 152 ∨ s ≤ a) m.mem m'.mem := by
  have hhi := hsp ▸ m.reg_lt .rsp
  obtain ⟨L0, R0, hframe1, hsp1, hsaved1, hkeeps1⟩ :=
    exec_prologue hsp hlo hdi hsi hcx hle hr hq hpq hqp hqt htq ht
  have hfs1 := execs_fs m prologue
  -- the first array
  obtain ⟨m2, hrun2, hbp2, hsp2, hkeeps2⟩ := allocate_run layout (m := m)
    (show code .merge__ = ⟨prologue ++ allocate 80 72 .r14 .r15 .r12 .r13, .jmp .L2⟩ from rfl)
    rfl rfl rfl rfl (sound_of_plain (by decide)) (by decide) hframe1.rbp hsp1 (by omega) (by omega)
    (by omega) (by omega) hframe1.count_left
  generalize execs m prologue = m1 at *
  generalize stackBelow (s - 152) (q - p + 1) = s2 at *
  have hmem3 : (execs m2 (placeArray 64)).mem = store 8 m2.mem (s - 8 - 64) (arrayPlace s2) :=
    exec_placeArray hbp2 (by omega) (by omega) hsp2 (by omega)
  have hbp3 : (execs m2 (placeArray 64)).reg .rbp = s - 8 :=
    (execs_reg_of_keeps [.rbp] (by decide) (by decide)).trans hbp2
  have hsp3 : (execs m2 (placeArray 64)).reg .rsp = s2 :=
    (execs_reg_of_keeps [.rsp] (by decide) (by decide)).trans hsp2
  have hn3 : load 4 (execs m2 (placeArray 64)).mem (s - 8 - 76) = t - q := by
    rw [hmem3, load_store_of_apart (by omega), hkeeps2.load fun a _ _ => by omega,
      hframe1.count_right]
  -- the second array
  obtain ⟨m4, hrun4, hbp4, hsp4, hkeeps4⟩ := allocate_run layout (m := m2)
    (show code .L4 = ⟨placeArray 64 ++ allocate 76 56 .r10 .r11 .r8 .r9, .jmp .L5⟩ from rfl)
    rfl rfl rfl rfl (sound_of_plain (by decide)) (by decide) hbp3 hsp3 (by omega) (by omega)
    (by omega) (by omega) hn3
  generalize execs m2 (placeArray 64) = m3 at *
  generalize stackBelow s2 (t - q) = s4 at *
  have hmem5 : (execs m4 (placeArray 48)).mem = store 8 m4.mem (s - 8 - 48) (arrayPlace s4) :=
    exec_placeArray hbp4 (by omega) (by omega) hsp4 (by omega)
  have hbp5 : (execs m4 (placeArray 48)).reg .rbp = s - 8 :=
    (execs_reg_of_keeps [.rbp] (by decide) (by decide)).trans hbp4
  have hkeeps5 : ∀ op ∈ placeArray 48 ++ clear 96, op.keeps [.rbp] := by decide
  have hrun5 := Runs.jmp layout (m := m4)
    (show code .L7 = ⟨placeArray 48 ++ clear 96, .jmp .L8⟩ from rfl) hkeeps5
  rw [execs_append] at hrun5
  generalize execs m4 (placeArray 48) = m5 at *
  have hmem6 : (execs m5 (clear 96)).mem = store 4 m5.mem (s - 8 - 96) 0 :=
    exec_clear hbp5 (by omega) (by omega)
  generalize execs m5 (clear 96) = m6 at *
  have hrun := (hrun2.trans hrun4).trans (hrun5.mono nofun)
  have hL := arrayPlace_lt s2
  have hR := arrayPlace_lt s4
  have hkeeps : Keeps (fun a => ¬(s - 8 - 72 ≤ a ∧ a < s - 8 - 40) ∧
      ¬(s - 8 - 96 ≤ a ∧ a < s - 8 - 92)) m1.mem m6.mem := by
    have hkeeps3 : Keeps (fun a => ¬(s - 8 - 72 ≤ a ∧ a < s - 8 - 40)) m1.mem m3.mem := by
      rw [hmem3]
      exact (hkeeps2.mono fun a ha => by omega).store fun a ha => by omega
    have hkeeps' : Keeps (fun a => ¬(s - 8 - 72 ≤ a ∧ a < s - 8 - 40)) m1.mem m4.mem :=
      hkeeps3.trans (hkeeps4.mono fun a ha => by omega)
    rw [hmem6, hmem5]
    exact ((hkeeps'.mono fun a ha => ha.1).store fun a ha => by omega).store fun a ha => by omega
  refine ⟨m6, hrun, ?_, ?_, ?_, ?_⟩
  · refine hframe1.relocate (by omega) ?_ ?_ ?_ ?_ ?_
    · exact (hrun5.reg .rbp (by decide)).trans hbp4
    · exact hrun.fs.trans hfs1.symm
    · refine hkeeps.mono fun a ha => ?_
      unfold Fixed at ha
      omega
    · rw [hmem6, hmem5, load_store_of_apart (by omega), load_store_of_apart (by omega),
        hkeeps4.load fun a _ _ => by omega, hmem3, load_store hL]
    · rw [hmem6, hmem5, load_store_of_apart (by omega), load_store hR]
  · rw [hmem6, load_store (by omega)]
  · rw [hkeeps.load fun a _ _ => by omega, hsaved1]
  · exact hkeeps1.trans (hkeeps.mono fun a ha => by omega)

/-- The canary is as it was, and `merge__` goes back to its caller. -/
theorem merge_leave {back saved : ℕ} (hframe : Frame (s - 8) p q r L R out m) (hlo : 152 ≤ s)
    (hhi : s + 8 < 2 ^ 64) (hback : load 8 m.mem s = back) (hsaved : load 8 m.mem (s - 8) = saved) :
    ∃ m', Runs code layout [] (m, .at .L19_exit) (m', layout.resolve back) ∧
      m'.reg .rsp = s + 8 ∧ m'.reg .rbp = saved ∧ m'.mem = m.mem := by
  have hrun1 := Runs.jcc layout
    (show code .L19_exit = ⟨checkCanary, .jcc .e .L21 .L19_fail⟩ from rfl)
    (show ∀ op ∈ checkCanary, op.keeps [.rbp] by decide)
    (exec_checkCanary hframe.rbp (by omega) (by omega) hframe.canary)
  have hmem1 : (execs m checkCanary).mem = m.mem := execs_mem (by decide)
  generalize execs m checkCanary = m1 at hrun1 hmem1
  rw [show Cond.holds ⟨true, false⟩ .e = true from rfl, if_pos rfl] at hrun1
  obtain ⟨hsp2, hbp2⟩ := exec_leaveMerge ((hrun1.reg .rbp (by decide)).trans hframe.rbp) (by omega)
    (by omega)
  rw [Nat.sub_add_cancel (by omega)] at hsp2
  have hmem2 : (execs m1 leaveMerge).mem = m1.mem := execs_mem (by decide)
  have hret : Steps code layout (m1, .at .L21)
      ((execs m1 leaveMerge).drop, layout.resolve (execs m1 leaveMerge).top) :=
    Steps.ret rfl (sound_of_plain (by decide))
  have hfs2 := execs_fs m1 leaveMerge
  generalize execs m1 leaveMerge = m2 at *
  rw [Machine.top, hsp2, hmem2, hmem1, hback] at hret
  have hreturn : Runs code layout [] (m1, .at .L21) (m2.drop, layout.resolve back) :=
    ⟨hret, List.forall_mem_nil _, hfs2⟩
  refine ⟨_, (hrun1.mono (List.forall_mem_nil _)).trans hreturn, ?_, ?_, hmem2.trans hmem1⟩
  · rw [Machine.drop, Machine.set_reg, if_pos rfl, hsp2]
    omega
  · rw [Machine.drop, Machine.set_reg_of_ne _ _ _ _ (by decide), hbp2, hmem1, hsaved]

theorem stackBelow_of_lt (hn : n < 2 ^ 31) (hroom : 4 * n + 12 ≤ s) (hs : s < 2 ^ 64) :
    stackBelow s n = s - 16 * ((15 + 4 * n) / 16) := by
  rw [stackBelow, arrayBytes_of_lt hn, minus_qword (by omega) hs]

theorem arrayPlace_of_lt (hs : s + 3 < 2 ^ 64) : arrayPlace s = (s + 3) / 4 * 4 := by
  rw [arrayPlace, Nat.mod_eq_of_lt hs]

/-- The local arrays have their places in the room that a call may use. -/
theorem places_of_room {q : ℕ} (hroom : 4 * (r + 1 - p) + 176 ≤ s) (htop : s + 8 ≤ 2 ^ 64)
    (hpq : p ≤ q) (hqr : q < r) (hsum : p + r < 2 ^ 31) (hbound : out + 4 * (r + 1) ≤ 2 ^ 64)
    (hapart : out + 4 * (r + 1) ≤ s - (4 * (r + 1 - p) + 176) ∨ s + 8 ≤ out + 4 * p)
    (hL : L = arrayPlace (stackBelow (s - 152) (q - p + 1)))
    (hR : R = arrayPlace (stackBelow (stackBelow (s - 152) (q - p + 1)) (r - q))) :
    Places (s - 8) p q r L R out ∧ s - (4 * (r + 1 - p) + 176) ≤ R := by
  have hfirst : stackBelow (s - 152) (q - p + 1) =
      s - 152 - 16 * ((15 + 4 * (q - p + 1)) / 16) :=
    stackBelow_of_lt (by omega) (by omega) (by omega)
  rw [hfirst, arrayPlace_of_lt (by omega)] at hL
  rw [hfirst, stackBelow_of_lt (by omega) (by omega) (by omega), arrayPlace_of_lt (by omega)] at hR
  exact ⟨⟨by omega, by omega, hpq, hqr, hsum, by omega, by omega, hbound, by omega⟩, by omega⟩

/-- A call of `merge__` does what `Merge` does. -/
theorem merge_call {A : ℕ → ℤ} (hsp : m.reg .rsp = s) (hroom : 4 * (r + 1 - p) + 176 ≤ s)
    (htop : s + 8 < 2 ^ 64) (hdi : m.reg .rdi = p) (hsi : m.reg .rsi = r) (hcx : m.reg .rcx = out)
    (hlt : p < r) (hsum : p + r < 2 ^ 31) (hbound : out + 4 * (r + 1) ≤ 2 ^ 64)
    (hapart : out + 4 * (r + 1) ≤ s - (4 * (r + 1 - p) + 176) ∨ s + 8 ≤ out + 4 * p)
    (hA : Shows m.mem out p (r + 1) A) :
    ∃ m', Runs code layout [] (m, .at .merge__) (m', layout.resolve (load 8 m.mem s)) ∧
      m'.reg .rsp = s + 8 ∧ m'.reg .rbp = m.reg .rbp ∧
      Keeps (fun a => ¬(s - (4 * (r + 1 - p) + 176) ≤ a ∧ a < s) ∧
        ¬(out + 4 * p ≤ a ∧ a < out + 4 * (r + 1))) m.mem m'.mem ∧
      Shows m'.mem out p (r + 1) (Merge A p ((p + r) / 2) r) := by
  have hq : (p + r) / 2 = middle p r := (if_pos hsum).symm
  obtain ⟨m1, hrun1, hframe1, hcounter1, hsaved1, hkeeps1⟩ :=
    merge_enter layout (q := (p + r) / 2) (t := r) hsp (by omega) hdi hsi hcx hlt.le (by omega) hq
      (by omega)
      (by omega) (by omega) (by omega) (by omega)
  obtain ⟨hplaces, hlow⟩ := places_of_room (q := (p + r) / 2) hroom htop.le (by omega) (by omega)
    hsum hbound hapart rfl rfl
  obtain ⟨m2, hrun2, hkeeps2, hA2⟩ := merge_body layout hplaces hframe1 hcounter1
    (hA.keep hkeeps1 fun a _ _ => by omega)
  obtain ⟨hlo, htop', hpq, hqr, _, hL, hR, _, hapart'⟩ := hplaces
  have hframe2 := hframe1.keep hlo hrun2 (hkeeps2.mono fun a ha => by
    unfold Fixed at ha
    unfold Merged
    omega)
  have hkeeps : Keeps (fun a => ¬(s - (4 * (r + 1 - p) + 176) ≤ a ∧ a < s) ∧
      ¬(out + 4 * p ≤ a ∧ a < out + 4 * (r + 1))) m.mem m2.mem := by
    refine (hkeeps1.mono fun a ha => by omega).trans (hkeeps2.mono fun a ha => ?_)
    unfold Merged
    omega
  have hsaved2 : load 8 m2.mem (s - 8) = m.reg .rbp := by
    rw [hkeeps2.load fun a _ _ => by unfold Merged; omega, hsaved1]
  obtain ⟨m3, hrun3, hsp3, hbp3, hmem3⟩ := merge_leave layout hframe2 (by omega) htop
    (hkeeps.load fun a _ _ => by omega) hsaved2
  refine ⟨m3, (hrun1.trans (hrun2.mono (List.forall_mem_nil _))).trans hrun3, hsp3, hbp3, ?_, ?_⟩
  · rw [hmem3]
    exact hkeeps
  · rw [hmem3]
    exact hA2

/-- With sizes below 0 no loop does anything. -/
theorem merge_skip {t : ℕ} (hframe : Frame bp p q t L R out m) (hlo : 144 ≤ bp) (hhi : bp < 2 ^ 64)
    (hi : load 4 m.mem (bp - 96) = 0) (hleft : 2 ^ 31 ≤ q - p + 1) (hright : 2 ^ 31 ≤ t - q) :
    ∃ m', Runs code layout [.rbp] (m, .at .L8) (m', .at .L19_exit) ∧
      Keeps (fun a => a < bp - 104 ∨ bp - 92 ≤ a) m.mem m'.mem := by
  obtain ⟨m1, hrun1, hmem1⟩ := loop_skip layout (.inl (show code .L8 = _ from rfl)) hframe.rbp hlo
    hhi (by omega) (by omega) hi hframe.count_left hleft
  have hframe1 := hframe.keep hlo hrun1 (by rw [hmem1]; exact Keeps.refl _ _)
  have hrun2 := Runs.jmp layout (m := m1) (show code .L8_exit = ⟨clear 100, .jmp .L10⟩ from rfl)
    (show ∀ op ∈ clear 100, op.keeps [.rbp] by decide)
  have hmem2 : (execs m1 (clear 100)).mem = store 4 m1.mem (bp - 100) 0 :=
    exec_clear hframe1.rbp hhi (by omega)
  generalize execs m1 (clear 100) = m2 at hrun2 hmem2
  have hkeeps2 : Keeps (fun a => a < bp - 104 ∨ bp - 92 ≤ a) m.mem m2.mem := by
    rw [hmem2, hmem1]
    exact store_keeps fun a ha => by omega
  have hframe2 := hframe.keep hlo (hrun1.trans hrun2)
    (hkeeps2.mono fun a ha => by unfold Fixed at ha; omega)
  obtain ⟨m3, hrun3, hmem3⟩ := loop_skip layout (.inl (show code .L10 = _ from rfl)) hframe2.rbp
    hlo hhi (by omega) (by omega) (by rw [hmem2, load_store (by omega)]) hframe2.count_right hright
  have hframe3 := hframe2.keep hlo hrun3 (by rw [hmem3]; exact Keeps.refl _ _)
  have hrun4 := Runs.jmp layout (m := m3) (show code .L10_exit = ⟨startMerge, .jmp .L12⟩ from rfl)
    (show ∀ op ∈ startMerge, op.keeps [.rbp] by decide)
  have hmem4 := exec_startMerge hframe3.rbp hlo hhi hframe3.start
  generalize execs m3 startMerge = m4 at hrun4 hmem4
  have hkeeps4 : Keeps (fun a => a < bp - 104 ∨ bp - 92 ≤ a) m2.mem m4.mem := by
    rw [hmem4, hmem3]
    exact ((store_keeps fun a ha => by omega).store fun a ha => by omega).store fun a ha => by omega
  have hframe4 := hframe2.keep hlo (hrun3.trans hrun4)
    (hkeeps4.mono fun a ha => by unfold Fixed at ha; omega)
  have hi4 : load 4 m4.mem (bp - 96) = 0 := by
    rw [hmem4, load_store_of_apart (by omega), load_store_of_apart (by omega),
      load_store (by omega)]
  have hj4 : load 4 m4.mem (bp - 100) = 0 := by
    rw [hmem4, load_store_of_apart (by omega), load_store (by omega)]
  obtain ⟨m5, hrun5, hmem5⟩ := loop_skip layout (.inr code_L12) hframe4.rbp hlo hhi (by omega)
    (by omega) hi4 hframe4.count_left hleft
  have hframe5 := hframe4.keep hlo hrun5 (by rw [hmem5]; exact Keeps.refl _ _)
  obtain ⟨m6, hrun6, hmem6⟩ := loop_skip layout (.inl (show code .L17 = _ from rfl)) hframe5.rbp
    hlo hhi (by omega) (by omega) (by rw [hmem5, hi4]) hframe5.count_left hleft
  have hexit : Runs code layout [.rbp] (m6, .at .L17_exit) (m6, .at .L19) :=
    Runs.jmp layout rfl (List.forall_mem_nil _)
  have hframe6 := hframe5.keep hlo hrun6 (by rw [hmem6]; exact Keeps.refl _ _)
  obtain ⟨m7, hrun7, hmem7⟩ := loop_skip layout (.inl (show code .L19 = _ from rfl)) hframe6.rbp
    hlo hhi (by omega) (by omega) (by rw [hmem6, hmem5, hj4]) hframe6.count_right hright
  refine ⟨m7, ?_, ?_⟩
  · exact ((((hrun1.trans hrun2).trans (hrun3.trans hrun4)).trans hrun5).trans
      (hrun6.trans hexit)).trans hrun7
  · rw [hmem7, hmem6, hmem5]
    exact hkeeps2.trans hkeeps4

/-- Where `p + r` is no `int`, a call of `merge__` changes nothing but its frame. The local arrays
are nearly `2 ^ 64` bytes long, and their pages are touched all around the memory. -/
theorem merge_call_overflow (hsp : m.reg .rsp = s) (hlo : 152 ≤ s) (htop : s + 8 < 2 ^ 64)
    (hdi : m.reg .rdi = p) (hsi : m.reg .rsi = r) (hcx : m.reg .rcx = out) (hle : p ≤ r)
    (hr : r < 2 ^ 31) (hsum : 2 ^ 31 ≤ p + r) :
    ∃ m', Runs code layout [] (m, .at .merge__) (m', layout.resolve (load 8 m.mem s)) ∧
      m'.reg .rsp = s + 8 ∧ m'.reg .rbp = m.reg .rbp ∧
      Keeps (fun a => a < s - 152 ∨ s ≤ a) m.mem m'.mem := by
  have hq : 2 ^ 31 + (p + r + 1) / 2 = middle p r := (if_neg (by omega)).symm
  obtain ⟨m1, hrun1, hframe1, hcounter1, hsaved1, hkeeps1⟩ :=
    merge_enter layout (t := 2 ^ 32 + r) hsp hlo hdi hsi hcx hle hr hq (by omega) (by omega)
      (by omega) (by omega) (by omega)
  obtain ⟨m2, hrun2, hkeeps2⟩ :=
    merge_skip layout hframe1 (by omega) (by omega) hcounter1 (by omega) (by omega)
  have hframe2 := hframe1.keep (by omega) hrun2 (hkeeps2.mono fun a ha => by
    unfold Fixed at ha
    omega)
  have hkeeps : Keeps (fun a => a < s - 152 ∨ s ≤ a) m.mem m2.mem :=
    hkeeps1.trans (hkeeps2.mono fun a ha => by omega)
  have hsaved2 : load 8 m2.mem (s - 8) = m.reg .rbp := by
    rw [hkeeps2.load fun a _ _ => by omega, hsaved1]
  obtain ⟨m3, hrun3, hsp3, hbp3, hmem3⟩ := merge_leave layout hframe2 hlo htop
    (hkeeps.load fun a _ _ => by omega) hsaved2
  refine ⟨m3, (hrun1.trans (hrun2.mono (List.forall_mem_nil _))).trans hrun3, hsp3, hbp3, ?_⟩
  rw [hmem3]
  exact hkeeps

end
end Acos.AsmMergesort
