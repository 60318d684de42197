import Acos.AsmMergesort.IntMergeSort
import Acos.AsmMergesort.MergeCall
import Mathlib.Data.Nat.Log

/-! A call of `mergesort` does what `IntMergeSort` does, and gives the stack and the registers
back. -/
namespace Acos.AsmMergesort
open Acos.MachineInt Acos.WordMemory Acos.X86

section Blocks
variable {m : Machine} {s p r q inp out : ℕ}

/-- The arguments are saved. -/
theorem exec_mergesort (hsp : m.reg .rsp = s) (hlo : 40 ≤ s) :
    (execs m mergesort).reg .rbp = s - 8 ∧ (execs m mergesort).reg .rsp = s - 40 ∧
      (execs m mergesort).flags = some (X86.compare .qword (m.reg .rdi) (m.reg .rsi)) ∧
      (execs m mergesort).mem = store 8 (store 8 (store 8 (store 8 (store 8 m.mem (s - 8)
        (m.reg .rbp)) (s - 16) (m.reg .rdi)) (s - 24) (m.reg .rsi)) (s - 32) (m.reg .rcx)) (s - 40)
        (m.reg .rdx) := by
  have hhi := hsp ▸ m.reg_lt .rsp
  simp (disch := omega) [mergesort, hsp, Nat.mod_eq_of_lt, minus_qword, Nat.sub_sub]

theorem exec_mergesort_one (hdi : m.reg .rdi = p) (hdx : m.reg .rdx = inp) (hcx : m.reg .rcx = out)
    (hin : inp + 4 * p + 4 ≤ 2 ^ 64) (hout : out + 4 * p + 4 ≤ 2 ^ 64) :
    (execs m mergesort_one).mem = store 4 m.mem (out + 4 * p) (load 4 m.mem (inp + 4 * p)) := by
  have hv := load_lt 4 m.mem (inp + 4 * p)
  simp (disch := omega) [mergesort_one, hdi, hdx, hcx, address_scaled, Nat.mod_eq_of_lt]

theorem exec_split_recursive (hdi : m.reg .rdi = p) (hsi : m.reg .rsi = r) (hsum : p + r < 2 ^ 64) :
    (execs m split_recursive).reg .rsi = (p + r) / 2 := by
  simp (disch := omega) [split_recursive, hdi, hsi, Nat.mod_eq_of_lt, Nat.add_comm]

theorem exec_split_right (hbp : m.reg .rbp = s - 8) (hlo : 40 ≤ s) (hhi : s < 2 ^ 64)
    (hsi : m.reg .rsi = q) (hq : q + 1 < 2 ^ 64) (hsaved : load 8 m.mem (s - 24) = r) :
    (execs m split_right).reg .rdi = q + 1 ∧ (execs m split_right).reg .rsi = r := by
  have hv := load_lt 8 m.mem (s - 24)
  simp (disch := omega) [split_right, hsi, hbp, below_eq, Nat.mod_eq_of_lt, Nat.sub_sub, hsaved]

theorem exec_split_merge (hbp : m.reg .rbp = s - 8) (hlo : 40 ≤ s) (hhi : s < 2 ^ 64)
    (hsaved : load 8 m.mem (s - 16) = p) : (execs m split_merge).reg .rdi = p := by
  have hv := load_lt 8 m.mem (s - 16)
  simp (disch := omega) [split_merge, hbp, below_eq, Nat.mod_eq_of_lt, Nat.sub_sub, hsaved]

theorem exec_exit_merge (hbp : m.reg .rbp = s - 8) (hsp : m.reg .rsp = s - 40) (hlo : 40 ≤ s)
    (hhi : s < 2 ^ 64) :
    (execs m exit_merge).reg .rsp = s ∧ (execs m exit_merge).reg .rbp = load 8 m.mem (s - 8) ∧
      (execs m exit_merge).reg .rdi = load 8 m.mem (s - 16) ∧
      (execs m exit_merge).reg .rsi = load 8 m.mem (s - 24) ∧
      (execs m exit_merge).reg .rcx = load 8 m.mem (s - 32) ∧
      (execs m exit_merge).reg .rdx = load 8 m.mem (s - 40) := by
  have hv (a : ℕ) : load 8 m.mem a % 18446744073709551616 = load 8 m.mem a :=
    Nat.mod_eq_of_lt (load_lt 8 m.mem a)
  have h32 : s - 40 + 8 = s - 32 := by omega
  have h24 : s - 32 + 8 = s - 24 := by omega
  have h16 : s - 24 + 8 = s - 16 := by omega
  have h8 : s - 8 + 8 = s := by omega
  simp (disch := omega) [exit_merge, hbp, hsp, Nat.mod_eq_of_lt, hv, h32, h24, h16, h8]

end Blocks

/-- The frame of a call, with `m₀` as the machine that it was called on. -/
structure Suspended (s : ℕ) (m₀ m : Machine) : Prop where
  rbp : m.reg .rbp = s - 8
  rsp : m.reg .rsp = s - 40
  saved_rbp : load 8 m.mem (s - 8) = m₀.reg .rbp
  saved_rdi : load 8 m.mem (s - 16) = m₀.reg .rdi
  saved_rsi : load 8 m.mem (s - 24) = m₀.reg .rsi
  saved_rcx : load 8 m.mem (s - 32) = m₀.reg .rcx
  saved_rdx : load 8 m.mem (s - 40) = m₀.reg .rdx
  back : load 8 m.mem s = load 8 m₀.mem s

/-- The registers that a call leaves as they were. -/
def restored : List Reg := [.rbp, .rdi, .rsi, .rcx, .rdx]

section
variable (layout : Layout Label) {s p q r inp out : ℕ} {m₀ m m' : Machine}

theorem Suspended.keep (h : Suspended s m₀ m) (hlo : 40 ≤ s) (hrbp : m'.reg .rbp = s - 8)
    (hrsp : m'.reg .rsp = s - 40) (hmem : Keeps (fun a => s - 40 ≤ a ∧ a < s + 8) m.mem m'.mem) :
    Suspended s m₀ m' := by
  have hload {d : ℕ} (hd : d ≤ 40) : load 8 m'.mem (s - d) = load 8 m.mem (s - d) :=
    hmem.load fun a _ _ => by omega
  refine ⟨hrbp, hrsp, ?_, ?_, ?_, ?_, ?_, ?_⟩
  · rw [hload (by omega), h.saved_rbp]
  · rw [hload (by omega), h.saved_rdi]
  · rw [hload (by omega), h.saved_rsi]
  · rw [hload (by omega), h.saved_rcx]
  · rw [hload (by omega), h.saved_rdx]
  · rw [hmem.load fun a _ _ => by omega, h.back]

/-- The call comes to its end. -/
theorem Suspended.exit (h : Suspended s m₀ m) (hlo : 40 ≤ s) (hhi : s + 8 < 2 ^ 64)
    (hfs : m.fs = m₀.fs) :
    ∃ m', Steps code layout (m, .at .exit_merge) (m', layout.resolve (load 8 m₀.mem s)) ∧
      (∀ reg ∈ restored, m'.reg reg = m₀.reg reg) ∧ m'.reg .rsp = s + 8 ∧ m'.fs = m₀.fs ∧
      m'.mem = m.mem := by
  obtain ⟨hsp, hbp, hdi, hsi, hcx, hdx⟩ := exec_exit_merge h.rbp h.rsp hlo (by omega)
  have hmem : (execs m exit_merge).mem = m.mem := execs_mem (by decide)
  have hret : Steps code layout (m, .at .exit_merge)
      ((execs m exit_merge).drop, layout.resolve (execs m exit_merge).top) :=
    Steps.ret rfl (sound_of_plain (by decide))
  have hfs' := execs_fs m exit_merge
  generalize execs m exit_merge = m1 at *
  rw [Machine.top, hsp, hmem, h.back] at hret
  refine ⟨_, hret, ?_, ?_, hfs'.trans hfs, hmem⟩
  · intro reg hreg
    rw [Machine.drop, Machine.set_reg_of_ne _ _ _ _ (by rintro rfl; exact absurd hreg (by decide))]
    simp only [restored, List.mem_cons, List.not_mem_nil, or_false] at hreg
    rcases hreg with rfl | rfl | rfl | rfl | rfl
    · exact hbp.trans h.saved_rbp
    · exact hdi.trans h.saved_rdi
    · exact hsi.trans h.saved_rsi
    · exact hcx.trans h.saved_rcx
    · exact hdx.trans h.saved_rdx
  · rw [Machine.drop, Machine.set_reg, if_pos rfl, hsp]
    omega

/-- The start of a call. -/
theorem enter_call (hsp : m.reg .rsp = s) (hlo : 40 ≤ s) :
    Suspended s m (execs m mergesort) ∧
      Keeps (fun a => a < s - 40 ∨ s ≤ a) m.mem (execs m mergesort).mem := by
  obtain ⟨hbp, hsp', _, hmem⟩ := exec_mergesort hsp hlo
  have hreg (reg : Reg) : m.reg reg < 256 ^ 8 := m.reg_lt reg
  constructor
  · refine ⟨hbp, hsp', ?_, ?_, ?_, ?_, ?_, ?_⟩ <;>
      simp (disch := first | exact hreg _ | omega) only [hmem, load_store_of_apart, load_store]
  · rw [hmem]
    repeat refine Keeps.store ?_ fun a ha => by omega
    exact Keeps.refl _ _

/-- The stack that a call with `n` elements may use. -/
def stackRoom (n : ℕ) : ℕ := 4 * n + 48 * Nat.clog 2 n + 224

theorem stackRoom_half {n k : ℕ} (hn : 2 ≤ n) (hk : k ≤ (n + 1) / 2) :
    stackRoom k + 48 ≤ stackRoom n := by
  have hclog : Nat.clog 2 n = Nat.clog 2 ((n + 1) / 2) + 1 := Nat.clog_of_two_le (by decide) hn
  have hmono : Nat.clog 2 k ≤ Nat.clog 2 ((n + 1) / 2) := Nat.clog_mono_right 2 hk
  unfold stackRoom
  omega

/-- A call has room on the stack, and its arrays are outside of it and apart. -/
structure Callable (s p r inp out : ℕ) : Prop where
  room : stackRoom (r + 1 - p) ≤ s
  top : s + 8 < 2 ^ 64
  in_bound : inp + 4 * (r + 1) ≤ 2 ^ 64
  out_bound : out + 4 * (r + 1) ≤ 2 ^ 64
  in_stack : inp + 4 * (r + 1) ≤ s - stackRoom (r + 1 - p) ∨ s + 8 ≤ inp + 4 * p
  out_stack : out + 4 * (r + 1) ≤ s - stackRoom (r + 1 - p) ∨ s + 8 ≤ out + 4 * p
  apart : inp + 4 * (r + 1) ≤ out + 4 * p ∨ out + 4 * (r + 1) ≤ inp + 4 * p

theorem Callable.left (h : Callable s p r inp out) (hlt : p < r) (hq : q = (p + r) / 2) :
    Callable (s - 48) p q inp out := by
  obtain ⟨hroom, htop, hin, hout, hinstack, houtstack, hapart⟩ := h
  have hhalf : stackRoom (q + 1 - p) + 48 ≤ stackRoom (r + 1 - p) :=
    stackRoom_half (by omega) (by omega)
  exact ⟨by omega, by omega, by omega, by omega, by omega, by omega, by omega⟩

theorem Callable.right (h : Callable s p r inp out) (hlt : p < r) (hq : q = (p + r) / 2) :
    Callable (s - 48) (q + 1) r inp out := by
  obtain ⟨hroom, htop, hin, hout, hinstack, houtstack, hapart⟩ := h
  have hhalf : stackRoom (r + 1 - (q + 1)) + 48 ≤ stackRoom (r + 1 - p) :=
    stackRoom_half (by omega) (by omega)
  exact ⟨by omega, by omega, by omega, by omega, by omega, by omega, by omega⟩

/-- What a call may change: its stack and its segment of `out`. -/
def Changeable (s p r out a : ℕ) : Prop :=
  s - stackRoom (r + 1 - p) ≤ a ∧ a < s ∨ out + 4 * p ≤ a ∧ a < out + 4 * (r + 1)

/-- A call has come back, and `out` shows the array `B`. -/
structure Returned (layout : Layout Label) (s p r out : ℕ) (B : ℕ → ℤ) (m m' : Machine) : Prop where
  steps : Steps code layout (m, .at .mergesort) (m', layout.resolve (load 8 m.mem s))
  regs : ∀ reg ∈ restored, m'.reg reg = m.reg reg
  rsp : m'.reg .rsp = s + 8
  fs : m'.fs = m.fs
  keeps : Keeps (fun a => ¬ Changeable s p r out a) m.mem m'.mem
  shows_out : Shows m'.mem out p (r + 1) B

theorem compare_qword (hp : p < 2 ^ 63) (hr : r < 2 ^ 63) :
    X86.compare .qword p r = ⟨p == r, decide (p < r)⟩ := by
  have hless : i64 p < i64 r ↔ p < r := by
    rw [i64_of_range (by omega) (by omega), i64_of_range (by omega) (by omega)]
    exact Nat.cast_lt
  simp only [X86.compare, Width.signed, hless]

/-- The arguments are saved and compared. -/
theorem call_head (hsp : m.reg .rsp = s) (hlo : 40 ≤ s) (hdi : m.reg .rdi = p)
    (hsi : m.reg .rsi = r) (hle : p ≤ r) (hr : r < 2 ^ 63) :
    ∃ m', Runs code layout [.rdi, .rsi, .rdx, .rcx] (m, .at .mergesort)
        (m', .at (if p < r then .split_recursive else .mergesort_one)) ∧
      Suspended s m m' ∧ Keeps (fun a => a < s - 40 ∨ s ≤ a) m.mem m'.mem := by
  obtain ⟨hsuspended, hkeeps⟩ := enter_call hsp hlo
  obtain ⟨_, _, hflags, _⟩ := exec_mergesort hsp hlo
  rw [hdi, hsi, compare_qword (by omega) hr] at hflags
  have hrun1 := Runs.jcc layout
    (show code .mergesort = ⟨mergesort, .jcc .l .split_recursive .mergesort_jg⟩ from rfl)
    (show ∀ op ∈ mergesort, op.keeps [.rdi, .rsi, .rdx, .rcx] by decide) hflags
  generalize execs m mergesort = m1 at *
  refine ⟨m1, ?_, hsuspended, hkeeps⟩
  by_cases hlt : p < r
  · rw [if_pos hlt]
    rwa [Cond.holds, if_pos (by simpa using hlt)] at hrun1
  · have hflags' : (execs m1 []).flags = some ⟨p == r, decide (p < r)⟩ := hflags
    have hrun2 := Runs.jcc layout
      (show code .mergesort_jg = ⟨[], .jcc .g .exit_merge .mergesort_one⟩ from rfl)
      (List.forall_mem_nil (Op.keeps [.rdi, .rsi, .rdx, .rcx] · = true)) hflags'
    rw [Cond.holds, if_neg (by simpa using hlt)] at hrun1
    rw [Cond.holds, if_neg (by simp; omega)] at hrun2
    rw [if_neg hlt]
    exact hrun1.trans hrun2

/-- Every call for the segment makes `B` in `out` of `A` in `inp`. -/
def Sorts (p r inp out : ℕ) (A B : ℕ → ℤ) : Prop :=
  ∀ s m, Callable s p r inp out → m.reg .rsp = s → m.reg .rdi = p → m.reg .rsi = r →
    m.reg .rdx = inp → m.reg .rcx = out → Shows m.mem inp p (r + 1) A →
    ∃ m', Returned layout s p r out B m m'

/-- A segment of one element is copied. -/
theorem sorts_single (hlt : p < 2 ^ 31) (A : ℕ → ℤ) : Sorts layout p p inp out A A := by
  intro s m h hsp hdi hsi hdx hcx hA
  obtain ⟨hroom, htop, hin, hout, hinstack, houtstack, hapart⟩ := h
  have hstack : 228 ≤ stackRoom (p + 1 - p) := by
    unfold stackRoom
    omega
  obtain ⟨m1, hrun1, hsuspended, hkeeps1⟩ :=
    call_head layout hsp (by omega) hdi hsi le_rfl (by omega)
  rw [if_neg (lt_irrefl p)] at hrun1
  have hmem2 := exec_mergesort_one ((hrun1.reg .rdi (by decide)).trans hdi)
    ((hrun1.reg .rdx (by decide)).trans hdx) ((hrun1.reg .rcx (by decide)).trans hcx) (by omega)
    (by omega)
  have hrun2 := Runs.jmp layout (m := m1)
    (show code .mergesort_one = ⟨mergesort_one, .jmp .exit_merge⟩ from rfl)
    (show ∀ op ∈ mergesort_one, op.keeps [.rbp, .rsp] by decide)
  generalize execs m1 mergesort_one = m2 at *
  have hkeeps2 : Keeps (fun a => a < out + 4 * p ∨ out + 4 * p + 4 ≤ a) m1.mem m2.mem := by
    rw [hmem2]
    exact store_keeps fun a ha => ha
  obtain ⟨m', hexit, hregs, hrsp, hfs, hmem⟩ :=
    (hsuspended.keep (by omega) ((hrun2.reg .rbp (by decide)).trans hsuspended.rbp)
      ((hrun2.reg .rsp (by decide)).trans hsuspended.rsp)
      (hkeeps2.mono fun a ha => by omega)).exit layout (by omega) htop (hrun2.fs.trans hrun1.fs)
  refine ⟨m', (hrun1.steps.trans hrun2.steps).trans hexit, hregs, hrsp, hfs, ?_, ?_⟩
  · rw [hmem]
    refine (hkeeps1.mono fun a ha => ?_).trans (hkeeps2.mono fun a ha => ?_)
    · unfold Changeable at ha
      omega
    · unfold Changeable at ha
      omega
  · intro x hx hx'
    obtain rfl : x = p := by omega
    rw [hmem, hmem2, load_store (load_lt 4 _ _)]
    rw [hkeeps1.load fun a _ _ => by omega]
    exact hA x hx hx'

/-- A suspended call goes on to the call at the end of a block. -/
theorem call_block {l target back : Label} {ops : List Op}
    (hcode : code l = ⟨ops, .call target back⟩)
    (hops : ∀ op ∈ ops, op.keeps [.rbp, .rsp, .rdx, .rcx])
    (hstores : ∀ op ∈ ops, op.stores = false) (h : Suspended s m₀ m) (hlo : 48 ≤ s)
    (hhi : s < 2 ^ 64) :
    ∃ m', Steps code layout (m, .at l) (m', .at target) ∧ m'.reg .rsp = s - 48 ∧
      (∀ reg ≠ .rsp, m'.reg reg = (execs m ops).reg reg) ∧ m'.fs = m.fs ∧
      layout.resolve (load 8 m'.mem (s - 48)) = .at back ∧
      Keeps (fun a => a < s - 48 ∨ s - 40 ≤ a) m.mem m'.mem := by
  have hsp : (execs m ops).reg .rsp = s - 40 :=
    (execs_reg_of_keeps _ hops (by decide)).trans h.rsp
  have hpush : minus .qword (s - 40) 8 = s - 48 := minus_qword (by omega) (by omega)
  have hplace := layout.place_lt back
  have hmem : ((execs m ops).push (layout.place back)).mem =
      store 8 m.mem (s - 48) (layout.place back) := by
    simp only [Machine.push, Machine.setMem_mem, hsp, hpush, execs_mem hstores]
  refine ⟨_, Steps.call hcode (sound_of_keeps hops), ?_, fun reg hreg => ?_, execs_fs m ops, ?_, ?_⟩
  · simp only [Machine.push, Machine.setMem_reg, Machine.set_reg, if_true, hsp, hpush]
    omega
  · exact Machine.set_reg_of_ne _ _ _ _ hreg
  · rw [hmem, load_store hplace, layout.resolve_place]
  · rw [hmem]
    exact store_keeps fun a ha => by omega

/-- A call that has not come to its end yet. -/
structure Inside (s p r inp out : ℕ) (m₀ m : Machine) : Prop extends Suspended s m₀ m where
  rdx : m.reg .rdx = inp
  rcx : m.reg .rcx = out
  fs : m.fs = m₀.fs
  keeps : Keeps (fun a => ¬ Changeable s p r out a) m₀.mem m.mem

/-- A recursive call. -/
theorem Inside.recurse {l back : Label} {ops : List Op} {lo hi : ℕ} {A B : ℕ → ℤ}
    (h : Inside s p r inp out m₀ m) (hcall : Callable s p r inp out)
    (hcode : code l = ⟨ops, .call .mergesort back⟩)
    (hops : ∀ op ∈ ops, op.keeps [.rbp, .rsp, .rdx, .rcx]) (hstores : ∀ op ∈ ops, op.stores = false)
    (hsub : Callable (s - 48) lo hi inp out) (hlo : p ≤ lo) (hle : lo ≤ hi) (hhi : hi ≤ r)
    (hroom : stackRoom (hi + 1 - lo) + 48 ≤ stackRoom (r + 1 - p))
    (hdi : (execs m ops).reg .rdi = lo) (hsi : (execs m ops).reg .rsi = hi)
    (hsorts : Sorts layout lo hi inp out A B) (hA : Shows m.mem inp lo (hi + 1) A) :
    ∃ m', Steps code layout (m, .at l) (m', .at back) ∧ Inside s p r inp out m₀ m' ∧
      m'.reg .rdi = lo ∧ m'.reg .rsi = hi ∧ Shows m'.mem out lo (hi + 1) B ∧
      Keeps (fun a => ¬(s - stackRoom (r + 1 - p) ≤ a ∧ a < s - 40) ∧
        ¬(out + 4 * lo ≤ a ∧ a < out + 4 * (hi + 1))) m.mem m'.mem := by
  obtain ⟨hstack, htop, hin, hout, hinstack, houtstack, hapart⟩ := hcall
  have hkept (reg : Reg) (hreg : reg ∈ [Reg.rbp, .rsp, .rdx, .rcx]) :
      (execs m ops).reg reg = m.reg reg := execs_reg_of_keeps _ hops hreg
  have hdeep : 228 ≤ stackRoom (r + 1 - p) := by
    unfold stackRoom
    omega
  obtain ⟨m1, hrun1, hsp1, hregs1, hfs1, hback1, hkeeps1⟩ :=
    call_block layout hcode hops hstores h.toSuspended (by omega) (by omega)
  rw [← hregs1 .rdi (by decide)] at hdi
  rw [← hregs1 .rsi (by decide)] at hsi
  have hdx1 : m1.reg .rdx = inp := by rw [hregs1 .rdx (by decide), hkept .rdx (by decide), h.rdx]
  have hcx1 : m1.reg .rcx = out := by rw [hregs1 .rcx (by decide), hkept .rcx (by decide), h.rcx]
  have hbp1 : m1.reg .rbp = s - 8 := by
    rw [hregs1 .rbp (by decide), hkept .rbp (by decide), h.rbp]
  obtain ⟨m2, hsteps2, hregs2, hsp2, hfs2, hkeeps2, hB⟩ := hsorts (s - 48) m1 hsub hsp1 hdi hsi hdx1
    hcx1 (hA.keep hkeeps1 fun a _ _ => by omega)
  rw [hback1] at hsteps2
  have hkeeps : Keeps (fun a => ¬(s - stackRoom (r + 1 - p) ≤ a ∧ a < s - 40) ∧
      ¬(out + 4 * lo ≤ a ∧ a < out + 4 * (hi + 1))) m.mem m2.mem := by
    refine (hkeeps1.mono fun a ha => by omega).trans (hkeeps2.mono fun a ha => ?_)
    unfold Changeable
    omega
  refine ⟨m2, hrun1.trans hsteps2, ⟨?_, ?_, ?_, ?_, ?_⟩, ?_, ?_, hB, hkeeps⟩
  · exact h.toSuspended.keep (by omega) ((hregs2 .rbp (by decide)).trans hbp1) (by omega)
      (hkeeps.mono fun a ha => by omega)
  · exact (hregs2 .rdx (by decide)).trans hdx1
  · exact (hregs2 .rcx (by decide)).trans hcx1
  · exact hfs2.trans (hfs1.trans h.fs)
  · refine h.keeps.trans (hkeeps.mono fun a ha => ?_)
    unfold Changeable at ha
    omega
  · exact (hregs2 .rdi (by decide)).trans hdi
  · exact (hregs2 .rsi (by decide)).trans hsi

/-- The call of `merge__`. -/
theorem Inside.call_merge {C : ℕ → ℤ} (h : Inside s p r inp out m₀ m)
    (hcall : Callable s p r inp out) (hdi₀ : m₀.reg .rdi = p) (hlt : p < r) (hr : r < 2 ^ 31)
    (hq : q = (p + r) / 2) (hsi : m.reg .rsi = r) (hC : Shows m.mem out p (r + 1) C) :
    ∃ m', Steps code layout (m, .at .split_merge) (m', .at .exit_merge) ∧
      m'.reg .rbp = s - 8 ∧ m'.reg .rsp = s - 40 ∧ m'.fs = m.fs ∧
      Keeps (fun a => ¬(s - stackRoom (r + 1 - p) ≤ a ∧ a < s - 40) ∧
        ¬(out + 4 * p ≤ a ∧ a < out + 4 * (r + 1))) m.mem m'.mem ∧
      Shows m'.mem out p (r + 1) (if p + r < 2 ^ 31 then Merge C p q r else C) := by
  obtain ⟨hstack, htop, hin, hout, hinstack, houtstack, hapart⟩ := hcall
  have hdeep : 4 * (r + 1 - p) + 224 ≤ stackRoom (r + 1 - p) := by
    unfold stackRoom
    omega
  obtain ⟨m1, hrun1, hsp1, hregs1, hfs1, hback1, hkeeps1⟩ := call_block layout
    (show code .split_merge = ⟨split_merge, .call .merge__ .exit_merge⟩ from rfl) (by decide)
    (by decide) h.toSuspended (by omega) (by omega)
  have hkept (reg : Reg) (hreg : reg ∈ [Reg.rbp, .rsi, .rcx]) :
      m1.reg reg = m.reg reg := by
    rw [hregs1 reg (by rintro rfl; exact absurd hreg (by decide))]
    exact execs_reg_of_keeps [.rbp, .rsi, .rcx] (by decide) hreg
  have hdi1 : m1.reg .rdi = p := by
    rw [hregs1 .rdi (by decide)]
    exact exec_split_merge h.rbp (by omega) (by omega) (h.saved_rdi.trans hdi₀)
  have hsi1 := (hkept .rsi (by decide)).trans hsi
  have hcx1 := (hkept .rcx (by decide)).trans h.rcx
  have hbp1 := (hkept .rbp (by decide)).trans h.rbp
  have hC1 : Shows m1.mem out p (r + 1) C := hC.keep hkeeps1 fun a _ _ => by omega
  by_cases hsum : p + r < 2 ^ 31
  · obtain ⟨m2, hrun2, hsp2, hbp2, hkeeps2, hmerged⟩ := merge_call layout hsp1 (by omega) (by omega)
      hdi1 hsi1 hcx1 hlt hsum hout (by omega) hC1
    rw [hback1] at hrun2
    rw [if_pos hsum, hq]
    exact ⟨m2, hrun1.trans hrun2.steps, hbp2.trans hbp1, by omega, hrun2.fs.trans hfs1,
      (hkeeps1.mono fun a ha => by omega).trans (hkeeps2.mono fun a ha => by omega), hmerged⟩
  · obtain ⟨m2, hrun2, hsp2, hbp2, hkeeps2⟩ := merge_call_overflow layout hsp1 (by omega) (by omega)
      hdi1 hsi1 hcx1 hlt.le hr (by omega)
    rw [hback1] at hrun2
    rw [if_neg hsum]
    exact ⟨m2, hrun1.trans hrun2.steps, hbp2.trans hbp1, by omega, hrun2.fs.trans hfs1,
      (hkeeps1.mono fun a ha => by omega).trans (hkeeps2.mono fun a ha => by omega),
      hC1.keep hkeeps2 fun a _ _ => by omega⟩

/-- Both halves are merged, and the call comes to its end. -/
theorem Inside.merge {C : ℕ → ℤ} (h : Inside s p r inp out m₀ m) (hcall : Callable s p r inp out)
    (hdi₀ : m₀.reg .rdi = p) (hlt : p < r) (hr : r < 2 ^ 31) (hq : q = (p + r) / 2)
    (hsi : m.reg .rsi = r) (hC : Shows m.mem out p (r + 1) C) :
    ∃ m', Steps code layout (m, .at .split_merge) (m', layout.resolve (load 8 m₀.mem s)) ∧
      (∀ reg ∈ restored, m'.reg reg = m₀.reg reg) ∧ m'.reg .rsp = s + 8 ∧ m'.fs = m₀.fs ∧
      Keeps (fun a => ¬ Changeable s p r out a) m₀.mem m'.mem ∧
      Shows m'.mem out p (r + 1) (if p + r < 2 ^ 31 then Merge C p q r else C) := by
  obtain ⟨m1, hrun1, hbp1, hsp1, hfs1, hkeeps1, hmerged⟩ :=
    h.call_merge layout hcall hdi₀ hlt hr hq hsi hC
  obtain ⟨hstack, htop, hin, hout, hinstack, houtstack, hapart⟩ := hcall
  have hdeep : 4 * (r + 1 - p) + 224 ≤ stackRoom (r + 1 - p) := by
    unfold stackRoom
    omega
  obtain ⟨m2, hexit, hregs2, hsp2, hfs2, hmem2⟩ :=
    (h.toSuspended.keep (by omega) hbp1 hsp1 (hkeeps1.mono fun a ha => by omega)).exit layout
      (by omega) htop (hfs1.trans h.fs)
  refine ⟨m2, hrun1.trans hexit, hregs2, hsp2, hfs2, ?_, ?_⟩
  · rw [hmem2]
    refine h.keeps.trans (hkeeps1.mono fun a ha => ?_)
    unfold Changeable at ha
    omega
  · rw [hmem2]
    exact hmerged

theorem sorts_split {A B C : ℕ → ℤ} (hlt : p < r) (hr : r < 2 ^ 31) (hq : q = (p + r) / 2)
    (hleft : Sorts layout p q inp out A B) (hright : Sorts layout (q + 1) r inp out B C)
    (hB : ∀ x, q < x → B x = A x) (hC : ∀ x, x < q + 1 → C x = B x) :
    Sorts layout p r inp out A (if p + r < 2 ^ 31 then Merge C p q r else C) := by
  intro s m h hsp hdi hsi hdx hcx hA
  have hhalfleft : stackRoom (q + 1 - p) + 48 ≤ stackRoom (r + 1 - p) :=
    stackRoom_half (by omega) (by omega)
  have hhalfright : stackRoom (r + 1 - (q + 1)) + 48 ≤ stackRoom (r + 1 - p) :=
    stackRoom_half (by omega) (by omega)
  have hdeep : 228 ≤ stackRoom (r + 1 - p) := by
    unfold stackRoom
    omega
  obtain ⟨hroom, htop, hin, hout, hinstack, houtstack, hapart⟩ := id h
  obtain ⟨m1, hrun1, hsuspended1, hkeeps1⟩ :=
    call_head layout hsp (by omega) hdi hsi hlt.le (by omega)
  rw [if_pos hlt] at hrun1
  have hinside1 : Inside s p r inp out m m1 := by
    refine ⟨hsuspended1, (hrun1.reg .rdx (by decide)).trans hdx,
      (hrun1.reg .rcx (by decide)).trans hcx, hrun1.fs, hkeeps1.mono fun a ha => ?_⟩
    unfold Changeable at ha
    omega
  -- the left half
  have hdi1 : (execs m1 split_recursive).reg .rdi = p :=
    (execs_reg_of_keeps [.rdi] (by decide) (by decide)).trans
      ((hrun1.reg .rdi (by decide)).trans hdi)
  have hsi1 : (execs m1 split_recursive).reg .rsi = q := by
    rw [hq]
    exact exec_split_recursive ((hrun1.reg .rdi (by decide)).trans hdi)
      ((hrun1.reg .rsi (by decide)).trans hsi) (by omega)
  obtain ⟨m2, hrun2, hinside2, hdi2, hsi2, hB2, hkeeps2⟩ := hinside1.recurse layout h
    (show code .split_recursive = ⟨split_recursive, .call .mergesort .split_right⟩ from rfl)
    (by decide) (by decide) (h.left hlt hq) le_rfl (by omega) (by omega) hhalfleft hdi1 hsi1 hleft
    fun x hx hx' => by rw [hkeeps1.load fun a _ _ => by omega, hA x hx (by omega)]
  -- the right half
  obtain ⟨hdi3, hsi3⟩ := exec_split_right hinside2.rbp (by omega) (by omega) hsi2 (by omega)
    (hinside2.saved_rsi.trans hsi)
  obtain ⟨m3, hrun3, hinside3, hdi4, hsi4, hC3, hkeeps3⟩ := hinside2.recurse layout h
    (show code .split_right = ⟨split_right, .call .mergesort .split_merge⟩ from rfl) (by decide)
    (by decide) (h.right hlt hq) (by omega) (by omega) le_rfl hhalfright hdi3 hsi3 hright
    fun x hx hx' => by
      rw [hkeeps2.load fun a _ _ => by omega, hkeeps1.load fun a _ _ => by omega,
        hA x (by omega) hx', hB x (by omega)]
  have hC4 : Shows m3.mem out p (r + 1) C := by
    intro x hx hx'
    by_cases hxq : x < q + 1
    · rw [hkeeps3.load fun a _ _ => by omega, hB2 x hx hxq, hC x hxq]
    · exact hC3 x (by omega) hx'
  obtain ⟨m4, hrun4, hregs4, hsp4, hfs4, hkeeps4, hmerged⟩ :=
    hinside3.merge layout h hdi hlt hr hq hsi4 hC4
  exact ⟨m4, ((hrun1.steps.trans hrun2).trans hrun3).trans hrun4, hregs4, hsp4, hfs4, hkeeps4,
    hmerged⟩

/-- The routine makes in `out` what `IntMergeSort` makes of an array with the same segment. -/
theorem sorts_mergesort (A : ℕ → ℤ) (p r : ℕ) (hle : p ≤ r) (hr : r < 2 ^ 31) :
    Sorts layout p r inp out A (IntMergeSort A p r) := by
  by_cases hlt : p < r
  · have hpq : p ≤ (p + r) / 2 := by omega
    have hqr : (p + r) / 2 < r := by omega
    have hleft := sorts_mergesort A p ((p + r) / 2) hpq (by omega)
    have hright := sorts_mergesort (IntMergeSort A p ((p + r) / 2)) ((p + r) / 2 + 1) r hqr hr
    obtain ⟨_, hframeL⟩ := IntMergeSort_spec A p ((p + r) / 2)
    obtain ⟨_, hframeR⟩ := IntMergeSort_spec (IntMergeSort A p ((p + r) / 2)) ((p + r) / 2 + 1) r
    rw [IntMergeSort, if_pos hlt]
    exact sorts_split layout hlt hr rfl hleft hright (fun x hx => hframeL x (.inr hx))
      fun x hx => hframeR x (.inl hx)
  · obtain rfl : p = r := by omega
    rw [IntMergeSort_of_ge hlt]
    exact sorts_single layout hr A
termination_by r - p

end

end Acos.AsmMergesort
