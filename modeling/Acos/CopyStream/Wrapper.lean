import Acos.CopyStream.Model

/-! What the blocks of `syscall` do with the registers and the stack, around the instruction. -/
namespace Acos.CopyStream
open Acos.WordMemory Acos.X86

/-- The calls of the program. -/
inductive Call where
  | read | write | exit
  deriving DecidableEq, Repr

namespace Call

def number : Call → ℕ
  | read => 0
  | write => 1
  | exit => 231

/-- The first argument: a stream, or the status. -/
def first : Call → ℕ
  | read => 0
  | write => 1
  | exit => 0

/-- Where the program goes on. -/
def back : Call → Label
  | read => .test
  | write => .while_body
  | exit => .behind

end Call

/-- The stack of the program below `sp`, with the byte that it copies. -/
structure Frame (sp : ℕ) (byte : UInt8) (m : Machine) : Prop where
  rbp : m.reg .rbp = sp - 8
  rsp : m.reg .rsp = sp - 24
  byte : m.mem (sp - 9) = byte

/-- At the start of `syscall`. -/
structure Called (layout : Layout Label) (sp : ℕ) (byte : UInt8) (c : Call) (m : Machine) :
    Prop where
  rbp : m.reg .rbp = sp - 8
  rsp : m.reg .rsp = sp - 32
  back : load 8 m.mem (sp - 32) = layout.place c.back
  byte : m.mem (sp - 9) = byte
  number : m.reg .rdi = c.number
  first : m.reg .rsi = c.first
  buffer : c ≠ .exit → m.reg .rdx = sp - 9 ∧ m.reg .rcx = 1

/-- Between the two blocks of `syscall`: the caller's registers are on the stack. -/
structure Saved (layout : Layout Label) (sp : ℕ) (byte : UInt8) (c : Call) (m : Machine) :
    Prop where
  rsp : m.reg .rsp = sp - 96
  stacked : ∃ vs, vs.length = kept.length ∧ Stacked m.mem (sp - 96) vs ∧
    (Reg.rbp, sp - 8) ∈ kept.reverse.zip vs
  back : load 8 m.mem (sp - 32) = layout.place c.back
  byte : m.mem (sp - 9) = byte

/-- In front of the instruction. -/
structure Entered (layout : Layout Label) (sp : ℕ) (byte : UInt8) (c : Call) (m : Machine) : Prop
    extends Saved layout sp byte c m where
  number : m.reg .rax = c.number
  first : m.reg .rdi = c.first
  buffer : c ≠ .exit → m.reg .rsi = sp - 9 ∧ m.reg .rdx = 1

section Callers
variable {m : Machine} {vs : List ℕ}

/-- The first block, whoever the caller is: the arguments are where the kernel expects them, and the
registers of the caller are on the stack. -/
theorem enter_spec (m : Machine) (hroom : 112 ≤ m.reg .rsp) :
    (execs m (code .syscall).ops).reg .rsp = m.reg .rsp - 64 ∧
      Stacked (execs m (code .syscall).ops).mem (m.reg .rsp - 64) (kept.reverse.map m.reg) ∧
      (∀ a, m.reg .rsp ≤ a → (execs m (code .syscall).ops).mem a = m.mem a) ∧
      ∀ p ∈ parameters.zip arguments.reverse,
        (execs m (code .syscall).ops).reg p.1 = m.reg p.2 := by
  obtain ⟨hrsp₁, hstacked₁, hkeeps₁⟩ :=
    execs_push (m := m) kept (by decide) (by simp [kept]; omega)
  have hreg₁ {r : Reg} (hr : r ≠ .rsp) : (execs m (kept.map .push)).reg r = m.reg r :=
    execs_push_reg kept hr
  have hlow₁ : m.reg .rsp - 8 * kept.length = m.reg .rsp - 64 := rfl
  rw [hlow₁] at hrsp₁ hstacked₁ hkeeps₁
  have hops : execs m (code .syscall).ops =
      execs (execs (execs m (kept.map .push)) (arguments.map .push)) (parameters.map .pop) := by
    rw [code, execs_append, execs_append]
  rw [hops]
  generalize execs m (kept.map .push) = m₁ at *
  obtain ⟨hrsp₂, hstacked₂, hkeeps₂⟩ :=
    execs_push (m := m₁) arguments (by decide) (by rw [hrsp₁]; simp [arguments]; omega)
  have hlow₂ : m₁.reg .rsp - 8 * arguments.length = m.reg .rsp - 112 := by
    rw [hrsp₁]
    simp only [arguments, List.length_cons, List.length_nil]
    omega
  rw [hlow₂] at hrsp₂ hstacked₂ hkeeps₂
  rw [hrsp₁] at hkeeps₂
  generalize execs m₁ (arguments.map .push) = m₂ at *
  rw [← hrsp₂] at hstacked₂
  obtain ⟨hrsp₃, hregs⟩ := execs_pop parameters (by decide) (by decide) (by rfl) hstacked₂
    (by have hlt := m.reg_lt .rsp; rw [hrsp₂]; simp [parameters]; omega)
  have hmem := execs_pop_mem m₂ parameters
  generalize execs m₂ (parameters.map .pop) = m₃ at *
  refine ⟨?_, hstacked₁.congr fun b hlo hhi => ?_, fun a ha => ?_, fun p hp => ?_⟩
  · rw [hrsp₃, hrsp₂]
    simp only [parameters, List.length_cons, List.length_nil]
    omega
  · rw [hmem, hkeeps₂ b (.inr hlo)]
  · rw [hmem, hkeeps₂ a (.inr (by omega)), hkeeps₁ a (.inr ha)]
  · have hne : p.2 ≠ .rsp := by
      have hall : ∀ r ∈ arguments.reverse, r ≠ .rsp := by decide
      exact hall _ (List.of_mem_zip hp).2
    have hpopped : (p.1, m₁.reg p.2) ∈ parameters.zip (arguments.reverse.map m₁.reg) := by
      rw [List.zip_map_right]
      exact List.mem_map_of_mem hp
    rw [hregs _ hpopped, hreg₁ hne]

/-- The second block takes the registers from the stack, and `ret` the address above them. -/
theorem leave_spec (hlength : vs.length = kept.length) (hstacked : Stacked m.mem (m.reg .rsp) vs)
    (hhi : m.reg .rsp + 72 < 2 ^ 64) :
    (execs m (code .epilogue).ops).drop.reg .rsp = m.reg .rsp + 72 ∧
      (∀ p ∈ kept.reverse.zip vs, (execs m (code .epilogue).ops).drop.reg p.1 = p.2) ∧
      (execs m (code .epilogue).ops).drop.reg .rax = m.reg .rax ∧
      (execs m (code .epilogue).ops).drop.mem = m.mem ∧
      (execs m (code .epilogue).ops).top = load 8 m.mem (m.reg .rsp + 64) := by
  obtain ⟨hend, hregs⟩ := execs_pop kept.reverse (by decide) (by decide)
    (by rw [hlength, List.length_reverse]) hstacked (by simp [kept]; omega)
  have hmem := execs_pop_mem m kept.reverse
  have hrax : (execs m (kept.reverse.map .pop)).reg .rax = m.reg .rax :=
    execs_pop_reg (by decide) (by decide)
  have hops : (code .epilogue).ops = kept.reverse.map .pop := rfl
  have hroom : 8 * kept.reverse.length = 64 := rfl
  rw [hroom] at hend
  rw [hops]
  generalize execs m (kept.reverse.map .pop) = m' at *
  refine ⟨?_, fun p hp => ?_, ?_, by rw [Machine.drop, Machine.set_mem, hmem], ?_⟩
  · rw [Machine.drop, Machine.set_reg, if_pos rfl, hend, Nat.mod_eq_of_lt (by omega)]
  · have hne : p.1 ≠ .rsp := by
      have hall : ∀ r ∈ kept.reverse, r ≠ .rsp := by decide
      exact hall _ (List.of_mem_zip hp).1
    rw [Machine.drop, Machine.set_reg_of_ne _ _ _ _ hne]
    exact hregs p hp
  · rw [Machine.drop, Machine.set_reg_of_ne _ _ _ _ (by decide), hrax]
  · rw [Machine.top, hmem, hend]

/-- What a call leaves of the machine: the registers but `rax`, `rcx` and `r11`, and the bytes from
`lo` to `hi`. -/
structure KernelKeeps (lo hi : ℕ) (m m' : Machine) : Prop where
  reg : ∀ r, r ≠ .rax → r ≠ .rcx → r ≠ .r11 → m'.reg r = m.reg r
  mem : ∀ a, lo ≤ a → a < hi → m'.mem a = m.mem a

theorem resume_keeps (lo hi : ℕ) (m : Machine) (a : Action) (rax : ℕ) :
    KernelKeeps lo hi m (resume m a rax) where
  reg r hrax hrcx hr11 := by
    rw [resume, Machine.set_reg_of_ne _ _ _ _ hrax, Machine.set_reg_of_ne _ _ _ _ hr11,
      Machine.set_reg_of_ne _ _ _ _ hrcx]
  mem _ _ _ := rfl

/-- The calls of the program are such, as long as their buffer lies elsewhere. -/
theorem kernel_keeps {lo hi : ℕ} {w : World} {a : Action} {r : Machine × World}
    (h : kernel m w a = some r) (hbuffer : m.reg .rsi < lo ∨ hi ≤ m.reg .rsi) :
    KernelKeeps lo hi m r.1 := by
  unfold kernel at h
  split_ifs at h
  · cases h
    unfold read
    split
    · exact resume_keeps lo hi m a _
    · exact resume_keeps lo hi m a _
    · have hkeeps := resume_keeps lo hi
        (m.setMem (Function.update m.mem (m.reg .rsi) ‹UInt8›)) a 1
      refine ⟨hkeeps.reg, fun i hlo hhi => (hkeeps.mem i hlo hhi).trans ?_⟩
      exact Function.update_of_ne (by omega) _ _
  · cases h
    unfold write
    split <;> exact resume_keeps lo hi m a _
  · cases h
    exact ⟨fun _ _ _ _ => rfl, fun _ _ _ => rfl⟩

def lowLayout : Layout Label where
  place l := l.ctorIdx + 1
  resolve a := if 0 < a ∧ a ≤ 9 then .at (Label.ofNat (a - 1)) else .out a
  place_lt l := by cases l <;> decide
  resolve_place l := by cases l <;> rfl

theorem blank_lt (_ : Reg) : 0 < 2 ^ 64 := by decide

/-- A process with its stack below 4 GB. -/
def process : Machine :=
  let blank : Machine := ⟨fun _ => 0, blank_lt, fun _ => 0, none, fun _ => 0⟩
  blank.set .rsp (2 ^ 32)

end Callers

section
variable {layout : Layout Label} {sp : ℕ} {byte : UInt8} {c : Call} {m : Machine}

/-- The first block. -/
theorem Called.enter (h : Called layout sp byte c m) (hlo : 144 ≤ sp) :
    Entered layout sp byte c (execs m (code .syscall).ops) := by
  have hrsp := h.rsp
  obtain ⟨hrsp₁, hstacked, hmem, hparameters⟩ := enter_spec m (by omega)
  have hlow : m.reg .rsp - 64 = sp - 96 := by omega
  rw [hlow] at hrsp₁ hstacked
  rw [hrsp] at hmem
  refine ⟨⟨hrsp₁, ⟨_, ?_, hstacked, ?_⟩, ?_, ?_⟩, ?_, ?_, fun hc => ⟨?_, ?_⟩⟩
  · rw [List.length_map, List.length_reverse]
  · simp [kept, h.rbp]
  · rw [load_congr fun b hlo hhi => hmem b hlo, h.back]
  · rw [hmem (sp - 9) (by omega), h.byte]
  · rw [hparameters (.rax, .rdi) (by decide), h.number]
  · rw [hparameters (.rdi, .rsi) (by decide), h.first]
  · rw [hparameters (.rsi, .rdx) (by decide), (h.buffer hc).1]
  · rw [hparameters (.rdx, .rcx) (by decide), (h.buffer hc).2]

/-- The instruction keeps the other registers. -/
theorem Saved.resume (h : Saved layout sp byte c m) (a : Action) (rax : ℕ) :
    Saved layout sp byte c (resume m a rax) := by
  refine ⟨?_, h.stacked, h.back, h.byte⟩
  simp [CopyStream.resume, h.rsp]

theorem resume_rax (m : Machine) (a : Action) {rax : ℕ} (h : rax < 2 ^ 64) :
    (resume m a rax).reg .rax = rax := by
  simpa [CopyStream.resume] using h

/-- The kernel stores a byte. -/
theorem Saved.stored (h : Saved layout sp byte c m) (hlo : 144 ≤ sp) (b : UInt8) :
    Saved layout sp b c (m.setMem (Function.update m.mem (sp - 9) b)) := by
  obtain ⟨vs, hlength, hstacked, hrbp⟩ := h.stacked
  have hmem (i : ℕ) (hi : i < sp - 24) : Function.update m.mem (sp - 9) b i = m.mem i :=
    Function.update_of_ne (by omega) _ _
  have hroom : 8 * vs.length = 64 := by
    rw [hlength]
    rfl
  refine ⟨h.rsp, ⟨vs, hlength, hstacked.congr fun i _ hhi => hmem i (by omega), hrbp⟩, ?_, ?_⟩
  · rw [← h.back]
    exact load_congr fun i _ hhi => hmem i (by omega)
  · exact Function.update_self _ _ _

/-- The second block, with the value of the call in `rax`. -/
theorem Saved.leave (h : Saved layout sp byte c m) (hlo : 144 ≤ sp) (hhi : sp < 2 ^ 64) :
    Frame sp byte (execs m (code .epilogue).ops).drop ∧
      (execs m (code .epilogue).ops).drop.reg .rax = m.reg .rax ∧
      layout.resolve (execs m (code .epilogue).ops).top = .at c.back := by
  obtain ⟨vs, hlength, hstacked, hrbp⟩ := h.stacked
  have hrsp := h.rsp
  rw [← hrsp] at hstacked
  obtain ⟨hend, hregs, hrax, hmem, htop⟩ := leave_spec hlength hstacked (by omega)
  have hrbp' := hregs _ hrbp
  generalize execs m (code .epilogue).ops = m' at *
  refine ⟨⟨hrbp', ?_, ?_⟩, hrax, ?_⟩
  · rw [hend]
    omega
  · rw [hmem]
    exact h.byte
  · have hplace : m.reg .rsp + 64 = sp - 32 := by omega
    rw [htop, hplace, h.back, layout.resolve_place]

/-- The return address goes below the frame. -/
theorem Frame.pushed (h : Frame sp byte m) (hlo : 144 ≤ sp) (hhi : sp < 2 ^ 64)
    (hnumber : m.reg .rdi = c.number) (hfirst : m.reg .rsi = c.first)
    (hbuffer : c ≠ .exit → m.reg .rdx = sp - 9 ∧ m.reg .rcx = 1) :
    Called layout sp byte c (m.push (layout.place c.back)) := by
  have hrsp := h.rsp
  have hroom : 8 ≤ m.reg .rsp := by
    rw [hrsp]
    omega
  have hlow : m.reg .rsp - 8 = sp - 32 := by
    rw [hrsp]
    omega
  refine ⟨?_, ?_, ?_, ?_, ?_, ?_, fun hc => ?_⟩
  · rw [push_reg (by decide), h.rbp]
  · rw [push_rsp hroom, hlow]
  · rw [push_mem hroom, hlow, load_store (layout.place_lt _)]
  · rw [push_mem hroom, hlow, store_of_ge (by omega), h.byte]
  · rw [push_reg (by decide), hnumber]
  · rw [push_reg (by decide), hfirst]
  · rw [push_reg (by decide), push_reg (by decide)]
    exact hbuffer hc

/-- Instructions that leave the stack alone. -/
theorem Frame.after (h : Frame sp byte m) (ops : List Op)
    (hkeep : ∀ op ∈ ops, op.keeps [.rbp, .rsp]) (hstores : ∀ op ∈ ops, op.stores = false) : Frame sp byte (execs m ops) :=
  ⟨(execs_reg_of_keeps [.rbp, .rsp] hkeep (by decide)).trans h.rbp,
    (execs_reg_of_keeps [.rbp, .rsp] hkeep (by decide)).trans h.rsp,
    (congrFun (execs_mem hstores) _).trans h.byte⟩

/-- A call from the loop, with the address of the byte. -/
theorem Frame.call (h : Frame sp byte m) (hlo : 144 ≤ sp) (hhi : sp < 2 ^ 64) (hc : c ≠ .exit) :
    Called layout sp byte c
      ((execs m (transfer c.number c.first)).push (layout.place c.back)) := by
  have hbuffer : address (m.reg .rbp) 0 (-1) = sp - 9 := by
    rw [h.rbp]
    unfold address
    omega
  have hframe := h.after (transfer c.number c.first) (by cases c <;> decide)
    (by cases c <;> decide)
  refine hframe.pushed hlo hhi ?_ ?_ fun _ => ⟨?_, ?_⟩
  · cases c <;> simp [transfer, Call.number]
  · cases c <;> simp [transfer, Call.first]
  · simp [transfer, hbuffer]
    omega
  · simp [transfer]

/-- The call behind the loop. -/
theorem Frame.exit (h : Frame sp byte m) (hlo : 144 ≤ sp) (hhi : sp < 2 ^ 64) :
    Called layout sp byte .exit ((execs m finishOps).push (layout.place .behind)) := by
  have hframe := h.after finishOps (by decide) (by decide)
  exact hframe.pushed hlo hhi (by simp [finishOps, Call.number]) (by simp [finishOps, Call.first])
    fun hne => absurd rfl hne

/-- The start of the program. -/
theorem start_frame (m : Machine) (hlo : 144 ≤ m.reg .rsp) :
    Frame (m.reg .rsp) (m.mem (m.reg .rsp - 9)) (execs m startOps) := by
  have hhi := m.reg_lt .rsp
  have hrsp : (m.push (m.reg .rbp)).reg .rsp = m.reg .rsp - 8 := push_rsp (by omega)
  have hmem := push_mem (m := m) (v := m.reg .rbp) (by omega)
  have hops : execs m startOps = execs (m.push (m.reg .rbp)) startOps.tail := rfl
  rw [hops]
  generalize m.push (m.reg .rbp) = m' at *
  refine ⟨?_, ?_, ?_⟩
  · simp [startOps, hrsp]
    omega
  · simp [startOps, hrsp, minus]
    omega
  · rw [execs_mem (by decide), hmem, store_of_lt (by omega)]

end

end Acos.CopyStream
