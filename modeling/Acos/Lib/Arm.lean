import Mathlib.Algebra.Order.Ring.Int
import Mathlib.Data.Fin.VecNotation
import Mathlib.Logic.Function.Basic
import Mathlib.Logic.Relation

/-! A machine for straight-line code in the ARM instruction set: unconditional data processing,
multiplication, loads and stores of words, block transfers and branches through a register.
Routines outside the code are entered at their address and run in one step. -/
namespace Acos.Arm

abbrev Word := BitVec 32

abbrev Reg := Fin 16

/-- The registers (`r13` is the stack pointer, `r14` the link register, `r15` the address of the
instruction), the memory by word address, and the instruction set in use. -/
structure Cpu where
  reg : Reg → Word
  mem : Word → Word
  thumb : Bool

namespace Cpu

abbrev sp (s : Cpu) : Word := s.reg 13
abbrev lr (s : Cpu) : Word := s.reg 14
abbrev pc (s : Cpu) : Word := s.reg 15

def set (s : Cpu) (r : Reg) (v : Word) : Cpu := ⟨Function.update s.reg r v, s.mem, s.thumb⟩

def store (s : Cpu) (a v : Word) : Cpu := ⟨s.reg, Function.update s.mem a v, s.thumb⟩

def advance (s : Cpu) : Cpu := s.set 15 (s.reg 15 + 4)

/-- A register as an operand: `r15` reads two instructions ahead. -/
def read (s : Cpu) (r : Reg) : Word := if r = 15 then s.reg 15 + 8 else s.reg r

@[simp] theorem set_reg_self (s : Cpu) (r : Reg) (v : Word) : (s.set r v).reg r = v := by
  simp [set]

theorem set_reg_of_ne (s : Cpu) {r r' : Reg} (v : Word) (h : r' ≠ r) :
    (s.set r v).reg r' = s.reg r' := by
  simp [set, h]

theorem set_reg (s : Cpu) (r r' : Reg) (v : Word) :
    (s.set r v).reg r' = if r' = r then v else s.reg r' := by
  simp [set, Function.update_apply]

@[simp] theorem set_mem (s : Cpu) (r : Reg) (v : Word) : (s.set r v).mem = s.mem := rfl
@[simp] theorem set_thumb (s : Cpu) (r : Reg) (v : Word) : (s.set r v).thumb = s.thumb := rfl
@[simp] theorem store_reg (s : Cpu) (a v : Word) : (s.store a v).reg = s.reg := rfl
@[simp] theorem store_mem (s : Cpu) (a v : Word) :
    (s.store a v).mem = Function.update s.mem a v := rfl
@[simp] theorem store_thumb (s : Cpu) (a v : Word) : (s.store a v).thumb = s.thumb := rfl
@[simp] theorem advance_mem (s : Cpu) : s.advance.mem = s.mem := rfl
@[simp] theorem advance_thumb (s : Cpu) : s.advance.thumb = s.thumb := rfl

theorem advance_reg (s : Cpu) (r : Reg) :
    s.advance.reg r = if r = 15 then s.reg 15 + 4 else s.reg r := set_reg s 15 r _

end Cpu

/-- The instructions; `load`, `pre`, `up` and `writeback` are the bits L, P, U and W of a
transfer. -/
inductive Instr where
  | add (d n m : Reg)
  | sub (d n m : Reg)
  | mov (d m : Reg)
  | addImm (d n : Reg) (imm : Word)
  | mul (d m s : Reg)
  | transfer (load pre up writeback : Bool) (n t : Reg) (offset : Word)
  | block (load pre up writeback : Bool) (n : Reg) (regs : List Reg)
  | bx (m : Reg)
  deriving DecidableEq, Repr

/-- The bits of a word from `lo` on. -/
def field (w : Word) (lo width : ℕ) : ℕ := w.toNat / 2 ^ lo % 2 ^ width

def flag (w : Word) (i : ℕ) : Bool := field w i 1 = 1

def regField (w : Word) (lo : ℕ) : Reg := ⟨field w lo 4, Nat.mod_lt _ (by decide)⟩

/-- The registers of a block transfer, the lowest first. -/
def regList (mask : ℕ) : List Reg := (List.finRange 16).filter fun r => mask.testBit r

/-- The data processing instructions, flags not set. -/
def decodeData (w : Word) : Option Instr :=
  if flag w 25 then
    if field w 20 5 = 8 then
      some (.addImm (regField w 12) (regField w 16)
        ((BitVec.ofNat 32 (field w 0 8)).rotateRight (2 * field w 8 4)))
    else none
  else if field w 4 8 = 0 then
    match field w 20 5 with
    | 8 => some (.add (regField w 12) (regField w 16) (regField w 0))
    | 4 => some (.sub (regField w 12) (regField w 16) (regField w 0))
    | 26 => if field w 16 4 = 0 then some (.mov (regField w 12) (regField w 0)) else none
    | _ => none
  else if field w 4 4 = 9 ∧ field w 20 5 = 0 ∧ field w 12 4 = 0 then
    some (.mul (regField w 16) (regField w 0) (regField w 8))
  else none

/-- The unconditional instructions that the machine knows. -/
def decode (w : Word) : Option Instr :=
  if field w 28 4 ≠ 14 then none
  else if field w 4 24 = 0x12fff1 then some (.bx (regField w 0))
  else
    match field w 26 2 with
    | 0 => decodeData w
    | 1 =>
      if flag w 25 ∨ flag w 22 ∨ (!flag w 24 && flag w 21) then none
      else some (.transfer (flag w 20) (flag w 24) (flag w 23) (!flag w 24 || flag w 21)
        (regField w 16) (regField w 12) (BitVec.ofNat 32 (field w 0 12)))
    | 2 =>
      if flag w 25 ∨ flag w 22 then none
      else some (.block (flag w 20) (flag w 24) (flag w 23) (flag w 21) (regField w 16)
        (regList (field w 0 16)))
    | _ => none

def Aligned (a : Word) : Prop := a.toNat % 4 = 0

instance (a : Word) : Decidable (Aligned a) := inferInstanceAs (Decidable (_ = _))

namespace Cpu

/-- The result of an instruction, which may not be a jump. -/
def write (s : Cpu) (d : Reg) (v : Word) : Option Cpu :=
  if d = 15 then none else some (s.set d v).advance

/-- `bx`: an odd address selects the Thumb instruction set. -/
def branchExchange (s : Cpu) (target : Word) : Option Cpu :=
  if target.toNat % 2 = 1 then some ⟨Function.update s.reg 15 (target - 1), s.mem, true⟩
  else if Aligned target then some (s.set 15 target)
  else none

def loadRegs (s : Cpu) (a : Word) : List Reg → Cpu
  | [] => s
  | r :: rs => loadRegs (s.set r (s.mem a)) (a + 4) rs

def storeRegs (s : Cpu) (a : Word) : List Reg → Cpu
  | [] => s
  | r :: rs => storeRegs (s.store a (s.reg r)) (a + 4) rs

/-- One instruction; `none` where the architecture leaves its effect open or the machine does not
model it. -/
def exec (s : Cpu) : Instr → Option Cpu
  | .add d n m => s.write d (s.read n + s.read m)
  | .sub d n m => s.write d (s.read n - s.read m)
  | .addImm d n imm => s.write d (s.read n + imm)
  | .mul d m r => if m = 15 ∨ r = 15 then none else s.write d (s.reg m * s.reg r)
  | .mov d m =>
    if d = 15 then if Aligned (s.read m) then some (s.set 15 (s.read m)) else none
    else s.write d (s.read m)
  | .transfer load pre up writeback n t offset =>
    let moved := if up then s.read n + offset else s.read n - offset
    let address := if pre then moved else s.read n
    let base := if writeback then s.set n moved else s
    if ¬ Aligned address ∨ t = 15 ∨ (writeback ∧ (n = 15 ∨ n = t)) then none
    else if load then some (base.set t (s.mem address)).advance
    else some (base.store address (s.reg t)).advance
  | .block load pre up writeback n regs =>
    let size : Word := BitVec.ofNat 32 (4 * regs.length)
    let moved := if up then s.reg n + size else s.reg n - size
    let low := if up then s.reg n else moved
    let address := if pre = up then low + 4 else low
    let base := if writeback then s.set n moved else s
    if ¬ Aligned address ∨ n = 15 ∨ 15 ∈ regs ∨ n ∈ regs then none
    else if load then some (base.loadRegs address regs).advance
    else some (base.storeRegs address regs).advance
  | .bx m => if m = 15 then none else s.branchExchange (s.reg m)

end Cpu

/-- The routines outside the code, by their addresses. -/
abbrev Routines := Word → Option (Cpu → Cpu)

def step (routines : Routines) (s : Cpu) : Option Cpu :=
  if s.thumb ∨ ¬ Aligned s.pc then none
  else
    match routines s.pc with
    | some routine => some (routine s)
    | none => (decode (s.mem s.pc)).bind s.exec

/-- The machine goes from one state to another in some number of steps. -/
def Steps (routines : Routines) : Cpu → Cpu → Prop :=
  Relation.ReflTransGen fun s t => step routines s = some t

section Steps
variable {routines : Routines} {s t u : Cpu}

theorem Steps.refl (s : Cpu) : Steps routines s s := Relation.ReflTransGen.refl

theorem Steps.single (h : step routines s = some t) : Steps routines s t :=
  Relation.ReflTransGen.single h

theorem Steps.trans (hst : Steps routines s t) (htu : Steps routines t u) : Steps routines s u :=
  Relation.ReflTransGen.trans hst htu

/-- An instruction of the code. -/
theorem step_of_decode {i : Instr} (hthumb : s.thumb = false) (haligned : Aligned s.pc)
    (hcode : routines s.pc = none) (hdecode : decode (s.mem s.pc) = some i) :
    step routines s = s.exec i := by
  simp [step, hthumb, haligned, hcode, hdecode]

/-- A call of a routine. -/
theorem step_of_routine {routine : Cpu → Cpu} (hthumb : s.thumb = false) (haligned : Aligned s.pc)
    (hcode : routines s.pc = some routine) : step routines s = some (routine s) := by
  simp [step, hthumb, haligned, hcode]

end Steps

/-- The machine has returned to the address `target`. -/
def ReturnedTo (target : Word) (s : Cpu) : Prop :=
  if target.toNat % 2 = 1 then s.pc = target - 1 ∧ s.thumb = true
  else s.pc = target ∧ s.thumb = false

/-- The machine comes back to the caller with the result `v`, the stack and `r4` being as before. -/
def Returns (routines : Routines) (s : Cpu) (v : Word) : Prop :=
  ∃ t, Steps routines s t ∧ ReturnedTo s.lr t ∧ t.reg 0 = v ∧ t.reg 4 = s.reg 4 ∧ t.sp = s.sp

/-- The state after a number of steps. -/
def run (routines : Routines) : ℕ → Cpu → Option Cpu
  | 0, s => some s
  | n + 1, s => (step routines s).bind (run routines n)

theorem Steps.exists_run {routines : Routines} {s t : Cpu} (h : Steps routines s t) :
    ∃ n, run routines n s = some t := by
  induction h using Relation.ReflTransGen.head_induction_on with
  | refl => exact ⟨0, rfl⟩
  | head hstep _ ih =>
    obtain ⟨n, hn⟩ := ih
    refine ⟨n + 1, ?_⟩
    rw [run, hstep, Option.bind_some, hn]

theorem run_none_of_le {routines : Routines} {s : Cpu} {m n : ℕ} (hmn : m ≤ n)
    (h : run routines m s = none) : run routines n s = none := by
  induction m generalizing n s with
  | zero => cases h
  | succ m ih =>
    obtain ⟨n, rfl⟩ := Nat.exists_eq_add_of_le' (Nat.lt_of_lt_of_le (Nat.succ_pos m) hmn)
    rw [run] at h ⊢
    cases hstep : step routines s with
    | none => rfl
    | some u =>
      rw [hstep] at h
      exact ih (by omega) h

/-- `bx` returns to any address that the architecture allows. -/
theorem Cpu.branchExchange_returned {s : Cpu} {target : Word} (hthumb : s.thumb = false)
    (htarget : target.toNat % 4 ≠ 2) :
    ∃ t, s.branchExchange target = some t ∧ ReturnedTo target t ∧
      ∀ q, q ≠ 15 → t.reg q = s.reg q := by
  unfold Cpu.branchExchange ReturnedTo
  split
  next hodd =>
    refine ⟨_, rfl, ⟨?_, rfl⟩, fun q hq => ?_⟩
    · simp [Cpu.pc]
    · simp [hq]
  next heven =>
    have haligned : Aligned target := by
      unfold Aligned
      omega
    rw [if_pos haligned]
    exact ⟨_, rfl, ⟨Cpu.set_reg_self _ _ _, hthumb⟩, fun q hq => Cpu.set_reg_of_ne s target hq⟩

/-- Word `i` upwards from `base`. -/
def up (base : Word) (i : ℕ) : Word := base + BitVec.ofNat 32 (4 * i)

/-- Word `i` downwards from `base`. -/
def down (base : Word) (i : ℕ) : Word := base - BitVec.ofNat 32 (4 * i)

section Address
variable {base : Word} {i j : ℕ}

theorem up_succ (base : Word) (i : ℕ) : up base i + 4 = up base (i + 1) := by
  unfold up
  bv_omega

theorem down_succ (base : Word) (i : ℕ) : down base (i + 1) + 4 = down base i := by
  unfold down
  bv_omega

theorem down_sub (base : Word) (i : ℕ) : down base i - 4 = down base (i + 1) := by
  unfold down
  bv_omega

theorem down_inj (hi : i < 2 ^ 29) (hj : j < 2 ^ 29) (h : down base i = down base j) : i = j := by
  unfold down at h
  bv_omega

theorem up_inj (hi : i < 2 ^ 29) (hj : j < 2 ^ 29) (h : up base i = up base j) : i = j := by
  unfold up at h
  bv_omega

theorem aligned_up (h : Aligned base) (i : ℕ) : Aligned (up base i) := by
  unfold Aligned up at *
  bv_omega

theorem aligned_down (h : Aligned base) (i : ℕ) : Aligned (down base i) := by
  unfold Aligned down at *
  bv_omega

end Address

/-- The values of the first `n` argument registers. -/
def Cpu.arguments (s : Cpu) (n : ℕ) : List Word :=
  (List.range n).map fun i => s.reg (Fin.ofNat 16 i)

/-- The machine is at the start of the routine at `pointer`, with `n` of the `room` words below
`top` in use. -/
structure Called (pointer top : Word) (room n : ℕ) (s : Cpu) : Prop where
  pc : s.pc = pointer
  sp : s.sp = down top n
  room : n ≤ room
  lr : Aligned s.lr
  thumb : s.thumb = false

/-- The routine at `pointer` computes `f` of its arguments and follows the procedure call standard.
It does not write to the words that `keeps` names. -/
structure Aapcs (pointer top : Word) (room : ℕ) (keeps : Word → Prop) (arity : ℕ)
    (f : List Word → Word) (routine : Cpu → Cpu) : Prop where
  result : ∀ {n s}, Called pointer top room n s → (routine s).reg 0 = f (s.arguments arity)
  saved : ∀ {n s}, Called pointer top room n s → ∀ r : Reg, 4 ≤ r ∧ r ≤ 11 ∨ r = 13 →
    (routine s).reg r = s.reg r
  returned : ∀ {n s}, Called pointer top room n s → ReturnedTo s.lr (routine s)
  stack : ∀ {n s}, Called pointer top room n s → ∀ i, 1 ≤ i → i ≤ n →
    (routine s).mem (down top i) = s.mem (down top i)
  memory : ∀ {n s}, Called pointer top room n s → ∀ a, keeps a → (routine s).mem a = s.mem a

/-- The machine enters the code at `pc`. -/
def Cpu.entering (pc sp lr : Word) (mem : Word → Word) : Cpu :=
  ⟨fun r => if r = 13 then sp else if r = 14 then lr else if r = 15 then pc else 0, mem, false⟩

/-- A routine that does no more than compute `f` of its arguments. -/
def Cpu.computing (arity : ℕ) (f : List Word → Word) (s : Cpu) : Cpu :=
  (s.set 0 (f (s.arguments arity))).set 15 s.lr

theorem computing_aapcs (pointer top : Word) (room : ℕ) (keeps : Word → Prop) (arity : ℕ)
    (f : List Word → Word) :
    Aapcs pointer top room keeps arity f (Cpu.computing arity f) where
  result := by
    intro n s _
    simp [Cpu.computing, Cpu.set_reg]
  saved := by
    intro n s _ r hr
    have hne : ∀ r : Reg, 4 ≤ r ∧ r ≤ 11 ∨ r = 13 → r ≠ 0 ∧ r ≠ 15 := by decide
    obtain ⟨hr0, hr15⟩ := hne r hr
    simp [Cpu.computing, Cpu.set_reg, hr0, hr15]
  returned := by
    intro n s h
    have heven : ¬ s.lr.toNat % 2 = 1 := by
      have haligned := h.lr
      unfold Aligned at haligned
      omega
    rw [ReturnedTo, if_neg heven]
    exact ⟨Cpu.set_reg_self _ _ _, h.thumb⟩
  stack := fun _ _ _ _ => rfl
  memory := fun _ _ _ => rfl

end Acos.Arm
