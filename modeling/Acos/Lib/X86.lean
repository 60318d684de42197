import Acos.Lib.MachineInt
import Acos.Lib.WordMemory
import Mathlib.Logic.Relation

/-! A machine for basic blocks in the x86-64 instruction set. Addresses are numbers below `2 ^ 64`;
a block runs to its end in one step. -/
namespace Acos.X86
open Acos.MachineInt Acos.WordMemory

inductive Reg where
  | rax | rbx | rcx | rdx | rsi | rdi | rbp | rsp
  | r8 | r9 | r10 | r11 | r12 | r13 | r14 | r15
  deriving DecidableEq, Repr

inductive Width where
  | dword
  | qword
  deriving DecidableEq, Repr

@[simp] def Width.bytes : Width → ℕ
  | .dword => 4
  | .qword => 8

@[simp] def Width.modulus : Width → ℕ
  | .dword => 2 ^ 32
  | .qword => 2 ^ 64

/-- A number of that width as a signed one. -/
def Width.signed : Width → ℕ → ℤ
  | .dword, x => i32 x
  | .qword, x => i64 x

/-- `base + index * scale + disp`. -/
structure Addr where
  base : Option Reg
  index : Option Reg
  scale : ℕ
  disp : ℤ
  deriving DecidableEq, Repr

/-- `fs` is a number in the thread's own segment. -/
inductive Operand where
  | reg (r : Reg)
  | imm (v : ℤ)
  | mem (a : Addr)
  | fs (disp : ℕ)
  deriving DecidableEq, Repr

inductive Alu where
  | add | sub | and | or | xor | shl | shr | sar
  deriving DecidableEq, Repr

/-- The instructions that are no jumps. `movsx` takes 32 bits to 64, as `cdqe` does. -/
inductive Op where
  | mov (w : Width) (dst src : Operand)
  | movsx (dst src : Reg)
  | lea (w : Width) (dst : Reg) (a : Addr)
  | alu (op : Alu) (w : Width) (dst src : Operand)
  | imul (dst src : Reg) (v : ℤ)
  | div (src : Reg)
  | cmp (w : Width) (a b : Operand)
  | test (w : Width) (a b : Operand)
  | push (r : Reg)
  | pop (r : Reg)
  | leave
  | nop
  deriving DecidableEq, Repr

/-- The flag `ZF`, and whether `SF` and `OF` differ. -/
structure Flags where
  zero : Bool
  less : Bool
  deriving DecidableEq, Repr

inductive Cond where
  | e | l | ge | g
  deriving DecidableEq, Repr

def Cond.holds (f : Flags) : Cond → Bool
  | .e => f.zero
  | .l => f.less
  | .ge => !f.less
  | .g => !f.zero && !f.less

/-- `flags` are known after a comparison or an instruction that sets them like one. -/
structure Machine where
  reg : Reg → ℕ
  reg_lt : ∀ r, reg r < 2 ^ 64
  mem : Memory
  flags : Option Flags
  fs : ℕ → ℕ

/-- The difference of two numbers of a width. -/
def minus (w : Width) (a b : ℕ) : ℕ := (a + w.modulus - b) % w.modulus

def address (base offset : ℕ) (disp : ℤ) : ℕ := ((base + offset + disp) % 2 ^ 64).toNat

namespace Machine

def set (m : Machine) (r : Reg) (v : ℕ) : Machine where
  reg := Function.update m.reg r (v % 2 ^ 64)
  reg_lt r' := by
    rw [Function.update_apply]
    split
    · exact Nat.mod_lt v (by decide)
    · exact m.reg_lt r'
  mem := m.mem
  flags := m.flags
  fs := m.fs

def setMem (m : Machine) (mem : Memory) : Machine := { m with mem := mem }

def setFlags (m : Machine) (flags : Option Flags) : Machine := { m with flags := flags }

/-- The address that an operand names. -/
@[simp] def ea (m : Machine) (a : Addr) : ℕ :=
  address (a.base.elim 0 m.reg) (a.index.elim 0 m.reg * a.scale) a.disp

def read (m : Machine) (w : Width) : Operand → ℕ
  | .reg r => m.reg r % w.modulus
  | .imm v => (v % w.modulus).toNat
  | .mem a => load w.bytes m.mem (m.ea a)
  | .fs disp => m.fs disp % w.modulus

/-- A write of 32 bits to a register clears the others. -/
def write (m : Machine) (w : Width) : Operand → ℕ → Machine
  | .reg r, v => m.set r (v % w.modulus)
  | .mem a, v => m.setMem (store w.bytes m.mem (m.ea a) (v % w.modulus))
  | _, _ => m

@[simp] def push (m : Machine) (v : ℕ) : Machine :=
  let sp := minus .qword (m.reg .rsp) 8
  (m.set .rsp sp).setMem (store 8 m.mem sp v)

/-- The number on top of the stack. -/
@[simp] def top (m : Machine) : ℕ := load 8 m.mem (m.reg .rsp)

/-- The stack without the number on top. -/
@[simp] def drop (m : Machine) : Machine := m.set .rsp (m.reg .rsp + 8)

section
variable (m : Machine) (r r' : Reg) (v : ℕ) (mem : Memory) (flags : Option Flags)

@[simp] theorem set_reg : (m.set r v).reg r' = if r' = r then v % 2 ^ 64 else m.reg r' :=
  Function.update_apply m.reg r (v % 2 ^ 64) r'

theorem set_reg_of_ne (h : r' ≠ r) : (m.set r v).reg r' = m.reg r' :=
  (m.set_reg r r' v).trans (if_neg h)

@[simp] theorem set_mem : (m.set r v).mem = m.mem := rfl
@[simp] theorem set_flags : (m.set r v).flags = m.flags := rfl
@[simp] theorem set_fs : (m.set r v).fs = m.fs := rfl
@[simp] theorem setMem_reg : (m.setMem mem).reg = m.reg := rfl
@[simp] theorem setMem_mem : (m.setMem mem).mem = mem := rfl
@[simp] theorem setMem_flags : (m.setMem mem).flags = m.flags := rfl
@[simp] theorem setMem_fs : (m.setMem mem).fs = m.fs := rfl
@[simp] theorem setFlags_reg : (m.setFlags flags).reg = m.reg := rfl
@[simp] theorem setFlags_mem : (m.setFlags flags).mem = m.mem := rfl
@[simp] theorem setFlags_flags : (m.setFlags flags).flags = flags := rfl
@[simp] theorem setFlags_fs : (m.setFlags flags).fs = m.fs := rfl

@[simp] theorem read_reg (w : Width) : m.read w (.reg r) = m.reg r % w.modulus := rfl
@[simp] theorem read_imm (w : Width) (v : ℤ) : m.read w (.imm v) = (v % w.modulus).toNat := rfl
@[simp] theorem read_mem (w : Width) (a : Addr) :
    m.read w (.mem a) = load w.bytes m.mem (m.ea a) := rfl
@[simp] theorem read_fs (w : Width) (disp : ℕ) : m.read w (.fs disp) = m.fs disp % w.modulus := rfl
@[simp] theorem write_reg (w : Width) : m.write w (.reg r) v = m.set r (v % w.modulus) := rfl
@[simp] theorem write_mem (w : Width) (a : Addr) :
    m.write w (.mem a) v = m.setMem (store w.bytes m.mem (m.ea a) (v % w.modulus)) := rfl

/-- `simp` writes `2 ^ 64` as a numeral. -/
@[simp] theorem reg_mod : m.reg r % 18446744073709551616 = m.reg r :=
  Nat.mod_eq_of_lt (m.reg_lt r)

end

end Machine

@[simp] def Alu.eval (w : Width) (a b : ℕ) : Alu → ℕ
  | .add => (a + b) % w.modulus
  | .sub => minus w a b
  | .and => a &&& b
  | .or => a ||| b
  | .xor => a ^^^ b
  | .shl => a * 2 ^ b % w.modulus
  | .shr => a / 2 ^ b
  | .sar => (w.signed a / 2 ^ b % w.modulus).toNat

/-- The flags that a comparison sets. -/
def compare (w : Width) (a b : ℕ) : Flags := ⟨a == b, w.signed a < w.signed b⟩

/-- The flags that a logical instruction sets. -/
def signs (w : Width) (v : ℕ) : Flags := ⟨v == 0, w.signed v < 0⟩

def Alu.flags (w : Width) (a b : ℕ) : Alu → Option Flags
  | .sub => some (compare w a b)
  | .and => some (signs w (a &&& b))
  | .or => some (signs w (a ||| b))
  | .xor => some (signs w (a ^^^ b))
  | _ => none

/-- A number of 32 bits as a signed one of 64. -/
def signExtend (v : ℕ) : ℕ := (i32 v % 2 ^ 64).toNat

/-- The dividend of `div`. -/
def Machine.dividend (m : Machine) : ℕ := m.reg .rdx * 2 ^ 64 + m.reg .rax

/-- The processor reports a division error. -/
def Machine.faults (m : Machine) : Op → Bool
  | .div src => m.reg src = 0 ∨ 2 ^ 64 ≤ m.dividend / m.reg src
  | _ => false

/-- One instruction that reports no error. -/
@[simp] def exec (m : Machine) : Op → Machine
  | .mov w dst src => m.write w dst (m.read w src)
  | .movsx dst src => m.set dst (signExtend (m.read .dword (.reg src)))
  | .lea w dst a => m.write w (.reg dst) (m.ea a)
  | .alu op w dst src =>
    (m.write w dst (op.eval w (m.read w dst) (m.read w src))).setFlags
      (op.flags w (m.read w dst) (m.read w src))
  | .imul dst src v => (m.set dst (m.reg src * v % 2 ^ 64).toNat).setFlags none
  | .div src =>
    ((m.set .rax (m.dividend / m.reg src)).set .rdx (m.dividend % m.reg src)).setFlags none
  | .cmp w a b => m.setFlags (some (compare w (m.read w a) (m.read w b)))
  | .test w a b => m.setFlags (some (signs w (m.read w a &&& m.read w b)))
  | .push r => m.push (m.reg r)
  | .pop r => m.drop.set r m.top
  | .leave => (m.set .rsp (m.reg .rbp)).drop.set .rbp (m.set .rsp (m.reg .rbp)).top
  | .nop => m

def execs (m : Machine) (ops : List Op) : Machine := ops.foldl exec m

/-- No instruction of the list reports an error. -/
def sound : Machine → List Op → Bool
  | _, [] => true
  | m, op :: ops => !m.faults op && sound (exec m op) ops

/-- The registers that an instruction may change. -/
def Op.writes : Op → List Reg
  | .mov _ (.reg r) _ => [r]
  | .alu _ _ (.reg r) _ => [r]
  | .movsx dst _ => [dst]
  | .lea _ dst _ => [dst]
  | .imul dst _ _ => [dst]
  | .div _ => [.rax, .rdx]
  | .push _ => [.rsp]
  | .pop r => [r, .rsp]
  | .leave => [.rbp, .rsp]
  | _ => []

/-- An instruction that may change the memory. -/
def Op.stores : Op → Bool
  | .mov _ (.mem _) _ => true
  | .alu _ _ (.mem _) _ => true
  | .push _ => true
  | _ => false

/-- An instruction that reports no error in any state. -/
def Op.plain : Op → Bool
  | .div _ => false
  | _ => true

/-- An instruction that also leaves these registers alone. -/
def Op.keeps (keep : List Reg) (op : Op) : Bool := op.plain && keep.all (· ∉ op.writes)

section
variable {m : Machine} {op : Op} {ops ops' : List Op} {r : Reg}

@[simp] theorem execs_nil : execs m [] = m := rfl

@[simp] theorem execs_cons : execs m (op :: ops) = execs (exec m op) ops := rfl

theorem execs_append : execs m (ops ++ ops') = execs (execs m ops) ops' := List.foldl_append

theorem write_reg_of_ne (w : Width) (dst : Operand) (v : ℕ) (h : dst ≠ .reg r) :
    (m.write w dst v).reg r = m.reg r := by
  cases dst with
  | reg r' => exact (m.set_reg r' r _).trans (if_neg fun heq => h (congrArg Operand.reg heq.symm))
  | imm v => rfl
  | mem a => rfl
  | fs disp => rfl

theorem write_fs (m : Machine) (w : Width) (dst : Operand) (v : ℕ) :
    (m.write w dst v).fs = m.fs := by
  cases dst <;> rfl

theorem exec_reg (h : r ∉ op.writes) : (exec m op).reg r = m.reg r := by
  cases op with
  | mov w dst src =>
    apply write_reg_of_ne
    rintro rfl
    exact h (List.mem_singleton_self r)
  | movsx dst src => exact m.set_reg_of_ne dst r _ fun heq => h (List.mem_singleton.mpr heq)
  | lea w dst a => exact m.set_reg_of_ne dst r _ fun heq => h (List.mem_singleton.mpr heq)
  | alu op w dst src =>
    apply write_reg_of_ne
    rintro rfl
    exact h (List.mem_singleton_self r)
  | imul dst src v => exact m.set_reg_of_ne dst r _ fun heq => h (List.mem_singleton.mpr heq)
  | div src =>
    simp only [Op.writes, List.mem_cons, List.not_mem_nil, or_false, not_or] at h
    exact (Machine.set_reg_of_ne _ _ r _ h.2).trans (m.set_reg_of_ne _ r _ h.1)
  | push r' => exact m.set_reg_of_ne _ r _ fun heq => h (List.mem_singleton.mpr heq)
  | pop r' =>
    simp only [Op.writes, List.mem_cons, List.not_mem_nil, or_false, not_or] at h
    exact (Machine.set_reg_of_ne _ _ r _ h.1).trans (m.set_reg_of_ne _ r _ h.2)
  | leave =>
    simp only [Op.writes, List.mem_cons, List.not_mem_nil, or_false, not_or] at h
    exact (Machine.set_reg_of_ne _ _ r _ h.1).trans
      ((Machine.set_reg_of_ne _ _ r _ h.2).trans (m.set_reg_of_ne _ r _ h.2))
  | _ => rfl

theorem execs_reg (h : ∀ op ∈ ops, r ∉ op.writes) : (execs m ops).reg r = m.reg r := by
  induction ops generalizing m with
  | nil => rfl
  | cons op ops ih =>
    rw [execs_cons, ih fun op' hmem => h op' (List.mem_cons_of_mem op hmem)]
    exact exec_reg (h op List.mem_cons_self)

theorem write_mem_of_ne (w : Width) (dst : Operand) (v : ℕ) (h : ∀ a, dst ≠ .mem a) :
    (m.write w dst v).mem = m.mem := by
  cases dst with
  | mem a => exact absurd rfl (h a)
  | _ => rfl

theorem exec_mem (h : op.stores = false) : (exec m op).mem = m.mem := by
  cases op with
  | mov w dst src =>
    apply write_mem_of_ne
    rintro a rfl
    cases h
  | lea w dst a => rfl
  | alu op w dst src =>
    apply write_mem_of_ne
    rintro a rfl
    cases h
  | push r => cases h
  | _ => rfl

theorem execs_mem (h : ∀ op ∈ ops, op.stores = false) : (execs m ops).mem = m.mem := by
  induction ops generalizing m with
  | nil => rfl
  | cons op ops ih =>
    rw [execs_cons, ih fun op' hmem => h op' (List.mem_cons_of_mem op hmem)]
    exact exec_mem (h op List.mem_cons_self)

theorem exec_fs (m : Machine) (op : Op) : (exec m op).fs = m.fs := by
  cases op with
  | mov w dst src => exact write_fs m w dst _
  | lea w dst a => exact write_fs m w (.reg dst) _
  | alu op w dst src => exact write_fs m w dst _
  | _ => rfl

theorem execs_fs (m : Machine) (ops : List Op) : (execs m ops).fs = m.fs := by
  induction ops generalizing m with
  | nil => rfl
  | cons op ops ih => rw [execs_cons, ih, exec_fs]

theorem sound_append : sound m (ops ++ ops') = (sound m ops && sound (execs m ops) ops') := by
  induction ops generalizing m with
  | nil => rfl
  | cons op ops ih => rw [List.cons_append, sound, sound, ih, execs_cons, Bool.and_assoc]

theorem sound_of_plain (h : ∀ op ∈ ops, op.plain) : sound m ops := by
  induction ops generalizing m with
  | nil => rfl
  | cons op ops ih =>
    have hop : m.faults op = false := by
      have hplain := h op List.mem_cons_self
      cases op with
      | div src => exact absurd hplain Bool.false_ne_true
      | _ => rfl
    rw [sound, hop, ih fun op' hmem => h op' (List.mem_cons_of_mem op hmem)]
    rfl

end

/-- How a basic block ends; `next` is the block behind a jump or a call. `abort` is a call that does
not come back. -/
inductive Term (Label : Type) where
  | jmp (target : Label)
  | jcc (c : Cond) (target next : Label)
  | call (target next : Label)
  | ret
  | abort
  deriving DecidableEq, Repr

structure Block (Label : Type) where
  ops : List Op
  term : Term Label

/-- Where the machine goes on: in the code, or at an address outside it. -/
inductive Pc (Label : Type) where
  | at (l : Label)
  | out (address : ℕ)
  deriving DecidableEq, Repr

/-- The addresses of the blocks, which are all different. -/
structure Layout (Label : Type) where
  place : Label → ℕ
  resolve : ℕ → Pc Label
  place_lt : ∀ l, place l < 2 ^ 64
  resolve_place : ∀ l, resolve (place l) = .at l

variable {Label : Type}

abbrev State (Label : Type) := Machine × Pc Label

/-- The jump at the end of a block. -/
def Term.exec (layout : Layout Label) (m : Machine) : Term Label → Option (State Label)
  | .jmp target => some (m, .at target)
  | .jcc c target next => m.flags.map fun f => (m, .at (if c.holds f then target else next))
  | .call target next => some (m.push (layout.place next), .at target)
  | .ret => some (m.drop, layout.resolve m.top)
  | .abort => none

def step (code : Label → Block Label) (layout : Layout Label) : State Label → Option (State Label)
  | (m, .at l) =>
    if sound m (code l).ops then (code l).term.exec layout (execs m (code l).ops) else none
  | (_, .out _) => none

/-- The machine goes from one state to another in some number of steps. -/
def Steps (code : Label → Block Label) (layout : Layout Label) :
    State Label → State Label → Prop :=
  Relation.ReflTransGen fun s t => step code layout s = some t

section
variable {code : Label → Block Label} {layout : Layout Label} {m : Machine} {l target next : Label}
  {ops : List Op} {s t u : State Label}

theorem Steps.refl (s : State Label) : Steps code layout s s := Relation.ReflTransGen.refl

theorem Steps.trans (h : Steps code layout s t) (h' : Steps code layout t u) :
    Steps code layout s u := Relation.ReflTransGen.trans h h'

theorem Steps.block {b : Block Label} (h : code l = b) (hs : sound m b.ops)
    (ht : b.term.exec layout (execs m b.ops) = some t) : Steps code layout (m, .at l) t := by
  apply Relation.ReflTransGen.single
  rw [step, h, if_pos hs, ht]

theorem Steps.jmp (h : code l = ⟨ops, .jmp target⟩) (hs : sound m ops) :
    Steps code layout (m, .at l) (execs m ops, .at target) := Steps.block h hs rfl

theorem Steps.jcc {c : Cond} {f : Flags} (h : code l = ⟨ops, .jcc c target next⟩)
    (hs : sound m ops) (hf : (execs m ops).flags = some f) :
    Steps code layout (m, .at l) (execs m ops, .at (if c.holds f then target else next)) := by
  apply Steps.block h hs
  rw [Term.exec, hf]
  rfl

theorem Steps.call (h : code l = ⟨ops, .call target next⟩) (hs : sound m ops) :
    Steps code layout (m, .at l) ((execs m ops).push (layout.place next), .at target) :=
  Steps.block h hs rfl

theorem Steps.ret (h : code l = ⟨ops, .ret⟩) (hs : sound m ops) :
    Steps code layout (m, .at l) ((execs m ops).drop, layout.resolve (execs m ops).top) :=
  Steps.block h hs rfl

/-- Two runs that cannot go on have come to the same end. -/
theorem Steps.unique (h : Steps code layout s t) (h' : Steps code layout s u)
    (ht : step code layout t = none) (hu : step code layout u = none) : t = u := by
  have hright : Relator.RightUnique fun s t : State Label => step code layout s = some t :=
    fun a b c hb hc => Option.some.inj (hb.symm.trans hc)
  have hend {a b : State Label} (ha : step code layout a = none) (hab : Steps code layout a b) :
      a = b := by
    rcases Relation.ReflTransGen.cases_head hab with hsame | ⟨c, hstep, _⟩
    · exact hsame
    · cases ha.symm.trans hstep
  rcases Relation.ReflTransGen.total_of_right_unique hright h h' with htu | hut
  · exact hend ht htu
  · exact (hend hu hut).symm

end

/-- The machine goes from one state to another, and these registers stay as they are. -/
structure Runs (code : Label → Block Label) (layout : Layout Label) (keep : List Reg)
    (s t : State Label) : Prop where
  steps : Steps code layout s t
  reg : ∀ r ∈ keep, t.1.reg r = s.1.reg r
  fs : t.1.fs = s.1.fs

section
variable {code : Label → Block Label} {layout : Layout Label} {keep : List Reg} {m : Machine}
  {l target next : Label} {ops : List Op} {s t u : State Label}

theorem Runs.trans (h : Runs code layout keep s t) (h' : Runs code layout keep t u) :
    Runs code layout keep s u :=
  ⟨h.steps.trans h'.steps, fun r hr => (h'.reg r hr).trans (h.reg r hr), h'.fs.trans h.fs⟩

theorem Runs.mono {keep' : List Reg} (h : Runs code layout keep s t)
    (hsub : ∀ r ∈ keep', r ∈ keep) : Runs code layout keep' s t :=
  ⟨h.steps, fun r hr => h.reg r (hsub r hr), h.fs⟩

theorem sound_of_keeps (h : ∀ op ∈ ops, op.keeps keep) : sound m ops :=
  sound_of_plain fun op hop => (Bool.and_eq_true_iff.mp (h op hop)).1

variable (keep) in
theorem execs_reg_of_keeps {r : Reg} (h : ∀ op ∈ ops, op.keeps keep) (hr : r ∈ keep) :
    (execs m ops).reg r = m.reg r := by
  apply execs_reg
  intro op hop
  have hall := List.all_eq_true.mp (Bool.and_eq_true_iff.mp (h op hop)).2 r hr
  simpa using hall

variable (layout) in
theorem Runs.jmp (h : code l = ⟨ops, .jmp target⟩) (hkeep : ∀ op ∈ ops, op.keeps keep) :
    Runs code layout keep (m, .at l) (execs m ops, .at target) :=
  ⟨Steps.jmp h (sound_of_keeps hkeep), fun _ hr => execs_reg_of_keeps keep hkeep hr, execs_fs m ops⟩

variable (layout) in
theorem Runs.jcc {c : Cond} {f : Flags} (h : code l = ⟨ops, .jcc c target next⟩)
    (hkeep : ∀ op ∈ ops, op.keeps keep) (hf : (execs m ops).flags = some f) :
    Runs code layout keep (m, .at l)
      (execs m ops, .at (if c.holds f then target else next)) :=
  ⟨Steps.jcc h (sound_of_keeps hkeep) hf, fun _ hr => execs_reg_of_keeps keep hkeep hr,
    execs_fs m ops⟩

end

section
variable {a b d v n k : ℕ}

theorem address_base (h : b < 2 ^ 64) : address b 0 0 = b := by
  unfold address
  omega

theorem address_scaled (h : b + 4 * v < 2 ^ 64) : address b (v * 4) 0 = b + 4 * v := by
  unfold address
  omega

theorem address_one (h : b + 1 < 2 ^ 64) : address b 0 1 = b + 1 := by
  unfold address
  omega

theorem address_neg (h : d ≤ b) (hb : b < 2 ^ 64) : address b 0 (-d) = b - d := by
  unfold address
  omega

theorem signExtend_of_lt (h : v < 2 ^ 31) : signExtend v = v := by
  unfold signExtend i32
  omega

theorem minus_dword (h : b ≤ a) (ha : a < 2 ^ 32) : minus .dword a b = a - b := by
  simp only [minus, Width.modulus]
  omega

theorem minus_qword (h : b ≤ a) (ha : a < 2 ^ 64) : minus .qword a b = a - b := by
  simp only [minus, Width.modulus]
  omega

/-- The bits from `k` on. -/
theorem and_high (h : v < 2 ^ (n + k)) : v &&& (2 ^ (n + k) - 2 ^ k) = v / 2 ^ k * 2 ^ k := by
  have hmask : 2 ^ (n + k) - 2 ^ k = (2 ^ n - 1) * 2 ^ k := by
    rw [Nat.sub_mul, Nat.one_mul, Nat.pow_add]
  apply Nat.eq_of_testBit_eq
  intro i
  rw [hmask, Nat.testBit_and, Nat.testBit_mul_two_pow, Nat.testBit_mul_two_pow,
    Nat.testBit_two_pow_sub_one, Nat.testBit_div_two_pow]
  by_cases hki : k ≤ i
  · rw [Nat.sub_add_cancel hki]
    by_cases hin : i - k < n
    · simp [hki, hin]
    · have hhigh : v < 2 ^ i := h.trans_le (Nat.pow_le_pow_right (by decide) (by omega))
      simp [hin, Nat.testBit_lt_two_pow hhigh]
  · simp [hki]

end

end Acos.X86
