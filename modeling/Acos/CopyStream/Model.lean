import Acos.Lib.CString
import Acos.Lib.X86Stack

/-! `syscall` and `_start` of `inf07-2_asm-x86_syscalls_copy-stream/main.S`. The kernel takes a step
of its own at the instruction `syscall`; a call may fail whenever the environment has it so. -/
namespace Acos.CopyStream
open Acos.CString Acos.X86

/-- The labels of the source, and the places behind a call or a jump. -/
inductive Label where
  | syscall | kernel | epilogue
  | start | while_condition | while_body | test | finish | behind
  deriving DecidableEq, Repr

/-- The registers that the wrapper keeps for its caller. -/
def kept : List Reg := [.rbx, .rbp, .r12, .r13, .r14, .r15, .r11, .rcx]

/-- The arguments, the last one first. -/
def arguments : List Reg := [.r9, .r8, .rcx, .rdx, .rsi, .rdi]

/-- Where the arguments go: the first is the number of the call. -/
def parameters : List Reg := [.rax, .rdi, .rsi, .rdx, .r10, .r8]

/-- A call with the address of the byte and the length 1. -/
def transfer (number fd : ℤ) : List Op := [
  .lea .qword .rax ⟨some .rbp, none, 1, -1⟩,
  .mov .dword (.reg .rcx) (.imm 1),
  .mov .qword (.reg .rdx) (.reg .rax),
  .mov .dword (.reg .rsi) (.imm fd),
  .mov .dword (.reg .rdi) (.imm number),
  .mov .dword (.reg .rax) (.imm 0)]

def startOps : List Op := [
  .push .rbp,
  .mov .qword (.reg .rbp) (.reg .rsp),
  .alu .sub .qword (.reg .rsp) (.imm 16)]

def finishOps : List Op := [
  .mov .dword (.reg .rsi) (.imm 0),
  .mov .dword (.reg .rdi) (.imm 231),
  .mov .dword (.reg .rax) (.imm 0)]

def code : Label → Block Label
  | .syscall =>
    ⟨kept.map .push ++ (arguments.map .push ++ parameters.map .pop), .jmp .kernel⟩
  -- the processor leaves the program here
  | .kernel => ⟨[], .abort⟩
  | .epilogue => ⟨kept.reverse.map .pop, .ret⟩
  | .start => ⟨startOps, .jmp .while_body⟩
  | .while_condition => ⟨transfer 1 1, .call .syscall .while_body⟩
  | .while_body => ⟨transfer 0 0, .call .syscall .test⟩
  | .test => ⟨[.test .qword (.reg .rax) (.reg .rax)], .jcc .e .finish .while_condition⟩
  | .finish => ⟨finishOps, .call .syscall .behind⟩
  | .behind => ⟨[.leave], .ret⟩

/-- The streams, and what the calls have come to: a byte or a failure of `read`, the success of
`write`, the status of `exit_group`. -/
structure World where
  input : Bytes
  output : Bytes
  reads : List (Option UInt8)
  writes : List Bool
  exited : Option ℕ
  deriving DecidableEq, Repr

/-- What the environment chooses: the error of a call that fails, less one, and what the kernel leaves
in the registers that it does not keep. -/
structure Action where
  fails : Option (Fin 4095)
  rcx : ℕ
  r11 : ℕ

/-- The registers behind the instruction. -/
def resume (m : Machine) (a : Action) (rax : ℕ) : Machine :=
  ((m.set .rcx a.rcx).set .r11 a.r11).set .rax rax

/-- The negated number of an error. -/
def errno (e : Fin 4095) : ℕ := 2 ^ 64 - (e.val + 1)

/-- `read` of one byte from the standard input. -/
def read (m : Machine) (w : World) (a : Action) : Machine × World :=
  match a.fails, w.input with
  | some e, _ => (resume m a (errno e), { w with reads := w.reads ++ [none] })
  | none, [] => (resume m a 0, w)
  | none, c :: rest =>
    (resume (m.setMem (Function.update m.mem (m.reg .rsi) c)) a 1,
      { w with input := rest, reads := w.reads ++ [some c] })

/-- `write` of one byte to the standard output. -/
def write (m : Machine) (w : World) (a : Action) : Machine × World :=
  match a.fails with
  | some e => (resume m a (errno e), { w with writes := w.writes ++ [false] })
  | none =>
    (resume m a 1,
      { w with output := w.output ++ [m.mem (m.reg .rsi)], writes := w.writes ++ [true] })

/-- The calls of this program; there is no step for others. -/
def kernel (m : Machine) (w : World) (a : Action) : Option (Machine × World) :=
  if m.reg .rax = 0 ∧ m.reg .rdi = 0 ∧ m.reg .rdx = 1 then some (read m w a)
  else if m.reg .rax = 1 ∧ m.reg .rdi = 1 ∧ m.reg .rdx = 1 then some (write m w a)
  else if m.reg .rax = 231 then some (m, { w with exited := some (m.reg .rdi) })
  else none

structure State where
  cpu : X86.State Label
  world : World

def next (layout : Layout Label) (s : State) (a : Action) : Option State :=
  if s.world.exited.isSome then none
  else match s.cpu with
    | (m, .at .kernel) =>
      (kernel m s.world a).map fun (m', w') => ⟨(m', .at .epilogue), w'⟩
    | cpu => (X86.step code layout cpu).map fun cpu' => ⟨cpu', s.world⟩

def initial (m : Machine) (input : Bytes) : State := ⟨(m, .at .start), ⟨input, [], [], [], none⟩⟩

end Acos.CopyStream
