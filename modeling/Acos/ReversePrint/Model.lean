import Acos.Lib.ArmText
import Acos.Lib.CString

/-! `main` of `inf04-3-asm-arm_basics_reverse-print-chars/main.S`. The routines of the C library are
those of a structure, which says what the program may rely on. -/
namespace Acos.ReversePrint
open Acos.ArmText Acos.CString

/-- The labels of the source, and the places behind a call or a jump. -/
inductive Label where
  | main | created | readsym | gotsym | write | double_buffer | doubled | skip_double_buffer
  | print_buffer | printed | again | exit_main | freed
  deriving DecidableEq, Repr

inductive Routine where
  | fgetc | fputc | realloc | free
  deriving DecidableEq, Repr

def mainOps : List Op := [
  .push [.r4, .r5, .r6, .lr],
  .mov .r0 (.imm 0),
  .mov .r4 (.imm 8),
  .mov .r1 (.reg .r4)]

def readsymOps (stdin : Word) : List Op := [.mov .r0 (.imm stdin), .ldr .r0 .r0 (.imm 0)]

def gotsymOps : List Op := [.cmp .r0 (.imm (-1))]

def writeOps : List Op := [.str .r0 .r5 (.reg .r6), .add .r6 .r6 (.imm 4), .cmp .r6 (.reg .r4)]

def doubleOps : List Op :=
  [.mov .r0 (.reg .r5), .mov .r3 (.imm 2), .mul .r4 .r4 .r3, .mov .r1 (.reg .r4)]

def printOps (stdout : Word) : List Op := [
  .subs .r6 .r6 (.imm 4),
  .ldr .r0 .r5 (.reg .r6),
  .mov .r1 (.imm stdout),
  .ldr .r1 .r1 (.imm 0)]

def printedOps : List Op := [.cmp .r6 (.imm 0)]

def freedOps : List Op := [.pop [.r4, .r5, .r6, .lr], .mov .r0 (.imm 0)]

/-- `stdin` and `stdout` are the addresses of the variables. -/
def code (stdin stdout : Word) : Label → Block Label Routine
  | .main => ⟨mainOps, .bl .realloc .created⟩
  | .created => ⟨[.mov .r5 (.reg .r0)], .b .readsym⟩
  | .readsym => ⟨readsymOps stdin, .bl .fgetc .gotsym⟩
  | .gotsym => ⟨gotsymOps, .bc .eq .print_buffer .write⟩
  | .write => ⟨writeOps, .bc .lt .skip_double_buffer .double_buffer⟩
  | .double_buffer => ⟨doubleOps, .bl .realloc .doubled⟩
  | .doubled => ⟨[.mov .r5 (.reg .r0)], .b .skip_double_buffer⟩
  | .skip_double_buffer => ⟨[], .b .readsym⟩
  | .print_buffer => ⟨printOps stdout, .bl .fputc .printed⟩
  | .printed => ⟨printedOps, .bc .eq .exit_main .again⟩
  | .again => ⟨[], .b .print_buffer⟩
  | .exit_main => ⟨[.mov .r0 (.reg .r5)], .bl .free .freed⟩
  | .freed => ⟨freedOps, .bx⟩

/-- The streams, and the buffer that `realloc` gave last. -/
structure World where
  input : Bytes
  output : Bytes
  base : Word
  size : ℕ

/-- The address of a word of the buffer. -/
def World.word (w : World) (i : ℕ) : Word := w.base + BitVec.ofNat 32 (4 * i)

/-- A character as `fgetc` returns it. -/
def charWord (c : UInt8) : Word := BitVec.ofNat 32 c.toNat

/-- A word that the routines leave alone besides the buffer: the frame of `main` above the stack
pointer, and the two variables. -/
def Fixed (stdin stdout sp a : Word) : Prop :=
  a = stdin ∨ a = stdout ∨ ∃ i < 4, a = sp + BitVec.ofNat 32 (4 * i)

/-- The routines, for calls with the stack pointer `sp`. `realloc` succeeds and keeps the contents;
the procedure call standard keeps `r4` to `r11`. -/
structure Library (stdin stdout sp : Word) where
  call : Routines Routine World
  saved : ∀ {m}, m.reg .sp = sp → ∀ routine w,
    ∀ r ∈ [Reg.r4, .r5, .r6, .r7, .r8, .r9, .r10, .r11, .sp], (call routine m w).1.reg r = m.reg r
  fixed : ∀ {m}, m.reg .sp = sp → ∀ routine w a, Fixed stdin stdout sp a →
    (call routine m w).1.mem a = m.mem a
  buffer : ∀ {m}, m.reg .sp = sp → ∀ routine w, routine = .fgetc ∨ routine = .fputc →
    ∀ i, 4 * i + 4 ≤ w.size → (call routine m w).1.mem (w.word i) = m.mem (w.word i)
  fgetc : ∀ {m}, m.reg .sp = sp → m.reg .r0 = m.mem stdin → ∀ w,
    (call .fgetc m w).1.reg .r0 = w.input.head?.elim (-1) charWord ∧
      (call .fgetc m w).2 = { w with input := w.input.tail }
  fputc : ∀ {m}, m.reg .sp = sp → m.reg .r1 = m.mem stdout → ∀ w,
    (call .fputc m w).2 = { w with output := w.output ++ [UInt8.ofNat (m.reg .r0).toNat] }
  realloc : ∀ {m}, m.reg .sp = sp → ∀ w, m.reg .r0 = w.base → (m.reg .r1).toNat ≤ 2 ^ 31 →
    (call .realloc m w).2 =
        { w with base := (call .realloc m w).1.reg .r0, size := (m.reg .r1).toNat } ∧
      (∀ i, 4 * i + 4 ≤ (m.reg .r1).toNat →
        ¬ Fixed stdin stdout sp ((call .realloc m w).2.word i)) ∧
      ∀ i, 4 * i + 4 ≤ w.size → 4 * i + 4 ≤ (m.reg .r1).toNat →
        (call .realloc m w).1.mem ((call .realloc m w).2.word i) = m.mem (w.word i)
  free : ∀ {m}, m.reg .sp = sp → ∀ w, m.reg .r0 = w.base →
    (call .free m w).2.output = w.output

/-- The loads and stores through `r5` are those of words in the buffer. -/
def InBuffer (w : World) (m : Machine) : Op → Prop
  | .ldr _ .r5 offset | .str _ .r5 offset =>
    (m.reg .r5 + m.read offset - w.base).toNat + 4 ≤ w.size
  | _ => True

end Acos.ReversePrint
