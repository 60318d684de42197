import Acos.ReversePrint.Model

/-! `main` of `inf04-2-asm-arm_basics_char-filter-digits/main.S`. The two routines of the C library
are those of a structure, which says what the program may rely on. -/
namespace Acos.CharFilter
open Acos.ArmText Acos.CString
open Acos.ReversePrint (charWord)

/-- The labels of the source, and the places behind a call or a jump. -/
inductive Label where
  | main | getsymbol | got | link | low | high | equal | put | again | exit_main
  deriving DecidableEq, Repr

inductive Routine where
  | fgetc | fputc
  deriving DecidableEq, Repr

def getOps (stdin : Word) : List Op := [.mov .r0 (.imm stdin), .ldr .r0 .r0 (.imm 0)]

def putOps (stdout : Word) : List Op := [.mov .r1 (.imm stdout), .ldr .r1 .r1 (.imm 0)]

/-- `stdin` and `stdout` are the addresses of the variables, `behind` is that of the instruction
behind `bleq`. -/
def code (stdin stdout behind : Word) : Label → Block Label Routine
  | .main => ⟨[.push [.lr]], .b .getsymbol⟩
  | .getsymbol => ⟨getOps stdin, .bl .fgetc .got⟩
  | .got => ⟨[.cmp .r0 (.imm (-1))], .bc .eq .link .low⟩
  -- `bleq` puts an address into `lr`, and `exit_main` never goes back to it
  | .link => ⟨[.mov .lr (.imm behind)], .b .exit_main⟩
  | .low => ⟨[.cmp .r0 (.imm 48)], .bc .lt .getsymbol .high⟩
  -- `bgt` is taken where neither of the two tests holds
  | .high => ⟨[.cmp .r0 (.imm 58)], .bc .lt .put .equal⟩
  | .equal => ⟨[], .bc .eq .put .getsymbol⟩
  | .put => ⟨putOps stdout, .bl .fputc .again⟩
  | .again => ⟨[], .b .getsymbol⟩
  | .exit_main => ⟨[.pop [.lr]], .bx⟩

/-- What is still to be read, and what has been written. -/
structure World where
  input : Bytes
  output : Bytes

/-- The routines, for calls with the stack pointer `sp`. The procedure call standard keeps `r4` to
`r11` and the word on the stack. -/
structure Library (stdin stdout sp : Word) where
  call : Routines Routine World
  saved : ∀ {m}, m.reg .sp = sp → ∀ routine w,
    ∀ r ∈ [Reg.r4, .r5, .r6, .r7, .r8, .r9, .r10, .r11, .sp], (call routine m w).1.reg r = m.reg r
  frame : ∀ {m}, m.reg .sp = sp → ∀ routine w, (call routine m w).1.mem sp = m.mem sp
  fgetc : ∀ {m}, m.reg .sp = sp → m.reg .r0 = m.mem stdin → ∀ w,
    (call .fgetc m w).1.reg .r0 = w.input.head?.elim (-1) charWord ∧
      (call .fgetc m w).2 = { w with input := w.input.tail }
  fputc : ∀ {m}, m.reg .sp = sp → m.reg .r1 = m.mem stdout → ∀ w,
    (call .fputc m w).2 = { w with output := w.output ++ [UInt8.ofNat (m.reg .r0).toNat] }

/-- No access needs a check. -/
def Unchecked (_ : World) (_ : Machine) (_ : Op) : Prop := True

/-- What the two comparisons leave: the second is with 58, not 57. -/
def passes (c : UInt8) : Bool := 48 ≤ c && c ≤ 58

end Acos.CharFilter
