import Acos.Lib.X86

/-! `mergesort` and `merge__` of `inf05-2: asm-x86_mergesort/asm.S`, cut into basic blocks. Parts
that the compiler wrote out twice are lists of instructions with parameters. -/
namespace Acos.AsmMergesort
open Acos.X86

/-- The labels of the source. The other blocks are named after the one before them. -/
inductive Label where
  | mergesort | mergesort_jg | mergesort_one
  | split_recursive | split_right | split_merge
  | exit_merge
  | merge__
  | L2 | L2_probe | L3 | L3_touch | L4
  | L5 | L5_probe | L6 | L6_touch | L7
  | L9 | L8 | L8_exit
  | L11 | L10 | L10_exit
  | L16 | L16_left | L13 | L14 | L12 | L12_right | L12_exit
  | L18 | L17 | L17_exit
  | L20 | L19 | L19_exit | L19_fail | L21
  deriving DecidableEq, Repr

/-- A number in the frame, `d` bytes below `rbp`. -/
def slot (d : ℕ) : Operand := .mem ⟨some .rbp, none, 1, -d⟩

/-- The register `r` as a pointer. -/
@[simp] def deref (r : Reg) : Operand := .mem ⟨some r, none, 1, 0⟩

/-- The element of an array of `int`. -/
@[simp] def element (array index : Reg) : Operand := .mem ⟨some array, some index, 4, 0⟩

/-- `4 * index` as an address. -/
@[simp] def scaled (index : Reg) : Addr := ⟨none, some index, 4, 0⟩

def mergesort : List Op := [
  .push .rbp,
  .mov .qword (.reg .rbp) (.reg .rsp),
  .push .rdi,
  .push .rsi,
  .push .rcx,
  .push .rdx,
  .cmp .qword (.reg .rdi) (.reg .rsi)]

/-- `out[from] = in[from]`. -/
def mergesort_one : List Op := [
  .mov .dword (.reg .rax) (element .rdx .rdi),
  .mov .dword (element .rcx .rdi) (.reg .rax)]

/-- `to` becomes `(from + to) / 2`. -/
def split_recursive : List Op := [
  .alu .add .qword (.reg .rsi) (.reg .rdi),
  .alu .shr .qword (.reg .rsi) (.imm 1)]

def split_right : List Op := [
  .mov .qword (.reg .rdi) (.reg .rsi),
  .alu .add .qword (.reg .rdi) (.imm 1),
  .mov .qword (.reg .rsi) (slot 16)]

def split_merge : List Op := [.mov .qword (.reg .rdi) (slot 8)]

def exit_merge : List Op := [.pop .rdx, .pop .rcx, .pop .rsi, .pop .rdi, .leave]

/-- The start of `merge__`; the first instruction is `endbr64`. -/
def enter : List Op := [
  .nop,
  .push .rbp,
  .mov .qword (.reg .rbp) (.reg .rsp),
  .push .r15,
  .push .r14,
  .push .r13,
  .push .r12,
  .alu .sub .qword (.reg .rsp) (.imm 112)]

/-- The arguments and the canary. -/
def arguments : List Op := [
  .mov .dword (slot 116) (.reg .rdi),
  .mov .dword (slot 120) (.reg .rsi),
  .mov .qword (slot 128) (.reg .rdx),
  .mov .qword (slot 136) (.reg .rcx),
  .mov .qword (.reg .rax) (.fs 40),
  .mov .qword (slot 40) (.reg .rax),
  .alu .xor .dword (.reg .rax) (.reg .rax),
  .mov .qword (.reg .rax) (.reg .rsp),
  .mov .qword (.reg .rsi) (.reg .rax)]

/-- `q = (p + r) / 2`, rounded towards zero. -/
def midpoint : List Op := [
  .mov .dword (.reg .rax) (slot 116),
  .mov .dword (slot 92) (.reg .rax),
  .mov .dword (.reg .rax) (slot 120),
  .mov .dword (slot 88) (.reg .rax),
  .mov .dword (.reg .rdx) (slot 92),
  .mov .dword (.reg .rax) (slot 88),
  .alu .add .dword (.reg .rax) (.reg .rdx),
  .mov .dword (.reg .rdx) (.reg .rax),
  .alu .shr .dword (.reg .rdx) (.imm 31),
  .alu .add .dword (.reg .rax) (.reg .rdx),
  .alu .sar .dword (.reg .rax) (.imm 1),
  .mov .dword (slot 84) (.reg .rax)]

/-- `n1 = q - p + 1` and `n2 = r - q`. -/
def counts : List Op := [
  .mov .dword (.reg .rax) (slot 84),
  .alu .sub .dword (.reg .rax) (slot 92),
  .alu .add .dword (.reg .rax) (.imm 1),
  .mov .dword (slot 80) (.reg .rax),
  .mov .dword (.reg .rax) (slot 88),
  .alu .sub .dword (.reg .rax) (slot 84),
  .mov .dword (slot 76) (.reg .rax)]

/-- The size of a local array, in `rax`, and where the stack ends after its whole pages, in `rdx`.
The registers `a` to `d` are not used later. -/
def allocate (count last : ℕ) (a b c d : Reg) : List Op := [
  .mov .dword (.reg .rax) (slot count),
  .movsx .rdx .rax,
  .alu .sub .qword (.reg .rdx) (.imm 1),
  .mov .qword (slot last) (.reg .rdx),
  .movsx .rdx .rax,
  .mov .qword (.reg a) (.reg .rdx),
  .mov .dword (.reg b) (.imm 0),
  .movsx .rdx .rax,
  .mov .qword (.reg c) (.reg .rdx),
  .mov .dword (.reg d) (.imm 0),
  .movsx .rax .rax,
  .lea .qword .rdx (scaled .rax),
  .mov .dword (.reg .rax) (.imm 16),
  .alu .sub .qword (.reg .rax) (.imm 1),
  .alu .add .qword (.reg .rax) (.reg .rdx),
  .mov .dword (.reg .rdi) (.imm 16),
  .mov .dword (.reg .rdx) (.imm 0),
  .div .rdi,
  .imul .rax .rax 16,
  .mov .qword (.reg .rdx) (.reg .rax),
  .alu .and .qword (.reg .rdx) (.imm (-4096)),
  .mov .qword (.reg .rdi) (.reg .rsp),
  .alu .sub .qword (.reg .rdi) (.reg .rdx),
  .mov .qword (.reg .rdx) (.reg .rdi)]

def allPages : List Op := [.cmp .qword (.reg .rsp) (.reg .rdx)]

/-- One more page, which is touched. -/
def probe : List Op := [
  .alu .sub .qword (.reg .rsp) (.imm 4096),
  .alu .or .qword (.mem ⟨some .rsp, none, 1, 4088⟩) (.imm 0)]

/-- What is left of the array is less than a page. -/
def lastPage : List Op := [
  .mov .qword (.reg .rdx) (.reg .rax),
  .alu .and .dword (.reg .rdx) (.imm 4095),
  .alu .sub .qword (.reg .rsp) (.reg .rdx),
  .mov .qword (.reg .rdx) (.reg .rax),
  .alu .and .dword (.reg .rdx) (.imm 4095),
  .test .qword (.reg .rdx) (.reg .rdx)]

def touch : List Op := [
  .alu .and .dword (.reg .rax) (.imm 4095),
  .alu .sub .qword (.reg .rax) (.imm 8),
  .alu .add .qword (.reg .rax) (.reg .rsp),
  .alu .or .qword (deref .rax) (.imm 0)]

/-- The array starts at the next multiple of 4. -/
def placeArray (array : ℕ) : List Op := [
  .mov .qword (.reg .rax) (.reg .rsp),
  .alu .add .qword (.reg .rax) (.imm 3),
  .alu .shr .qword (.reg .rax) (.imm 2),
  .alu .shl .qword (.reg .rax) (.imm 2),
  .mov .qword (slot array) (.reg .rax)]

def clear (counter : ℕ) : List Op := [.mov .dword (slot counter) (.imm 0)]

/-- The comparison of a counter with the size of its array. -/
def compareCounter (counter count : ℕ) : List Op := [
  .mov .dword (.reg .rax) (slot counter),
  .cmp .dword (.reg .rax) (slot count)]

/-- The sum of `p` or `q` and a counter. -/
def sourceIndex (start counter : ℕ) : List Op := [
  .mov .dword (.reg .rdx) (slot start),
  .mov .dword (.reg .rax) (slot counter),
  .alu .add .dword (.reg .rax) (.reg .rdx),
  .movsx .rax .rax]

/-- A local array gets the element of `A` with the index in `rax`. -/
def fill (counter array : ℕ) : List Op := [
  .lea .qword .rdx (scaled .rax),
  .mov .qword (.reg .rax) (slot 136),
  .alu .add .qword (.reg .rax) (.reg .rdx),
  .mov .dword (.reg .rcx) (deref .rax),
  .mov .qword (.reg .rax) (slot array),
  .mov .dword (.reg .rdx) (slot counter),
  .movsx .rdx .rdx,
  .mov .dword (element .rax .rdx) (.reg .rcx),
  .alu .add .dword (slot counter) (.imm 1)]

/-- `k = p`, and both counters at the start. -/
def startMerge : List Op := clear 96 ++ clear 100 ++ [
  .mov .dword (.reg .rax) (slot 92),
  .mov .dword (slot 104) (.reg .rax)]

/-- The comparison of `L[i]` and `R[j]`. -/
def compareHeads : List Op := [
  .mov .qword (.reg .rax) (slot 64),
  .mov .dword (.reg .rdx) (slot 96),
  .movsx .rdx .rdx,
  .mov .dword (.reg .rcx) (element .rax .rdx),
  .mov .qword (.reg .rax) (slot 48),
  .mov .dword (.reg .rdx) (slot 100),
  .movsx .rdx .rdx,
  .mov .dword (.reg .rax) (element .rax .rdx),
  .cmp .dword (.reg .rcx) (.reg .rax)]

/-- A counter is advanced; its old value is left in `eax`. -/
def advance (counter : ℕ) : List Op := [
  .mov .dword (.reg .rax) (slot counter),
  .lea .dword .rdx ⟨some .rax, none, 1, 1⟩,
  .mov .dword (slot counter) (.reg .rdx)]

/-- The element of a local array with the index in `eax` goes to the place of `A` with the index in
`edx`. -/
def put (array : ℕ) : List Op := [
  .movsx .rdx .rdx,
  .lea .qword .rcx (scaled .rdx),
  .mov .qword (.reg .rdx) (slot 136),
  .alu .add .qword (.reg .rcx) (.reg .rdx),
  .mov .qword (.reg .rdx) (slot array),
  .movsx .rax .rax,
  .mov .dword (.reg .rax) (element .rdx .rax),
  .mov .dword (deref .rcx) (.reg .rax)]

/-- `A[k] = X[i++]`; `k` is advanced in the block behind. -/
def take (counter array : ℕ) : List Op :=
  advance counter ++ [.mov .dword (.reg .rdx) (slot 104)] ++ put array

/-- `A[k++] = X[i++]`. -/
def takeRest (counter array : ℕ) : List Op :=
  advance counter ++
    [.mov .dword (.reg .rdx) (slot 104),
     .lea .dword .rcx ⟨some .rdx, none, 1, 1⟩,
     .mov .dword (slot 104) (.reg .rcx)] ++ put array

/-- The stack without the arrays, and the comparison of the canary. -/
def checkCanary : List Op := [
  .mov .qword (.reg .rsp) (.reg .rsi),
  .nop,
  .mov .qword (.reg .rax) (slot 40),
  .alu .xor .qword (.reg .rax) (.fs 40)]

def leaveMerge : List Op := [
  .lea .qword .rsp ⟨some .rbp, none, 1, -32⟩,
  .pop .r12,
  .pop .r13,
  .pop .r14,
  .pop .r15,
  .pop .rbp]

def code : Label → Block Label
  | .mergesort => ⟨mergesort, .jcc .l .split_recursive .mergesort_jg⟩
  | .mergesort_jg => ⟨[], .jcc .g .exit_merge .mergesort_one⟩
  | .mergesort_one => ⟨mergesort_one, .jmp .exit_merge⟩
  | .split_recursive => ⟨split_recursive, .call .mergesort .split_right⟩
  | .split_right => ⟨split_right, .call .mergesort .split_merge⟩
  | .split_merge => ⟨split_merge, .call .merge__ .exit_merge⟩
  | .exit_merge => ⟨exit_merge, .ret⟩
  | .merge__ =>
    ⟨enter ++ arguments ++ midpoint ++ counts ++ allocate 80 72 .r14 .r15 .r12 .r13, .jmp .L2⟩
  | .L2 => ⟨allPages, .jcc .e .L3 .L2_probe⟩
  | .L2_probe => ⟨probe, .jmp .L2⟩
  | .L3 => ⟨lastPage, .jcc .e .L4 .L3_touch⟩
  | .L3_touch => ⟨touch, .jmp .L4⟩
  | .L4 => ⟨placeArray 64 ++ allocate 76 56 .r10 .r11 .r8 .r9, .jmp .L5⟩
  | .L5 => ⟨allPages, .jcc .e .L6 .L5_probe⟩
  | .L5_probe => ⟨probe, .jmp .L5⟩
  | .L6 => ⟨lastPage, .jcc .e .L7 .L6_touch⟩
  | .L6_touch => ⟨touch, .jmp .L7⟩
  | .L7 => ⟨placeArray 48 ++ clear 96, .jmp .L8⟩
  | .L9 => ⟨sourceIndex 92 96 ++ fill 96 64, .jmp .L8⟩
  | .L8 => ⟨compareCounter 96 80, .jcc .l .L9 .L8_exit⟩
  | .L8_exit => ⟨clear 100, .jmp .L10⟩
  | .L11 =>
    ⟨sourceIndex 84 100 ++ [.alu .add .qword (.reg .rax) (.imm 1)] ++ fill 100 48, .jmp .L10⟩
  | .L10 => ⟨compareCounter 100 76, .jcc .l .L11 .L10_exit⟩
  | .L10_exit => ⟨startMerge, .jmp .L12⟩
  | .L16 => ⟨compareHeads, .jcc .ge .L13 .L16_left⟩
  | .L16_left => ⟨take 96 64, .jmp .L14⟩
  | .L13 => ⟨take 100 48, .jmp .L14⟩
  | .L14 => ⟨[.alu .add .dword (slot 104) (.imm 1)], .jmp .L12⟩
  | .L12 => ⟨compareCounter 96 80, .jcc .ge .L17 .L12_right⟩
  | .L12_right => ⟨compareCounter 100 76, .jcc .l .L16 .L12_exit⟩
  | .L12_exit => ⟨[], .jmp .L17⟩
  | .L18 => ⟨takeRest 96 64, .jmp .L17⟩
  | .L17 => ⟨compareCounter 96 80, .jcc .l .L18 .L17_exit⟩
  | .L17_exit => ⟨[], .jmp .L19⟩
  | .L20 => ⟨takeRest 100 48, .jmp .L19⟩
  | .L19 => ⟨compareCounter 100 76, .jcc .l .L20 .L19_exit⟩
  | .L19_exit => ⟨checkCanary, .jcc .e .L21 .L19_fail⟩
  | .L19_fail => ⟨[], .abort⟩
  | .L21 => ⟨leaveMerge, .ret⟩

end Acos.AsmMergesort
