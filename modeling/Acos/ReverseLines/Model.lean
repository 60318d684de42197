import Acos.Lib.Buffer
import Acos.Lib.MachineInt
import Acos.Lib.Transition

/-! `_start` of `inf07-3_asm-x86_syscalls_reverse-print-lines/main.s`. A step is what is between two
labels, or a call of `read`; there is no step where memory outside the heap is accessed. -/
namespace Acos.ReverseLines
open Acos.CString Acos.MachineInt

/-- What the second call of `brk` adds to the heap. -/
def heapSize : ℕ := 40000000

inductive Pc where
  | start
  | read_begin
  | strip_spaces
  | find_newline_begin
  | exit
  deriving DecidableEq

/-- The registers that are used for addresses, and the heap from `rbp` on. -/
structure State where
  rbp : ℕ
  rsp : ℕ
  rbx : ℕ
  heap : Bytes
  input : Bytes
  output : Bytes
  pc : Pc

/-- The heap is allocated. -/
def initial (base : ℕ) (heap input : Bytes) : State where
  rbp := base
  rsp := base
  rbx := 0
  heap := heap
  input := input
  output := []
  pc := .start

def inc (r : ℕ) : ℕ := (r + 1) % 2 ^ 64

def dec (r : ℕ) : ℕ := (r + (2 ^ 64 - 1)) % 2 ^ 64

/-- The eight bytes of the number 10. -/
def newlineWord : Bytes := [10, 0, 0, 0, 0, 0, 0, 0]

def State.load (s : State) (addr n : ℕ) : Option Bytes :=
  if s.rbp ≤ addr then Buffer.load s.heap (addr - s.rbp) n else none

def State.store (s : State) (addr : ℕ) (bytes : Bytes) : Option State :=
  if s.rbp ≤ addr then
    (Buffer.store s.heap (addr - s.rbp) bytes).map fun heap => { s with heap := heap }
  else none

def start (s : State) : Option State :=
  (s.store s.rbp newlineWord).map fun s => { s with rsp := inc s.rsp, pc := .read_begin }

/-- What follows the call of `read`, whose value is in `rax`. -/
def afterRead (s : State) (rax : ℤ) : State :=
  if rax < 0 then { s with pc := .strip_spaces }
  else
    { s with
      rsp := (s.rsp + rax.toNat) % 2 ^ 64
      pc := if rax ≠ 0 then .read_begin else .strip_spaces }

/-- `read` gives at least one byte, unless the input is at its end. -/
def readBegin (s : State) (count : ℕ) : Option State :=
  if count ≤ min 10000 s.input.length ∧ (count = 0 ↔ s.input = []) ∧
      (s.load s.rsp 10000).isSome then
    (s.store s.rsp (s.input.take count)).map fun s =>
      afterRead { s with input := s.input.drop count } count
  else none

def stripSpaces (s : State) : Option State :=
  let rsp := dec s.rsp
  if i64 rsp ≤ i64 s.rbp then some { s with rsp := rsp, pc := .exit }
  else
    (s.load rsp 1).bind fun byte =>
      if byte = [10] then some { s with rsp := rsp }
      else if byte = [32] then some { s with rsp := rsp }
      else
        let rsp := inc rsp
        (s.store rsp newlineWord).map fun s =>
          { s with rsp := rsp, rbx := rsp, pc := .find_newline_begin }

/-- `write` takes all the bytes. -/
def findNewline (s : State) : Option State :=
  let rbx := dec s.rbx
  (s.load rbx 1).bind fun byte =>
    if byte ≠ [10] then some { s with rbx := rbx }
    else
      let rcx := (s.rsp + (2 ^ 64 - rbx)) % 2 ^ 64
      (s.load (inc rbx) rcx).map fun line =>
        { s with
          rbx := rbx
          rsp := rbx
          output := s.output ++ line
          pc := if i64 s.rbp < i64 rbx then .find_newline_begin else .exit }

inductive Label where
  | read (count : ℕ)
  | step
  deriving DecidableEq

def next (s : State) (l : Label) : Option State :=
  match s.pc, l with
  | .start, .step => start s
  | .read_begin, .read count => readBegin s count
  | .strip_spaces, .step => stripSpaces s
  | .find_newline_begin, .step => findNewline s
  | _, _ => none

end Acos.ReverseLines
