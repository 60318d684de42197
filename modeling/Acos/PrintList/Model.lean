import Acos.Lib.IntBytes
import Acos.Lib.Scanf

/-! The list printers `inf08-1_files-io_print-list-posix/main.c` and
`inf10-1_posix_mmap_print-list-using-mmap/main.c`, which differ only in the way in which the bytes
of the file are reached. -/
namespace Acos.PrintList
open Acos.CString Acos.IntBytes Acos.MachineInt

structure Item where
  value : ℤ
  next_pointer : ℕ
  deriving DecidableEq, Repr

/-- `getItem`, if the file has room for an item at the position. -/
def getItem (file : Bytes) (pos : ℕ) : Option Item :=
  match file.drop pos with
  | a :: b :: c :: d :: p :: q :: r :: s :: _ =>
    some ⟨decodeInt a b c d, (u32 (decodeInt p q r s)).toNat⟩
  | _ => none

def bufferSize : ℕ := 1000

/-- `while (value)`: the digits, the last one first, with the remainder and the quotient of C. -/
def digitLoop (value : ℤ) (digits : Bytes) : Bytes :=
  if value = 0 then digits
  else digitLoop (value.tdiv 10) (digits ++ [byteOf (48 + value.tmod 10)])
termination_by value.natAbs
decreasing_by
  rw [Int.natAbs_tdiv]
  exact Nat.div_lt_self (by omega) (by decide)

/-- The characters that `print` puts into the buffer, if they fit into `digits`. -/
def printed (value : ℤ) : Option Bytes :=
  let sign := if value < 0 then [45] else []
  let value := if value < 0 then i32 (value * -1) else value
  let digits := digitLoop value (if value = 0 then [48] else [])
  if digits.length ≤ 20 then some (sign ++ digits.reverse ++ [32]) else none

/-- The buffer up to `pointer` after `print`; `none` for a write behind its end. -/
def print (buffer : Bytes) (value : ℤ) : Option Bytes := do
  let chars ← printed value
  if buffer.length + chars.length ≤ bufferSize then some (buffer ++ chars) else none

/-- `write_bytes` to a descriptor that takes at least one byte with every call: the output and the
number of calls. -/
def writeBytes (sched : ℕ → ℕ) (output : Bytes) (calls : ℕ) (buffer : Bytes) : Bytes × ℕ :=
  if buffer.length = 0 then (output, calls)
  else
    let count := min (1 + sched calls) buffer.length
    writeBytes sched (output ++ buffer.take count) (calls + 1) (buffer.drop count)
termination_by buffer.length
decreasing_by
  rw [List.length_drop]
  omega

/-- Where `main` stands: before an item is read, before the buffer is looked at, behind the loop. -/
inductive Pc where
  | item
  | check
  | rest
  | done
  deriving DecidableEq, Repr

/-- `visited` are the offsets at which items have been read. -/
structure State where
  pc : Pc
  next_pointer : ℕ
  buffer : Bytes
  output : Bytes
  calls : ℕ
  visited : List ℕ
  deriving DecidableEq

def State.init (file : Bytes) : State where
  pc := if file.length > 0 then .item else .done
  next_pointer := 0
  buffer := []
  output := []
  calls := 0
  visited := []

def State.flush (sched : ℕ → ℕ) (s : State) : State :=
  let (output, calls) := writeBytes sched s.output s.calls s.buffer
  { s with output := output, calls := calls, buffer := [] }

def step (sched : ℕ → ℕ) (file : Bytes) (s : State) : Option State :=
  match s.pc with
  | .item => do
    let item ← getItem file s.next_pointer
    let buffer ← print s.buffer item.value
    some { s with pc := .check, next_pointer := item.next_pointer, buffer := buffer,
                  visited := s.visited ++ [s.next_pointer] }
  | .check =>
    let s := if s.buffer.length > bufferSize - 30 then s.flush sched else s
    some { s with pc := if s.next_pointer ≠ 0 then .item else .rest }
  | .rest =>
    let s := if s.buffer.length > 0 then s.flush sched else s
    some { s with pc := .done }
  | .done => none

/-- The state after `n` steps. -/
def run (sched : ℕ → ℕ) (file : Bytes) : ℕ → Option State
  | 0 => some (.init file)
  | n + 1 => (run sched file n).bind (step sched file)

end Acos.PrintList
