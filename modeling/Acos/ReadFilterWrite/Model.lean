import Acos.Lib.CString
import Acos.Lib.PosixFile

/-! The filter of `inf08-0_files-io_read-filter-write/main.c`, which puts the digits of a file into
one file and its other bytes into another. `fuel` bounds the rounds of a loop. -/
namespace Acos.ReadFilterWrite
open Acos.CString Acos.PosixFile

def buffer_size : ℕ := 1000

/-- How much each transfer moves, and which of them fail. -/
structure Kernel where
  sched : ℕ → ℕ
  fails : ℕ → Bool

/-- `read`; `none` is the value -1. -/
def Kernel.read (k : Kernel) (w : World) (fd n : ℕ) : World × Option Bytes :=
  if k.fails w.calls then ({ w with calls := w.calls + 1 }, none)
  else
    let (w, bytes) := w.read k.sched fd n
    (w, some bytes)

/-- `write`; `none` is the value -1. -/
def Kernel.write (k : Kernel) (w : World) (fd : ℕ) (bytes : Bytes) : World × Option ℕ :=
  if k.fails w.calls then ({ w with calls := w.calls + 1 }, none)
  else
    let (w, written) := w.write k.sched fd bytes
    (w, some written)

/-- The rounds of `read_bytes` for the `count` bytes that are missing; `some (w, none)` is the
value -1. -/
def readLoop (k : Kernel) (fd : ℕ) : ℕ → World → ℕ → Option (World × Option Bytes)
  | _, w, 0 => some (w, some [])
  | 0, _, _ => none
  | fuel + 1, w, count + 1 =>
    match k.read w fd (count + 1) with
    | (w, none) => some (w, none)
    | (w, some chunk) =>
      if chunk = [] then some (w, some [])
      else (readLoop k fd fuel w (count + 1 - chunk.length)).map fun (w, bytes) =>
        (w, bytes.map (chunk ++ ·))

def readBytes (k : Kernel) (fd : ℕ) (w : World) (bytes_to_read : ℕ) :
    Option (World × Option Bytes) :=
  readLoop k fd bytes_to_read w bytes_to_read

/-- The rounds of `write_bytes` for the bytes that are left, and whether they are all written. -/
def writeLoop (k : Kernel) (fd : ℕ) : ℕ → World → Bytes → Option (World × Bool)
  | _, w, [] => some (w, true)
  | 0, _, _ => none
  | fuel + 1, w, byte :: bytes =>
    match k.write w fd (byte :: bytes) with
    | (w, none) => some (w, false)
    | (w, some written) => writeLoop k fd fuel w ((byte :: bytes).drop written)

def writeBytes (k : Kernel) (fd : ℕ) (w : World) (buffer : Bytes) : Option (World × Bool) :=
  writeLoop k fd buffer.length w buffer

/-- One byte of `read_buffer` goes to `digits_buffer` or to `other_buffer`. -/
def splitByte : Bytes × Bytes → UInt8 → Bytes × Bytes
  | (digits_buffer, other_buffer), c =>
    if isdigit c then (digits_buffer ++ [c], other_buffer)
    else (digits_buffer, other_buffer ++ [c])

/-- The loop over `read_buffer`. -/
def split (read_buffer : Bytes) : Bytes × Bytes := read_buffer.foldl splitByte ([], [])

def input_file : ℕ := 3
def output_digits : ℕ := 4
def output_other : ℕ := 5

/-- The loop of `main`, with its exit code. -/
def mainLoop (k : Kernel) : ℕ → World → Option (World × ℕ)
  | 0, _ => none
  | fuel + 1, w => do
    let (w, read_status) ← readBytes k input_file w buffer_size
    match read_status with
    | none => some (w, 3)
    | some read_buffer =>
      if read_buffer = [] then some (w, 0)
      else
        let (digits_buffer, other_buffer) := split read_buffer
        let (w, written) ← writeBytes k output_digits w digits_buffer
        if !written then some (w, 3)
        else
          let (w, written) ← writeBytes k output_other w other_buffer
          if !written then some (w, 3) else mainLoop k fuel w

def ENOENT : ℕ := 2

/-- What the calls of `open` answer: the error for the input, if any, and whether the outputs are
opened. -/
structure Opens where
  input : Option ℕ
  digits : Bool
  other : Bool

/-- The three files before they are read or written: `O_CREAT` without `O_TRUNC` keeps what an
output holds. -/
def opened (input digits other : Bytes) : World where
  files fd :=
    if fd = input_file then ⟨input, 0⟩
    else if fd = output_digits then ⟨digits, 0⟩
    else if fd = output_other then ⟨other, 0⟩
    else ⟨[], 0⟩
  calls := 0

/-- `main`, with the files after it and its exit code. -/
def main (k : Kernel) (fuel argc : ℕ) (opens : Opens) (w : World) : Option (World × ℕ) :=
  if argc < 3 then some (w, 3)
  else
    match opens.input with
    | some errno => some (w, if errno = ENOENT then 1 else 3)
    | none => if !opens.digits || !opens.other then some (w, 2) else mainLoop k fuel w

end Acos.ReadFilterWrite
