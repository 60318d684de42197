import Acos.Lib.Buffer
import Acos.Lib.MachineInt
import Acos.Lib.Scanf

/-! `inf10-2_posix_mmap_make-spiral-file/main.c`. The mapped file is a list of bytes and an address
in it a position, so that a store outside the mapping has no result. As the conversions to
`int` agree with sums and products, one of them stands for those of a whole expression. -/
namespace Acos.MakeSpiral
open Acos.CString Acos.MachineInt Acos.Scanf

/-- What `sprintf` prints for `%d`. -/
def printInt (value : ℤ) : Bytes :=
  if value < 0 then 45 :: decimal value.natAbs else decimal value.natAbs

def storeAt (file : Bytes) (pos : ℤ) (bytes : Bytes) : Option Bytes :=
  if 0 ≤ pos then Buffer.store file pos.toNat bytes else none

/-- One pass of the loop of `write_line`. -/
def writeValue (start step cell_size begin_value : ℤ) (file : Bytes) (i : ℕ) : Option Bytes :=
  let str := printInt (i32 (i + begin_value))
  let len := str.length
  storeAt file (start + i32 (i * step) + i32 (cell_size - len)) str

/-- `write_line` with its `begin` as a position in the file. -/
def writeLine (file : Bytes) (start step cell_size count begin_value : ℤ) : Option Bytes :=
  (List.range count.toNat).foldlM (writeValue start step cell_size begin_value) file

/-- One pass of the first loop of `write_spiral`. -/
def clearByte (N W : ℤ) (file : Bytes) (i : ℕ) : Option Bytes := do
  let file ← storeAt file i [32]
  if Int.tmod i (i32 (N * W + 1)) = i32 (N * W) then storeAt file i [10] else some file

/-- The first loop of `write_spiral`. -/
def clear (file : Bytes) (f_size N W : ℤ) : Option Bytes :=
  (List.range f_size.toNat).foldlM (clearByte N W) file

/-- The second loop of `write_spiral`, with `file` at position `pos` by now. -/
def drawRings (file : Bytes) (pos file_width W value line_len : ℤ) : Option Bytes :=
  if 0 < line_len then do
    let file ← writeLine file pos W W line_len value
    let file ← writeLine file (pos + i32 ((line_len - 1) * W) + file_width) file_width W
      (line_len - 1) (i32 (value + line_len))
    let file ← writeLine file (pos + i32 ((line_len - 2) * W) + i32 (file_width * (line_len - 1)))
      (i32 (-W)) W (line_len - 1) (i32 (value + line_len * 2 - 1))
    let file ← writeLine file (pos + i32 (file_width * (line_len - 1))) (i32 (-file_width)) W
      (line_len - 1) (i32 (value + line_len * 3 - 3))
    drawRings file (pos + i32 (file_width + W)) file_width W (i32 (value + line_len * 4 - 4))
      (line_len - 2)
  else some file
termination_by line_len.toNat

def writeSpiral (file : Bytes) (f_size N W : ℤ) : Option Bytes := do
  let file ← clear file f_size N W
  drawRings file 0 (i32 (N * W + 1)) W 1 N

end Acos.MakeSpiral
