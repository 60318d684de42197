import Acos.Lib.MachineInt
import Acos.Lib.Scanf

/-! The loop of `inf15-2_posix_pipe_process-gcc-output-2/main.c` over the lines that the compiler
prints. -/
namespace Acos.GccOutput
open Acos.CString Acos.MachineInt Acos.Scanf

/-- What `getline` leaves in its buffer: the line, the terminator and whatever is behind it. -/
structure Line where
  text : Bytes
  after : Bytes

def Line.buffer (line : Line) : Bytes := line.text ++ 0 :: line.after

/-- `error`. -/
def errorText : Bytes := [101, 114, 114, 111, 114]

/-- `warning`. -/
def warningText : Bytes := [119, 97, 114, 110, 105, 110, 103]

/-- The number of a line that starts with the name of the program, and the text at `line_ptr` after
the second number; `none` where the loop goes on with the next line. -/
def message (program_name buffer : Bytes) : Option (ℤ × Bytes) :=
  if strncmpEq buffer program_name program_name.length then
    let (number, line_ptr) := strtol (buffer.drop (program_name.length + 1))
    let str_no := i32 number
    if str_no = 0 then none
    else
      let (_, line_ptr) := strtol (line_ptr.drop 1)
      some (str_no, line_ptr.drop 2)
  else none

structure Counters where
  error_lines : ℤ
  warning_lines : ℤ
  last_err_no : ℤ
  last_warn_no : ℤ

/-- The body of the loop. -/
def countLine (program_name : Bytes) (c : Counters) (line : Line) : Counters :=
  match message program_name line.buffer with
  | none => c
  | some (str_no, line_ptr) =>
    let c :=
      if strncmpEq line_ptr errorText 5 then
        { c with
          error_lines := i32 (c.error_lines + if str_no ≠ c.last_err_no then 1 else 0)
          last_err_no := str_no }
      else c
    if strncmpEq line_ptr warningText 7 then
      { c with
        warning_lines := i32 (c.warning_lines + if str_no ≠ c.last_warn_no then 1 else 0)
        last_warn_no := str_no }
    else c

/-- The two numbers that `main` prints. -/
def printed (program_name : Bytes) (lines : List Line) : ℤ × ℤ :=
  let c := lines.foldl (countLine program_name) ⟨0, 0, -1, -1⟩
  (c.error_lines, c.warning_lines)

end Acos.GccOutput
