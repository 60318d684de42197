import Acos.Lib.CString
import Mathlib.Logic.Function.Basic

/-! `inf15-4-posix_pipe_connect-n-processes-one-pipe/main.c`: a chain of programs, each of which is
launched when the one before it has ended, with the descriptors and the pipes between them. -/
namespace Acos.Pipeline
open Acos.CString

/-- What a descriptor stands for. The pipes are numbered from `1` on. -/
inductive File where
  | input
  | output
  | errors
  | reader (pipe : ℕ)
  | writer (pipe : ℕ)
  deriving DecidableEq, Repr

/-- The descriptors of a process, `none` where one is closed. -/
abbrev Table := List (Option File)

namespace Table

def get (table : Table) (fd : ℕ) : Option File := table.getD fd none

def close (table : Table) (fd : ℕ) : Table := table.set fd none

/-- Over a descriptor that the process has had from its start; a closed `old` is an error. -/
def dup2 (table : Table) (old new : ℕ) : Table :=
  match table.get old with
  | some file => table.set new (some file)
  | none => table

/-- A new descriptor is the lowest that is not in use. -/
def lowest : Table → ℕ
  | [] | none :: _ => 0
  | some _ :: table => lowest table + 1

def install (file : File) : Table → Table
  | [] => [some file]
  | none :: table => some file :: table
  | some other :: table => some other :: install file table

end Table

/-- What a program does in its own order, byte by byte, before it reads on to the end of its
input. -/
inductive Action where
  | read
  | write (byte : UInt8)
  deriving DecidableEq, Repr

def Action.byte : Action → Option UInt8
  | .read => none
  | .write byte => some byte

/-- All that a program writes. -/
def written (script : List Action) : Bytes := script.filterMap Action.byte

/-- The pipe's capacity, the standard input and the programs `argv[1]`, `argv[2]`, … -/
structure Config where
  cap : ℕ
  input : Bytes
  programs : List (List Action)

def Config.argc (c : Config) : ℕ := c.programs.length + 1

def Config.argv (c : Config) (i : ℕ) : List Action := c.programs.getD (i - 1) []

/-- Where a child of `launch_program` stands. -/
inductive ChildPc where
  | close
  | dupIn
  | dupOut
  | exec
  | running
  | zombie
  deriving DecidableEq, Repr

/-- A child has its own copies of the descriptors and of the arguments of `launch_program`. -/
structure Child where
  pc : ChildPc
  in_fd : ℕ
  right_pipe : ℕ × ℕ
  table : Table
  script : List Action
  read : Bytes

/-- Where the parent stands: in `main` up to `fork`, then in `launch_program`, then at the end of
the loop's body. -/
inductive ParentPc where
  | pipe
  | loop
  | closeLast
  | fork
  | closeIn
  | waitpid
  | closeOut
  | next
  | returned
  deriving DecidableEq, Repr

/-- `log` remembers what each program has read, in their order, and `failed` that a `fork` has
failed. -/
structure State where
  parent : ParentPc
  i : ℕ
  read_fd : ℕ
  right_pipe : ℕ × ℕ
  table : Table
  created : ℕ
  pipes : ℕ → Bytes
  source : Bytes
  printed : Bytes
  child : Option Child
  log : List Bytes
  failed : Bool

/-- `"Too few arguments\n"` -/
def tooFewArguments : Bytes :=
  [84, 111, 111, 32, 102, 101, 119, 32, 97, 114, 103, 117, 109, 101, 110, 116, 115, 10]

/-- The start of `main`, which goes on after its message too. -/
def initial (c : Config) : State where
  parent := .pipe
  i := 1
  read_fd := 0
  right_pipe := (0, 0)
  table := [some .input, some .output, some .errors]
  created := 0
  pipes := fun _ => []
  source := c.input
  printed := if c.argc < 2 then tooFewArguments else []
  child := none
  log := []
  failed := false

/-- `pipe(right_pipe)` -/
def State.pipe (s : State) : State :=
  let reader := File.reader (s.created + 1)
  let writer := File.writer (s.created + 1)
  { s with
    right_pipe := (s.table.lowest, (s.table.install reader).lowest)
    table := (s.table.install reader).install writer
    created := s.created + 1 }

/-- Some process has the file open. -/
def State.holds (s : State) (file : File) : Bool :=
  s.table.contains (some file) || s.child.any fun child => child.table.contains (some file)

/-- `read` of a byte: `none` where it blocks, no byte at the end of the file or after an error. -/
def State.read (s : State) : Option File → Option (Option UInt8 × State)
  | some .input =>
    match s.source with
    | byte :: source => some (some byte, { s with source := source })
    | [] => some (none, s)
  | some (.reader p) =>
    match s.pipes p with
    | byte :: rest => some (some byte, { s with pipes := Function.update s.pipes p rest })
    | [] => if s.holds (.writer p) then none else some (none, s)
  | _ => some (none, s)

/-- The child ends and closes what it has. -/
def State.exit (s : State) (child : Child) : State :=
  { s with
    child := some { child with pc := .zombie, table := [], script := [] }
    log := s.log ++ [child.read] }

/-- `write` of a byte: it blocks where the pipe is full, and kills a process that writes to a pipe
without readers. -/
def State.write (s : State) (cap : ℕ) (child : Child) (byte : UInt8) : Option State :=
  match child.table.get 1 with
  | some .output => some { s with printed := s.printed ++ [byte], child := some child }
  | some (.writer p) =>
    if s.holds (.reader p) then
      if (s.pipes p).length < cap then
        some { s with
          pipes := Function.update s.pipes p (s.pipes p ++ [byte]), child := some child }
      else none
    else some (s.exit child)
  | _ => some { s with child := some child }

/-- A step of the child: the child's part of `launch_program`, then the program. -/
def childStep (cap : ℕ) (s : State) (child : Child) : Option State :=
  match child.pc with
  | .close =>
    some { s with
      child := some { child with pc := .dupIn, table := child.table.close child.right_pipe.1 } }
  | .dupIn =>
    some { s with
      child := some { child with pc := .dupOut, table := child.table.dup2 child.in_fd 0 } }
  | .dupOut =>
    some { s with
      child := some { child with pc := .exec, table := child.table.dup2 child.right_pipe.2 1 } }
  | .exec => some { s with child := some { child with pc := .running } }
  | .running =>
    match child.script with
    | .write byte :: script => s.write cap { child with script := script } byte
    | .read :: script =>
      (s.read (child.table.get 0)).map fun (byte, t) =>
        { t with child := some { child with script := script, read := child.read ++ byte.toList } }
    | [] =>
      (s.read (child.table.get 0)).map fun (byte, t) =>
        match byte with
        | some byte => { t with child := some { child with read := child.read ++ [byte] } }
        | none => t.exit child
  | .zombie => none

/-- A step of the parent. -/
def parentStep (c : Config) (s : State) : Option State :=
  match s.parent with
  | .pipe => some { s.pipe with parent := .loop }
  | .loop =>
    some { s with
      parent :=
        if s.i < c.argc then if s.i = c.argc - 1 then .closeLast else .fork else .returned }
  | .closeLast =>
    some { s with
      table := s.table.close s.right_pipe.2, right_pipe := (s.right_pipe.1, 1), parent := .fork }
  | .fork =>
    some { s with
      child := some ⟨.close, s.read_fd, s.right_pipe, s.table, c.argv s.i, []⟩, parent := .closeIn }
  | .closeIn => some { s with table := s.table.close s.read_fd, parent := .waitpid }
  | .waitpid =>
    match s.child with
    | some child =>
      if child.pc = .zombie then some { s with child := none, parent := .closeOut } else none
    | none => some { s with parent := .closeOut }
  | .closeOut => some { s with table := s.table.close s.right_pipe.2, parent := .next }
  | .next => some { s.pipe with read_fd := s.right_pipe.1, i := s.i + 1, parent := .loop }
  | .returned => none

inductive Label where
  | parent
  | forkFails
  | child
  deriving DecidableEq, Repr

def next (c : Config) (s : State) : Label → Option State
  | .parent => parentStep c s
  | .forkFails =>
    if s.parent = .fork then some { s with parent := .returned, failed := true } else none
  | .child => s.child.bind (childStep c.cap s)

/-- The parent has not returned and no process can go on. -/
def Deadlock (c : Config) (s : State) : Prop := s.parent ≠ .returned ∧ ∀ l, next c s l = none

/-- What the programs are to read: the first one the standard input, and every other one all that
the one before it writes. -/
def Config.inputs (c : Config) : List Bytes :=
  (c.input :: c.programs.map written).take c.programs.length

/-- The programs that ran have read all of their input, and all of them ran unless a `fork`
failed. -/
def Complete (c : Config) (s : State) : Prop :=
  s.log <+: c.inputs ∧ (s.failed = false → s.log = c.inputs)

end Acos.Pipeline
