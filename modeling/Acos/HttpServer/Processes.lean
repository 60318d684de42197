import Acos.HttpServer.Request
import Acos.Lib.Transition
import Mathlib.Logic.Function.Basic

/-! The processes of the HTTP server that executes files: the server, the children it
forks, and the signals that they handle. -/
namespace Acos.HttpServer
open Acos.CString

inductive Func where
  | execute_file
  | make_response
  | handle_request
  deriving DecidableEq, Repr

/-- Where the code of the server stands. `returned f v` is the caller of `f` taking its
value, `replaced` is another program's image after `execl`. -/
inductive Pc where
  | checkStop
  | accept
  | readRequest
  | stat (filepath : Bytes)
  | pipe (filepath : Bytes)
  | fork (filepath : Bytes) (readEnd : ℕ)
  | exec (filepath : Bytes)
  | storeChild (child : ℤ) (readEnd : ℕ)
  | openFile (filepath : Bytes)
  | copyFile
  | returned (f : Func) (value : ℤ)
  | replaced
  | zombie
  deriving DecidableEq, Repr

structure Process where
  forked : Bool
  parent : ℤ
  pc : Pc
  must_stop_server : Bool
  current_child_pid : ℤ
  deriving DecidableEq, Repr

/-- The process table; a process that has been waited for is gone from it. -/
abbrev Table := ℤ → Option Process

/-- The server before its accept loop, as process `server`. -/
def initial (server : ℤ) : Table :=
  Function.update (fun _ => none) server
    (some { forked := false, parent := 0, pc := .checkStop, must_stop_server := false,
            current_child_pid := -1 })

inductive StatResult where
  | failed
  | found (st_mode : ℕ)
  deriving DecidableEq, Repr

def S_IRUSR : ℕ := 0o400
def S_IXUSR : ℕ := 0o100

/-- One step of the server's code, with the outcome of the system call made in it. -/
inductive Act where
  | checkStop
  | accept (ok : Bool)
  | recv (chunks : List (Option Bytes))
  | stat (result : StatResult)
  | pipe (readEnd : Option ℕ)
  | forkFailed
  | exec (ok : Bool)
  | storeChild
  | openFile (ok : Bool)
  | copyFile (status : ℤ)
  | ret
  deriving DecidableEq

/-- `filename` without a slash at its start. -/
def skipSlash : Bytes → Bytes
  | 47 :: rest => rest
  | filename => filename

theorem skipSlash_length (filename : Bytes) :
    (skipSlash filename).length ≤ filename.length ∧
      filename.length ≤ (skipSlash filename).length + 1 := by
  unfold skipSlash
  split
  · exact ⟨Nat.le_succ _, le_rfl⟩
  · exact ⟨le_rfl, Nat.le_succ _⟩

/-- `make_response` up to the call of `stat`. -/
def makeResponse (base_path filename : Bytes) : Pc :=
  let filename := skipSlash filename
  if filename.length < 1 then .returned .make_response (-1)
  else .stat (base_path ++ 47 :: filename)

/-- `handle_request` up to the call of `stat`, once `read_request` has its value. -/
def handleRequest (base_path : Bytes) (request : ℤ × Bytes) : Pc :=
  if request.1 ≤ 0 then .returned .handle_request (-1)
  else
    match readRequestHead request.2 with
    | none => .returned .handle_request (-1)
    | some filename => makeResponse base_path filename

/-- The branches of `make_response` on the result of `stat`. -/
def afterStat (filepath : Bytes) : StatResult → Pc
  | .failed => .returned .make_response 0
  | .found st_mode =>
    if st_mode &&& S_IRUSR = 0 then .returned .make_response 0
    else if st_mode &&& S_IXUSR ≠ 0 then .pipe filepath
    else .openFile filepath

/-- Where the caller of a function goes on with its value. -/
def afterReturn : Func → ℤ → Pc
  | .execute_file, output_fd => if output_fd = -1 then .returned .make_response (-1) else .copyFile
  | .make_response, value => .returned .handle_request (if value = -1 then -1 else 0)
  | .handle_request, _ => .checkStop

/-- A step of one process that concerns no other. -/
def act (base_path : Bytes) (p : Process) (a : Act) : Option Process :=
  match p.pc, a with
  | .checkStop, .checkStop =>
    some { p with pc := if p.must_stop_server then .zombie else .accept }
  | .accept, .accept ok => some { p with pc := if ok then .readRequest else .checkStop }
  | .readRequest, .recv chunks =>
    if chunks.all fun c => (c.getD []).length ≤ buffer_size then
      (readRequest chunks []).map fun request => { p with pc := handleRequest base_path request }
    else none
  | .stat filepath, .stat result => some { p with pc := afterStat filepath result }
  | .pipe _, .pipe none => some { p with pc := .returned .execute_file (-1) }
  | .pipe filepath, .pipe (some readEnd) => some { p with pc := .fork filepath readEnd }
  | .fork _ readEnd, .forkFailed => some { p with pc := .storeChild (-1) readEnd }
  | .exec _, .exec ok =>
    some { p with pc := if ok then .replaced else .returned .execute_file (-1) }
  | .storeChild child readEnd, .storeChild =>
    some { p with current_child_pid := child, pc := .returned .execute_file readEnd }
  -- `copy_file` cannot read from the descriptor -1
  | .openFile _, .openFile ok =>
    some { p with pc := if ok then .copyFile else .returned .make_response (-1) }
  | .copyFile, .copyFile status =>
    if status = 0 ∨ status = -1 then some { p with pc := .returned .make_response status } else none
  | .returned f value, .ret => some { p with pc := afterReturn f value }
  | _, _ => none

/-- `interrupt` and `childExited` run `signal_handler` between two steps of the code: for
`SIGINT`, `SIGTERM` or `SIGABRT`, and for `SIGCHLD`. Their last argument is what the call of
`wait` or `waitpid` in it reaps, if anything. -/
inductive Label where
  | act (pid : ℤ) (a : Act)
  | fork (pid child : ℤ)
  | interrupt (pid : ℤ) (reaped : Option ℤ)
  | childExited (pid : ℤ) (reaped : Bool)
  | exit (pid : ℤ)
  deriving DecidableEq

/-- The process runs the server's code, so that the server's signal handler is in place. -/
def Pc.inServer : Pc → Bool
  | .replaced => false
  | .zombie => false
  | _ => true

/-- `kill(pid, SIGKILL)`. -/
def killed (s : Table) (pid : ℤ) : Table := fun q =>
  if q = pid then (s q).map fun p => { p with pc := .zombie } else s q

/-- `parent` waits for its terminated child `pid`. -/
def reap (s : Table) (parent pid : ℤ) : Option Table :=
  match s pid with
  | none => none
  | some p =>
    if p.parent = parent ∧ p.pc = .zombie then some (Function.update s pid none) else none

def next (base_path : Bytes) (s : Table) : Label → Option Table
  | .act pid a =>
    match s pid with
    | none => none
    | some p => (act base_path p a).map fun p' => Function.update s pid (some p')
  | .fork pid child =>
    match s pid with
    | none => none
    | some p =>
      match p.pc with
      | .fork filepath readEnd =>
        if 0 < child ∧ s child = none then
          some (Function.update
            (Function.update s pid (some { p with pc := .storeChild child readEnd }))
            child (some { p with forked := true, parent := pid, pc := .exec filepath }))
        else none
      | _ => none
  | .interrupt pid reaped =>
    match s pid with
    | none => none
    | some p =>
      if p.pc.inServer then
        if 0 < p.current_child_pid then
          let stopped := { p with must_stop_server := true, current_child_pid := -1 }
          let s := killed (Function.update s pid (some stopped)) p.current_child_pid
          match reaped with
          | none => some s
          | some q => reap s pid q
        else some (Function.update s pid (some { p with must_stop_server := true }))
      else none
  | .childExited pid reaped =>
    match s pid with
    | none => none
    | some p =>
      if p.pc.inServer then
        if 0 < p.current_child_pid then
          let s := Function.update s pid (some { p with current_child_pid := -1 })
          if reaped then reap s pid p.current_child_pid else some s
        else some s
      else none
  | .exit pid =>
    match s pid with
    | none => none
    | some p => some (Function.update s pid (some { p with pc := .zombie }))

/-- The process is inside `run_file_server` itself, at the head of its loop or in `accept`. -/
def Pc.inAcceptLoop : Pc → Bool
  | .checkStop => true
  | .accept => true
  | _ => false

/-- No forked process runs the accept loop. -/
def OnlyServerAccepts (s : Table) : Prop :=
  ∀ pid p, s pid = some p → p.pc.inAcceptLoop = true → p.forked = false

end Acos.HttpServer
