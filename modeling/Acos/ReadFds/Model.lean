import Acos.Lib.MachineInt
import Acos.Lib.Transition
import Mathlib.Algebra.BigOperators.Group.Finset.Basic

/-! `read_data_and_count` of `inf17-0-highload_epoll-read-fds-vector/main.c`. What the bytes are does
not matter, so a stream is the number of those that are left. A label fixes which streams a call of
`epoll_wait` reports, or how many bytes a call of `read` gives. -/
namespace Acos.ReadFds
open Acos.MachineInt

/-- The streams behind the descriptors of `in`, which are distinct, and the descriptor of the epoll
instance. -/
structure Streams where
  fds : Finset ℕ
  epoll_fd : ℕ
  length : ℕ → ℕ
  fresh : epoll_fd ∉ fds
  small : ∀ fd ∈ insert epoll_fd fds, fd < 2 ^ 31

/-- `N`. -/
def Streams.count (streams : Streams) : ℕ := streams.fds.card

/-- The number of bytes of all streams. -/
def Streams.total (streams : Streams) : ℕ := ∑ fd ∈ streams.fds, streams.length fd

/-- Where the function stands: before the test of the loop, in the inner loop with the events that
are left, or at its end. -/
inductive Pc where
  | loop
  | events (fds : List ℕ)
  | returned (value : ℤ)
  deriving DecidableEq

/-- `left` is what is left of a stream, and `none` when its descriptor is closed or none of `in`. -/
structure State where
  left : ℕ → Option ℕ
  files_complete : ℕ
  all_bytes : ℤ
  pc : Pc

/-- All streams are added to the epoll instance. -/
def initial (streams : Streams) : State where
  left fd := if fd ∈ streams.fds then some (streams.length fd) else none
  files_complete := 0
  all_bytes := 0
  pc := .loop

inductive Label where
  | test
  | wait (events : List ℕ)
  | read (read_bytes : ℕ)
  deriving DecidableEq

/-- `N - files_complete`, as the `int` that `epoll_wait` takes. -/
def maxEvents (streams : Streams) (s : State) : ℤ := i32 (u64 (streams.count - s.files_complete))

/-- `epoll_wait` without a timeout reports some of the open streams, each once; it fails for a number
of events that is not positive. -/
def waitEvents (streams : Streams) (s : State) (events : List ℕ) : Option State :=
  if 0 < maxEvents streams s then
    if events ≠ [] ∧ events.Nodup ∧ (events.length : ℤ) ≤ maxEvents streams s ∧
        ∀ fd ∈ events, (s.left fd).isSome then
      some { s with pc := .events events }
    else none
  else some s

/-- The body of the inner loop: a stream gives at least one byte, unless it is at its end. -/
def readEvent (s : State) (fd : ℕ) (events : List ℕ) (read_bytes : ℕ) : Option State :=
  match s.left fd with
  | none => none
  | some left =>
    if read_bytes ≤ min left 4096 ∧ (read_bytes = 0 ↔ left = 0) then
      if read_bytes = 0 then
        some { s with
          left := Function.update s.left fd none
          files_complete := s.files_complete + 1
          pc := .events events }
      else
        some { s with
          left := Function.update s.left fd (some (left - read_bytes))
          all_bytes := i32 (s.all_bytes + read_bytes)
          pc := .events events }
    else none

/-- `wait` is a round of the outer loop, and `test` is what ends one of the loops. -/
def next (streams : Streams) (s : State) (l : Label) : Option State :=
  match s.pc, l with
  | .loop, .wait events =>
    if s.files_complete < streams.count then waitEvents streams s events else none
  | .loop, .test =>
    if s.files_complete < streams.count then none
    else some { s with pc := .returned (u64 s.all_bytes) }
  | .events (fd :: events), .read read_bytes => readEvent s fd events read_bytes
  | .events [], .test => some { s with pc := .loop }
  | _, _ => none

end Acos.ReadFds
