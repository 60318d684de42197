import Acos.PathNormal.Model

/-! The lexical normal form of a path, by a stack of components. -/
namespace Acos.PathNormal
open Acos.CString

/-- The components of a path, without the empty ones. -/
def components (path : Bytes) : List Bytes := (path.splitOn slash).filter (· ≠ [])

def IsName (component : Bytes) : Prop := component ≠ [dot] ∧ component ≠ [dot, dot]

instance : DecidablePred IsName := fun _ => inferInstanceAs (Decidable (_ ∧ _))

/-- One component on the stack of those before it, the last one first. -/
def cancel (stack : List Bytes) (component : Bytes) : List Bytes :=
  if component = [dot] then stack
  else if component = [dot, dot] then
    match stack with
    | [] => [component]
    | top :: rest => if IsName top then rest else component :: stack
  else component :: stack

/-- The components that are left when every name followed by `..` is cancelled with it. -/
def reduce (path : Bytes) : List Bytes := ((components path).foldl cancel []).reverse

/-- The path ends in a slash, or in a component `.` or `..`. -/
def EndsOpen (path : Bytes) : Prop :=
  path.getLast? = some slash ∨ ∃ c ∈ (components path).getLast?, ¬ IsName c

instance : DecidablePred EndsOpen := fun path =>
  inferInstanceAs (Decidable (path.getLast? = some slash ∨ _))

/-- The components with single slashes between them, and one at the end if `ends` says so. -/
def join (ends : Bool) : List Bytes → Bytes
  | [] => []
  | [c] => if ends then c ++ [slash] else c
  | c :: cs => c ++ slash :: join ends cs

def normalForm (path : Bytes) : Bytes :=
  let body := join (EndsOpen path) (reduce path)
  if path.head? = some slash then slash :: body
  else if reduce path = [] then [dot, slash]
  else body

end Acos.PathNormal
