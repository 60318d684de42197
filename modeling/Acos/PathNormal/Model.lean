import Acos.Lib.CString

/-! The in-place normalisation of a path in `inf09-0_c_texts_normalize-path/main.c`. A path is
the C string from some pointer on; a function that moves the pointer gives back what it leaves
before the pointer and after it. -/
namespace Acos.PathNormal
open Acos.CString

def slash : UInt8 := 47
def dot : UInt8 := 46

/-- The part of the path that `read_name` walks over. -/
def readName (path : Bytes) : Bytes := path.takeWhile (· ≠ slash)

/-- `!strncmp_(str1, str2, n)`: both strings have `n` characters, and they are the same. -/
def strncmpZero : Bytes → Bytes → ℕ → Bool
  | _, _, 0 => true
  | c :: str1, d :: str2, n + 1 => c = d && strncmpZero str1 str2 n
  | _, _, _ => false

/-- `shift_path` for a shift that is not negative. -/
def shiftPath (path : Bytes) (shift : ℕ) : Bytes := path.drop shift

/-- The path after `restore_coupler`, and the value it returns. -/
def restoreCoupler (path : Bytes) : Bytes × ℕ :=
  let coupler := (path.takeWhile (· = slash)).length
  (if 1 < coupler then shiftPath path (coupler - 1) else path, if 0 < coupler then 1 else 0)

/-- `normalize_relative_path` from `path_begin` on, with `recur` for its calls of itself: the
string that it leaves there and the value it returns. -/
def normalizeFrom (recur : Bytes → Option (Bytes × Bool)) (path : Bytes) :
    Option (Bytes × Bool) :=
  let name := readName path
  let (rest, moved) := restoreCoupler (path.drop name.length)
  let path_begin := name ++ rest
  let shift := name.length + moved
  if strncmpZero path_begin [dot, dot] 2 then some (shiftPath path_begin shift, true)
  else if strncmpZero path_begin [dot] 1 then recur (shiftPath path_begin shift)
  else
    (recur (path_begin.drop shift)).bind fun (s, flag) =>
      let path_begin := path_begin.take shift ++ s
      if flag then recur (shiftPath path_begin shift) else some (path_begin, false)

/-- `normalize_relative_path`; `none` when `fuel` nested calls do not suffice. -/
def normalizeRelativePath : ℕ → Bytes → Option (Bytes × Bool)
  | 0, _ => none
  | fuel + 1, path =>
    if path = [] then some ([], false)
    else
      let (path, moved) := restoreCoupler path
      (normalizeFrom (normalizeRelativePath fuel) (path.drop moved)).map fun (s, flag) =>
        (path.take moved ++ s, flag)

def dotDotSlash : Bytes := [dot, dot, slash]

/-- The loop of `normalize_path`, which writes `../` and goes on after it. -/
def normalizeLoop : ℕ → Bytes → Option Bytes
  | 0, _ => none
  | fuel + 1, path =>
    (normalizeRelativePath fuel path).bind fun (path, flag) =>
      if flag then (normalizeLoop fuel path).map (dotDotSlash ++ ·) else some path

/-- `normalize_path`. -/
def normalizePath (fuel : ℕ) (path : Bytes) : Option Bytes :=
  (normalizeLoop fuel path).map fun path => if path.length = 0 then [dot, slash] else path

end Acos.PathNormal
