import Acos.Lib.HttpText
import Acos.Lib.Scanf

/-! How `inf12-2-posix_exec_exec-cgi/main.c` reads a request and what it passes to the script. A step
that would write behind an array or read one that is not set has no result. -/
namespace Acos.ExecCgi
open Acos.CString Acos.Scanf

def maxName : ℕ := 10000

/-- `"Host:"`. -/
def hostName : Bytes := [72, 111, 115, 116, 58]

/-- `HTTP_HOST` is `none` as long as it is not set. -/
structure Variables where
  REQUEST_METHOD : Bytes
  SCRIPT_NAME : Bytes
  QUERY_STRING : Bytes
  HTTP_HOST : Option Bytes
  deriving DecidableEq

/-- A word that `%s` stores in an array of `size` bytes, and the stream behind the white space that
follows. -/
def scanWord (size : ℕ) (stream : Bytes) : Option (Bytes × Bytes) :=
  match scanString stream with
  | (some word, rest) =>
    if word.length < size then some (word, rest.dropWhile isspace) else none
  | (none, _) => none

/-- `scanf` of plain text: it reads as far as the stream agrees. -/
def scanLiteral : Bytes → Bytes → Bytes
  | c :: text, d :: stream => if c = d then scanLiteral text stream else d :: stream
  | [], stream => stream.dropWhile isspace
  | _ :: _, [] => []

/-- The loop over the headers. A value that is missing leaves `header_value` as it was. -/
def headerLoop (stream : Bytes) (header_value HTTP_HOST : Option Bytes) :
    Option (Option Bytes) :=
  match _hname : scanString stream with
  | (none, _) => some HTTP_HOST
  | (some header_name, rest) =>
    if header_name.length < maxName then
      match _hvalue : scanString (rest.dropWhile isspace) with
      | (none, _) =>
        some (if cString header_name = hostName then header_value.map cString else HTTP_HOST)
      | (some value, rest') =>
        if value.length < maxName then
          headerLoop (rest'.dropWhile isspace) (some value)
            (if cString header_name = hostName then some (cString value) else HTTP_HOST)
        else none
    else none
termination_by stream.length
decreasing_by
  have h₁ := (scanString_some _hname).2
  have h₂ := (scanString_some _hvalue).2
  have h₃ := (List.dropWhile_sublist isspace (l := rest)).length_le
  have h₄ := (List.dropWhile_sublist isspace (l := rest')).length_le
  omega

/-- The path of the target: `%[^?]` into the array behind the dot. -/
def scanPath (full_path : Bytes) : Option Bytes :=
  let path := full_path.takeWhile (· ≠ 63)
  if path ≠ [] ∧ path.length + 1 < maxName then some path else none

/-- The query is looked for `strlen(SCRIPT_NAME)` bytes behind the start of the target. Without a
question mark that is behind its terminator, where `stale` is what `%s` finds. -/
def scanQuery (stale : Option Bytes) (full_path path : Bytes) : Option Bytes :=
  let word :=
    if path.length < full_path.length then
      (scanString (full_path.drop (path.length + 1))).1
    else stale
  match word with
  | some query => if query.length < maxName then some query else none
  | none => some []

def readRequest (stale : Option Bytes) (stream : Bytes) : Option Variables := do
  let (method, stream) ← scanWord 10 stream
  let (full_path, stream) ← scanWord maxName stream
  let path ← scanPath (cString full_path)
  let query ← scanQuery stale (cString full_path) path
  let host ← headerLoop (scanLiteral HttpText.version stream) none none
  some ⟨cString method, 46 :: path, query, host⟩

/-- One entry, built up in `max_name` bytes. -/
def entry (name value : Bytes) : Option Bytes :=
  if (name ++ value).length < maxName then some (name ++ value) else none

def httpHostName : Bytes := [72, 84, 84, 80, 95, 72, 79, 83, 84, 61]

def queryStringName : Bytes := [81, 85, 69, 82, 89, 95, 83, 84, 82, 73, 78, 71, 61]

def requestMethodName : Bytes := [82, 69, 81, 85, 69, 83, 84, 95, 77, 69, 84, 72, 79, 68, 61]

def scriptNameName : Bytes := [83, 67, 82, 73, 80, 84, 95, 78, 65, 77, 69, 61]

/-- The environment of the script. -/
def environment (v : Variables) : Option (List Bytes) := do
  let host ← v.HTTP_HOST
  let entry0 ← entry httpHostName host
  let entry1 ← entry queryStringName v.QUERY_STRING
  let entry2 ← entry requestMethodName v.REQUEST_METHOD
  let entry3 ← entry scriptNameName (v.SCRIPT_NAME.drop 1)
  some [entry0, entry1, entry2, entry3]

/-- The environment that the script gets for the bytes of a request. -/
def main (stale : Option Bytes) (stream : Bytes) : Option (List Bytes) :=
  (readRequest stale stream).bind environment

end Acos.ExecCgi
