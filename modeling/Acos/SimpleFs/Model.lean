import Acos.Lib.MachineInt
import Acos.Lib.Scanf

/-! The read-only file system of `inf24-0_fuse_simplefs/main.c`: opening an image, finding a
file, reading from it. -/
namespace Acos.SimpleFs
open Acos.CString Acos.MachineInt Acos.Scanf

def NAME_MAX : ℕ := 255

structure FileInfo where
  name : Bytes
  offset : ℕ
  size : ℕ
  deriving DecidableEq, Repr

/-- `FS`: its array of `FS.count` files and the bytes of the mapped image. -/
structure Filesystem where
  files : List FileInfo
  memory : Bytes
  deriving DecidableEq, Repr

/-- `fscanf(stream, "%s %lu", fi->name, &fi->size)`, where what is not read stays zero; `none`
where it writes past `name` or the number does not fit. -/
def scanEntry (stream : Bytes) : Option (Bytes × ℕ × Bytes) :=
  match scanString stream with
  | (none, rest) => some ([], 0, rest)
  | (some name, rest) =>
    if NAME_MAX ≤ name.length then none
    else (scanUnsigned 64 rest).map fun (size, rest) => (name, size.getD 0, rest)

/-- The loop of `open_filesystem` over the entries that are left. -/
def openEntries : ℕ → ℕ → Bytes → Option (List FileInfo)
  | 0, _, _ => some []
  | count + 1, offset, stream =>
    (scanEntry stream).bind fun (name, size, rest) =>
      (openEntries count ((offset + size) % 2 ^ 64) rest).map (⟨name, offset, size⟩ :: ·)

/-- `open_filesystem` on the bytes of an image; `none` where its behaviour is undefined. -/
def openFilesystem (image : Bytes) : Option Filesystem :=
  (strstr [10, 10] image).bind fun new_line =>
    (scanUnsigned 32 image).bind fun (count, stream) =>
      (openEntries (count.getD 0) ((new_line + 2) % 2 ^ 64) stream).map (⟨·, image⟩)

def findFile (fs : Filesystem) (path : Bytes) : Option FileInfo :=
  fs.files.find? fun my_fi => strncmpEq (cString my_fi.name) (path.drop 1) NAME_MAX

/-- The `size` that `my_read` copies. -/
def readSize (target : FileInfo) (size off : ℤ) : ℤ :=
  if u64 (size - off) > u64 (target.size - off) then u64 (target.size - off) else size

/-- The value of `my_read` and the bytes it copies; `none` where there is no such file or a
byte outside the image is read. -/
def myRead (fs : Filesystem) (path : Bytes) (size off : ℤ) : Option (ℤ × Bytes) :=
  (findFile fs path).bind fun target =>
    let size := readSize target size off
    let start := target.offset + off
    if 0 < size then
      if 0 ≤ start ∧ start + size ≤ fs.memory.length then
        some (i32 size, (fs.memory.drop start.toNat).take size.toNat)
      else none
    else some (i32 size, [])

/-- The line of a file in the header of an image. -/
def entry (file : Bytes × Bytes) : Bytes := file.1 ++ 32 :: decimal file.2.length ++ [10]

def header (files : List (Bytes × Bytes)) : Bytes :=
  decimal files.length ++ 10 :: files.flatMap entry ++ [10]

/-- The image of a list of files, each a name and its contents. -/
def encode (files : List (Bytes × Bytes)) : Bytes := header files ++ files.flatMap Prod.snd

/-- File names: distinct C strings, not empty, of fewer than 255 bytes, without white space. -/
structure Named (files : List (Bytes × Bytes)) : Prop where
  distinct : (files.map Prod.fst).Nodup
  nonempty : ∀ file ∈ files, file.1 ≠ []
  short : ∀ file ∈ files, file.1.length < NAME_MAX
  plain : ∀ file ∈ files, ∀ c ∈ file.1, c ≠ 0 ∧ isspace c = false

end Acos.SimpleFs
