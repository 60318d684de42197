import Acos.Lib.CString
import Acos.Lib.MachineInt

/-! The read-only union of directories of `inf24-1_fuse_mergefs/main.c`: finding, opening and
reading a file, and listing a directory. -/
namespace Acos.MergeFs
open Acos.CString Acos.MachineInt

def max_number_of_files : ℕ := 100

def max_path_size : ℕ := 500

/-- An error number; it is never zero. -/
structure Errno where
  number : ℕ
  pos : 0 < number

def ENOENT : ℕ := 2

def EACCES : ℕ := 13

/-- The access mode of the flags of `open`. -/
def O_ACCMODE : ℕ := 3

def O_RDONLY : ℕ := 0

def S_IFDIR : ℕ := 16384

/-- What is used of `struct stat`. -/
structure Stat where
  st_mtime : ℤ
  st_mode : ℕ

/-- The name of a directory entry, as `readdir` delivers it. -/
structure EntryName where
  bytes : Bytes
  nonempty : bytes ≠ []
  plain : ∀ c ∈ bytes, c ≠ 0
  short : bytes.length < max_path_size

/-- `file_system_t`: the layer directories, in the order of the option. -/
structure FileSystem where
  directories : List Bytes
  few : directories.length ≤ max_number_of_files
  short : ∀ directory ∈ directories, directory.length < max_path_size

/-- What the system calls answer: the attributes of a path, the contents of a file that is
opened, and the entries of a directory in the order of `readdir`. -/
structure Kernel where
  stat : Bytes → Except Errno Stat
  openFile : Bytes → Except Errno Bytes
  opendir : Bytes → Option (List EntryName)

/-- `my_file_t`; `stat_` is `none` as long as it is not set. -/
structure MyFile where
  if_directory : Bool
  error_code : ℕ
  stat_ : Option Stat
  path_ : Bytes

/-- The loop of `find_file` over the layers that are left, with `my_file` and `exists` so far;
`none` where a path is written past the end of `path_`. -/
def findLayers (kernel : Kernel) (path : Bytes) : List Bytes → MyFile → Bool → Option MyFile
  | [], my_file, _ => some my_file
  | directory :: directories, my_file, found =>
    let path_ := directory ++ path
    if max_path_size ≤ path_.length then none
    else
      match kernel.stat path_ with
      | .ok stat_ =>
        if (my_file.stat_.any fun best => best.st_mtime < stat_.st_mtime) || !found then
          findLayers kernel path directories
            ⟨stat_.st_mode &&& S_IFDIR ≠ 0, 0, some stat_, path_⟩ true
        else findLayers kernel path directories my_file found
      | .error errno =>
        if found then findLayers kernel path directories my_file found
        else findLayers kernel path directories { my_file with error_code := errno.number } found

def findFile (kernel : Kernel) (fs : FileSystem) (path : Bytes) : Option MyFile :=
  findLayers kernel path fs.directories ⟨false, ENOENT, none, []⟩ false

/-- The open file behind `fh`: its bytes and its position. -/
structure Handle where
  data : Bytes
  pos : ℕ
  deriving DecidableEq

/-- `custom_open`: its value and the handle it stores. -/
def customOpen (kernel : Kernel) (fs : FileSystem) (path : Bytes) (flags : ℕ) :
    Option (ℤ × Option Handle) :=
  (findFile kernel fs path).map fun my_file =>
    if my_file.error_code ≠ 0 then (-my_file.error_code, none)
    else if flags &&& O_ACCMODE ≠ O_RDONLY then (-EACCES, none)
    else
      match kernel.openFile my_file.path_ with
      | .ok data => (0, some ⟨data, 0⟩)
      | .error errno => (-errno.number, none)

/-- A call of `custom_read`, and what `read` does in it: it fails with an error number, or it
transfers at most `1 + limit` bytes. -/
structure Call where
  size : ℕ
  off : ℕ
  transfer : Except Errno ℕ

/-- `custom_read`: the handle after it, its value and the bytes in `out`. -/
def customRead (fh : Handle) (call : Call) : Handle × ℤ × Bytes :=
  match call.transfer with
  | .error errno => (fh, -errno.number, [])
  | .ok limit =>
    let out := (fh.data.drop fh.pos).take (min call.size (1 + limit))
    ({ fh with pos := fh.pos + out.length }, i32 out.length, out)

/-- `check_new_file` on the slots that are left, of which the free ones hold the empty
string: the slots after it and its value. -/
def checkNewFile (path : Bytes) : List Bytes → List Bytes × Bool
  | [] => ([], false)
  | slot :: files_dict =>
    if slot = [] then (path :: files_dict, true)
    else if strncmpEq slot path (path.length + 1) then (slot :: files_dict, false)
    else
      let (files_dict, value) := checkNewFile path files_dict
      (slot :: files_dict, value)

/-- The body of the inner loop of `custom_readdir`, on the table and the names that `filler`
has been given. -/
def readEntity (state : List Bytes × List Bytes) (entity : EntryName) : List Bytes × List Bytes :=
  let (files_dict, out) := state
  if entity.bytes.head? ≠ some 46 then
    let (files_dict, new) := checkNewFile entity.bytes files_dict
    (files_dict, if new then out ++ [entity.bytes] else out)
  else (files_dict, out)

/-- The loop of `custom_readdir` over the layers that are left. -/
def readLayers (kernel : Kernel) (path_ : Bytes) :
    List Bytes → List Bytes × List Bytes → Option (List Bytes × List Bytes)
  | [], state => some state
  | directory :: directories, state =>
    let base_path := directory ++ path_
    if max_path_size ≤ base_path.length then none
    else
      match kernel.opendir base_path with
      | none => readLayers kernel path_ directories state
      | some entities => readLayers kernel path_ directories (entities.foldl readEntity state)

/-- `path_` in `custom_readdir`: the root is the empty path. -/
def readdirPath (path : Bytes) : Bytes := if path.length = 1 then [] else path

/-- `custom_readdir`: the names it gives to `filler`, with a table of zeros at the start; `none`
where a path is written past the end of its buffer. -/
def customReaddir (kernel : Kernel) (fs : FileSystem) (path : Bytes) : Option (List Bytes) :=
  if max_path_size ≤ path.length then none
  else
    (readLayers kernel (readdirPath path) fs.directories
      (List.replicate max_number_of_files [], [[46], [46, 46]])).map Prod.snd

end Acos.MergeFs
