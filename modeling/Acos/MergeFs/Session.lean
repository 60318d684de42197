import Acos.MergeFs.FindFile
import Acos.MergeFs.Readdir

/-! The mounted union as a whole: the layers that `main` takes from its option, and what listing,
attributes and opening say about one name. -/
namespace Acos.MergeFs
open Acos.CString

def S_IFREG : ℕ := 32768

def FileSystem.push (fs : FileSystem) (directory : Bytes)
    (hroom : fs.directories.length < max_number_of_files)
    (hshort : directory.length < max_path_size) : FileSystem where
  directories := fs.directories ++ [directory]
  few := by
    rw [List.length_append]
    exact hroom
  short := by
    intro d hd
    rcases List.mem_append.mp hd with hd | hd
    · exact fs.short d hd
    · rwa [List.mem_singleton.mp hd]

/-- The loop of `main` over the layers, from what `strtok` has just returned; `none` where it
writes past the end of the table. -/
def mountLoop (cwd : Bytes) : ℕ → Option (Bytes × Bytes) → FileSystem → Option FileSystem
  | _, none, fs => some fs
  | 0, some _, _ => none
  | fuel + 1, some (ptr, kept), fs =>
    let directory := cwd ++ 47 :: ptr
    if h : fs.directories.length < max_number_of_files ∧ directory.length < max_path_size then
      mountLoop cwd fuel (strtok [58] kept) (fs.push directory h.1 h.2)
    else none

theorem no_directories_few : ([] : List Bytes).length ≤ max_number_of_files := Nat.zero_le _

/-- What `main` makes of the option `src`. -/
def mount (cwd src : Bytes) : Option FileSystem :=
  mountLoop cwd (src.length + 1) (strtok [58] src) ⟨[], no_directories_few, nofun⟩

section Mount
variable {cwd src : Bytes} {fs fs' : FileSystem}

/-- The layers that an option names: its parts between colons that are not empty. -/
def layers (src : Bytes) : List Bytes := (src.splitOn 58).filter (· ≠ [])

theorem layers_skip {skipped rest : Bytes} (h : ∀ c ∈ skipped, c ∈ [(58 : UInt8)]) :
    layers (skipped ++ rest) = layers rest := by
  induction skipped with
  | nil => rfl
  | cons c skipped ih =>
    obtain rfl : c = 58 := by simpa using h c List.mem_cons_self
    rw [← ih fun d hd => h d (List.mem_cons_of_mem _ hd), List.cons_append]
    simp [layers, List.splitOn_cons_eq_if_modifyHead]

/-- `strtok` takes the first layer off. -/
theorem layers_of_strtok {ptr kept : Bytes} (h : strtok [58] src = some (ptr, kept)) :
    layers src = ptr :: layers kept ∧ kept.length < src.length := by
  obtain ⟨skipped, back, hskipped, hne, hptr, hback, rfl, rfl⟩ := strtok_eq_some.mp h
  have hplain : 58 ∉ ptr := fun hmem => absurd (List.mem_singleton_self _) (hptr 58 hmem)
  have hpos := List.length_pos_iff.mpr hne
  rw [layers_skip hskipped]
  cases back with
  | nil =>
    constructor
    · simp [layers, List.splitOn_eq_singleton hplain, hne]
    · simp
      omega
  | cons c back =>
    obtain rfl : c = 58 := by simpa using hback c rfl
    constructor
    · rw [layers, List.splitOn_append_cons_self, List.splitOn_eq_singleton hplain]
      simp [layers, hne]
    · simp
      omega

theorem layers_of_strtok_eq_none (h : strtok [58] src = none) : layers src = [] := by
  have hall : src.dropWhile (· ∈ [(58 : UInt8)]) = [] := by
    unfold strtok at h
    split at h
    · assumption
    · cases h
  have hcolons : ∀ c ∈ src, c ∈ [(58 : UInt8)] := by
    simpa [List.dropWhile_eq_nil_iff] using hall
  rw [← List.append_nil src, layers_skip hcolons]
  rfl

theorem mountLoop_eq_some {fuel : ℕ} (hfuel : src.length < fuel) :
    mountLoop cwd fuel (strtok [58] src) fs = some fs' ↔
      fs'.directories = fs.directories ++ (layers src).map fun ptr => cwd ++ 47 :: ptr := by
  induction fuel generalizing src fs with
  | zero => omega
  | succ fuel ih =>
    cases htok : strtok [58] src with
    | none =>
      obtain ⟨directories, _, _⟩ := fs
      obtain ⟨directories', _, _⟩ := fs'
      simp [mountLoop, layers_of_strtok_eq_none htok, eq_comm]
    | some token =>
      obtain ⟨ptr, kept⟩ := token
      obtain ⟨hlayers, hkept⟩ := layers_of_strtok htok
      rw [mountLoop, hlayers, List.map_cons, List.append_cons fs.directories]
      split_ifs with h
      · rw [ih (by omega)]
        rfl
      · simp only [false_iff]
        intro heq
        have hfew := fs'.few
        have hshort := fs'.short (cwd ++ 47 :: ptr) (by simp [heq])
        rw [heq] at hfew
        simp only [List.length_append, List.length_cons] at hfew
        exact h ⟨by omega, hshort⟩

/-- The directories of the mounted file system are the parts of the option between its colons that
are not empty, in their order and under the working directory, exactly when they fit the table. -/
theorem mount_directories (cwd src : Bytes) :
    (mount cwd src).map FileSystem.directories =
      if (layers src).length ≤ max_number_of_files ∧
          ∀ ptr ∈ layers src, (cwd ++ 47 :: ptr).length < max_path_size then
        some ((layers src).map fun ptr => cwd ++ 47 :: ptr)
      else none := by
  have hmount (fs : FileSystem) : mount cwd src = some fs ↔
      fs.directories = (layers src).map fun ptr => cwd ++ 47 :: ptr :=
    mountLoop_eq_some (Nat.lt_succ_self _)
  split_ifs with h
  · have hfew : ((layers src).map fun ptr => cwd ++ 47 :: ptr).length ≤ max_number_of_files := by
      rw [List.length_map]
      exact h.1
    rw [(hmount ⟨_, hfew, List.forall_mem_map.mpr h.2⟩).mpr rfl, Option.map_some]
  · cases hsome : mount cwd src with
    | none => rfl
    | some fs =>
      have hdirectories := (hmount fs).mp hsome
      have hfew := fs.few
      have hshort := fs.short
      rw [hdirectories] at hfew hshort
      rw [List.length_map] at hfew
      exact absurd ⟨hfew, List.forall_mem_map.mp hshort⟩ h

/-- Under `/m`, the option `a::b` names two layers. -/
example : layers [97, 58, 58, 98] = [[97], [98]] := by decide

end Mount

section Agreement
variable {kernel : Kernel} {fs : FileSystem} {path : Bytes} {name : EntryName}

/-- The path of an entry of a directory of the union. -/
def child (path : Bytes) (name : EntryName) : Bytes := readdirPath path ++ 47 :: name.bytes

end Agreement
end Acos.MergeFs
