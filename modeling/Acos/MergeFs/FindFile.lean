import Acos.MergeFs.Model

/-! `find_file` takes the newest of the files that the layers have under a path. -/
namespace Acos.MergeFs
open Acos.CString

/-- The paths that `find_file` asks for, in the order of the layers. -/
def layerPaths (fs : FileSystem) (path : Bytes) : List Bytes := fs.directories.map (· ++ path)

/-- The file is the newest of those that `stat` finds, and the first one of its time. -/
structure Newest (kernel : Kernel) (paths : List Bytes) (my_file : MyFile) : Prop where
  ok : my_file.error_code = 0
  newest : ∃ (k : ℕ) (stat_ : Stat), paths[k]? = some my_file.path_ ∧
    kernel.stat my_file.path_ = .ok stat_ ∧ my_file.stat_ = some stat_ ∧
    my_file.if_directory = decide (stat_.st_mode &&& S_IFDIR ≠ 0) ∧
    ∀ (j : ℕ) (path_ : Bytes) (other : Stat), paths[j]? = some path_ →
      kernel.stat path_ = .ok other →
        other.st_mtime ≤ stat_.st_mtime ∧ (other.st_mtime = stat_.st_mtime → k ≤ j)

def NotFound (kernel : Kernel) (paths : List Bytes) : Prop :=
  ∀ path_ ∈ paths, ∃ errno, kernel.stat path_ = .error errno

/-- The error of the last layer. -/
def lastError (kernel : Kernel) (paths : List Bytes) : ℕ :=
  match paths.getLast?.map kernel.stat with
  | some (.error errno) => errno.number
  | _ => ENOENT

/-- What `find_file` is to report. -/
def Reports (kernel : Kernel) (paths : List Bytes) (my_file : MyFile) : Prop :=
  (¬ NotFound kernel paths → Newest kernel paths my_file) ∧
    (NotFound kernel paths → my_file.error_code = lastError kernel paths)

/-- What `my_file` and `exists` are when the loop has gone over `paths`. -/
inductive SoFar (kernel : Kernel) (paths : List Bytes) : MyFile → Bool → Prop
  | found {my_file : MyFile} (h : Newest kernel paths my_file) : SoFar kernel paths my_file true
  | missing {my_file : MyFile} (h : NotFound kernel paths) (hstat : my_file.stat_ = none)
      (hcode : my_file.error_code = lastError kernel paths) : SoFar kernel paths my_file false

section
variable {kernel : Kernel} {paths : List Bytes} {my_file : MyFile} {path_ : Bytes} {stat_ : Stat}
  {errno : Errno} {found : Bool}

theorem Newest.not_notFound (h : Newest kernel paths my_file) : ¬ NotFound kernel paths := by
  obtain ⟨k, stat_, hk, hstat, _⟩ := h.newest
  intro hmissing
  obtain ⟨errno, herror⟩ := hmissing my_file.path_ (List.mem_of_getElem? hk)
  rw [hstat] at herror
  cases herror

theorem SoFar.reports (h : SoFar kernel paths my_file found) : Reports kernel paths my_file := by
  cases h with
  | found h => exact ⟨fun _ => h, fun hmissing => absurd hmissing h.not_notFound⟩
  | missing h _ hcode => exact ⟨fun hnot => absurd h hnot, fun _ => hcode⟩

theorem getElem?_snoc {j : ℕ} {q : Bytes} (h : (paths ++ [path_])[j]? = some q) :
    paths[j]? = some q ∨ j = paths.length ∧ q = path_ := by
  rcases Nat.lt_or_ge j paths.length with hlt | hge
  · exact .inl (by rwa [List.getElem?_append_left hlt] at h)
  · rw [List.getElem?_append_right hge] at h
    obtain ⟨hj, hq⟩ := List.getElem?_eq_some_iff.mp h
    have hzero : j - paths.length = 0 := by simpa using hj
    exact .inr ⟨by omega, by simpa [hzero] using hq.symm⟩

theorem notFound_snoc (h : NotFound kernel paths) (herror : kernel.stat path_ = .error errno) :
    NotFound kernel (paths ++ [path_]) := by
  intro q hq
  rcases List.mem_append.mp hq with hq | hq
  · exact h q hq
  · exact ⟨errno, by rwa [List.mem_singleton.mp hq]⟩

theorem lastError_snoc (herror : kernel.stat path_ = .error errno) :
    lastError kernel (paths ++ [path_]) = errno.number := by
  simp [lastError, herror]

/-- A layer without the file, or with an older one, changes nothing. -/
theorem Newest.keep (h : Newest kernel paths my_file)
    (hold : ∀ other best, kernel.stat path_ = .ok other → my_file.stat_ = some best →
      other.st_mtime ≤ best.st_mtime) : Newest kernel (paths ++ [path_]) my_file := by
  obtain ⟨k, stat_, hk, hstat, hsome, hdir, hbest⟩ := h.newest
  have hlt : k < paths.length := (List.getElem?_eq_some_iff.mp hk).1
  refine ⟨h.ok, k, stat_, by rwa [List.getElem?_append_left hlt], hstat, hsome, hdir, ?_⟩
  intro j q other hj hother
  rcases getElem?_snoc hj with hj | ⟨rfl, rfl⟩
  · exact hbest j q other hj hother
  · exact ⟨hold other stat_ hother hsome, fun _ => hlt.le⟩

/-- A layer with a file that is newer than all before. -/
theorem newest_last (hstat : kernel.stat path_ = .ok stat_)
    (hnew : ∀ q ∈ paths, ∀ other, kernel.stat q = .ok other → other.st_mtime < stat_.st_mtime) :
    Newest kernel (paths ++ [path_]) ⟨stat_.st_mode &&& S_IFDIR ≠ 0, 0, some stat_, path_⟩ := by
  refine ⟨rfl, paths.length, stat_, by simp, hstat, rfl, rfl, ?_⟩
  intro j q other hj hother
  rcases getElem?_snoc hj with hj | ⟨rfl, rfl⟩
  · have hlt := hnew q (List.mem_of_getElem? hj) other hother
    exact ⟨hlt.le, fun heq => absurd heq hlt.ne⟩
  · rw [hstat] at hother
    obtain rfl : stat_ = other := by simpa using hother
    exact ⟨le_rfl, fun _ => le_rfl⟩

/-- The loop over the layers that are left. -/
theorem findLayers_soFar {path : Bytes} {directories : List Bytes}
    (h : SoFar kernel paths my_file found)
    (hfits : ∀ directory ∈ directories, (directory ++ path).length < max_path_size) :
    ∃ result exists', findLayers kernel path directories my_file found = some result ∧
      SoFar kernel (paths ++ directories.map (· ++ path)) result exists' := by
  induction directories generalizing paths my_file found with
  | nil => exact ⟨my_file, found, rfl, by simpa using h⟩
  | cons directory directories ih =>
    obtain ⟨hshort, hrest⟩ := List.forall_mem_cons.mp hfits
    rw [findLayers, if_neg (Nat.not_le.mpr hshort), List.map_cons, List.append_cons]
    cases hstat : kernel.stat (directory ++ path) with
    | ok stat_ =>
      cases h with
      | found hbest =>
        obtain ⟨k, best, hk, hbestat, hsome, hdir, hmax⟩ := hbest.newest
        by_cases hnewer : best.st_mtime < stat_.st_mtime
        · have hnew := newest_last hstat (fun q hq other hother => by
            obtain ⟨j, hj⟩ := List.getElem?_of_mem hq
            exact (hmax j q other hj hother).1.trans_lt hnewer)
          simpa [hsome, hnewer] using ih (.found hnew) hrest
        · have hkeep : Newest kernel (paths ++ [directory ++ path]) my_file := by
            refine hbest.keep fun other best' hother hbest' => ?_
            rw [hstat] at hother
            rw [hsome] at hbest'
            cases hother
            cases hbest'
            exact not_lt.mp hnewer
          simpa [hsome, hnewer] using ih (.found hkeep) hrest
      | missing hmissing hnone hcode =>
        have hnew := newest_last hstat (fun q hq other hother => by
          obtain ⟨errno, herror⟩ := hmissing q hq
          rw [hother] at herror
          cases herror)
        simpa [hnone] using ih (.found hnew) hrest
    | error errno =>
      cases h with
      | found hbest =>
        have hkeep : Newest kernel (paths ++ [directory ++ path]) my_file := by
          refine hbest.keep fun other _ hother _ => ?_
          rw [hstat] at hother
          cases hother
        simpa using ih (.found hkeep) hrest
      | missing hmissing hnone hcode =>
        have hcode' : lastError kernel (paths ++ [directory ++ path]) = errno.number :=
          lastError_snoc hstat
        have hmissing' : SoFar kernel (paths ++ [directory ++ path])
            { my_file with error_code := errno.number } false :=
          .missing (notFound_snoc hmissing hstat) hnone hcode'.symm
        simpa using ih hmissing' hrest

/-- A path that does not fit is written past the end of its buffer. -/
theorem findLayers_overflow {path : Bytes} {directories : List Bytes}
    (h : ∃ directory ∈ directories, max_path_size ≤ (directory ++ path).length) :
    findLayers kernel path directories my_file found = none := by
  induction directories generalizing my_file found with
  | nil => simp at h
  | cons directory directories ih =>
    rw [findLayers]
    split
    · rfl
    · have hrest : ∃ directory ∈ directories, max_path_size ≤ (directory ++ path).length := by
        obtain ⟨d, hd, hlong⟩ := h
        rcases List.mem_cons.mp hd with rfl | hd
        · contradiction
        · exact ⟨d, hd, hlong⟩
      split
      · split <;> exact ih hrest
      · split <;> exact ih hrest

end

/-- `find_file` reports the newest file, or the last error, exactly when every path that it writes
fits its buffer. -/
theorem find_file_iff (kernel : Kernel) (fs : FileSystem) (path : Bytes) :
    (∃ my_file, findFile kernel fs path = some my_file ∧
        Reports kernel (layerPaths fs path) my_file) ↔
      ∀ directory ∈ fs.directories, (directory ++ path).length < max_path_size := by
  constructor
  · rintro ⟨my_file, hfind, _⟩ directory hmem
    by_contra hlong
    rw [findFile, findLayers_overflow ⟨directory, hmem, Nat.not_lt.mp hlong⟩] at hfind
    cases hfind
  · intro hfits
    have hstart : SoFar kernel [] ⟨false, ENOENT, none, []⟩ false := .missing nofun rfl rfl
    obtain ⟨my_file, _, hfind, hsofar⟩ := findLayers_soFar hstart hfits
    exact ⟨my_file, hfind, hsofar.reports⟩

/-- One layer, `/a`. -/
def singleLayer : FileSystem where
  directories := [[47, 97]]
  few := by decide
  short := by decide

/-- A path of two names with 250 letters each. -/
def longPath : Bytes := 47 :: List.replicate 250 97 ++ 47 :: List.replicate 250 98

theorem enoent_pos : 0 < ENOENT := Nat.succ_pos 1

/-- Nothing is there. -/
def emptyKernel : Kernel where
  stat _ := .error ⟨ENOENT, enoent_pos⟩
  openFile _ := .error ⟨ENOENT, enoent_pos⟩
  opendir _ := none

theorem find_file_overflows :
    ¬ ∃ my_file, findFile emptyKernel singleLayer longPath = some my_file ∧
      Reports emptyKernel (layerPaths singleLayer longPath) my_file := by
  have hlong : max_path_size ≤ ([47, 97] ++ longPath).length := by
    simp only [longPath, List.length_append, List.length_cons, List.length_replicate,
      List.length_nil, max_path_size]
    omega
  have hnone : findFile emptyKernel singleLayer longPath = none :=
    findLayers_overflow ⟨[47, 97], List.mem_singleton_self _, hlong⟩
  rintro ⟨my_file, hfind, _⟩
  rw [hnone] at hfind
  cases hfind

end Acos.MergeFs
