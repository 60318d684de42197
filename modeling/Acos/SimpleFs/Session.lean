import Acos.SimpleFs.Correct

/-! The handlers that answer for a mounted image, against the files as a map from names to
contents. -/
namespace Acos.SimpleFs
open Acos.CString Acos.MachineInt

def ENOENT : ℤ := 2

def EACCES : ℤ := 13

def O_ACCMODE : ℕ := 3

def O_RDONLY : ℕ := 0

def S_IFDIR : ℕ := 16384

def S_IFREG : ℕ := 32768

/-- What is used of `struct stat`. -/
structure Stat where
  st_mode : ℕ
  st_nlink : ℕ
  st_size : ℤ
  deriving DecidableEq

/-- `my_stat`: its value and `*st`. -/
def myStat (fs : Filesystem) (path : Bytes) (st : Stat) : ℤ × Stat :=
  if path = [47] then (0, { st with st_mode := 365 ||| S_IFDIR, st_nlink := 2 })
  else
    match findFile fs path with
    | none => (-ENOENT, st)
    | some target => (0, ⟨S_IFREG ||| 292, 1, i64 target.size⟩)

/-- `my_readdir`: its value and the names it gives to `filler`. -/
def myReaddir (fs : Filesystem) (path : Bytes) : ℤ × List Bytes :=
  if path ≠ [47] then (-ENOENT, [])
  else (0, [46] :: [46, 46] :: fs.files.map fun my_fi => cString my_fi.name)

def myOpen (fs : Filesystem) (path : Bytes) (flags : ℕ) : ℤ :=
  match findFile fs path with
  | none => -ENOENT
  | some _ => if flags &&& O_ACCMODE ≠ O_RDONLY then -EACCES else 0

/-- The contents of the file of this name. -/
def lookup (files : List (Bytes × Bytes)) (name : Bytes) : Option Bytes :=
  (files.find? fun file => file.1 = name).map Prod.snd

/-- Every handler answers what the map of the files says, for every path. A part of a file is read
exactly where the clamp of `my_read` is right, and with room for all of it the whole file. -/
structure Serves (files : List (Bytes × Bytes)) (fs : Filesystem) : Prop where
  root : ∀ st, myStat fs [47] st = (0, { st with st_mode := 365 ||| S_IFDIR, st_nlink := 2 })
  stat : ∀ name st, name ≠ [] → myStat fs (47 :: name) st =
    match lookup files name with
    | none => (-ENOENT, st)
    | some contents => (0, ⟨S_IFREG ||| 292, 1, contents.length⟩)
  listed : myReaddir fs [47] = (0, [46] :: [46, 46] :: files.map Prod.fst)
  notListed : ∀ name, name ≠ [] → myReaddir fs (47 :: name) = (-ENOENT, [])
  opens : ∀ name flags, myOpen fs (47 :: name) flags =
    match lookup files name with
    | none => -ENOENT
    | some _ => if flags &&& O_ACCMODE = O_RDONLY then 0 else -EACCES
  reads : ∀ name contents size off, lookup files name = some contents → 0 ≤ size → size < 2 ^ 64 →
    0 ≤ off → off < 2 ^ 63 →
    (ReadsFile fs (name, contents) size off ↔ ReadFits contents.length size off)
  whole : ∀ name contents, lookup files name = some contents → contents.length < 2 ^ 31 →
    ReadsWhole fs (name, contents)

section
variable {files : List (Bytes × Bytes)} {name contents : Bytes}

theorem strncmpEq_left_short {a b : Bytes} {n : ℕ} (ha : a.length < n) :
    strncmpEq a b n = decide (a = b) := by
  by_cases hb : b.length < n
  · exact strncmpEq_short ha hb
  · unfold strncmpEq
    rw [List.take_of_length_le ha.le, decide_eq_decide]
    constructor
    · intro h
      have hlength := congrArg List.length h
      rw [List.length_take] at hlength
      omega
    · rintro rfl
      exact absurd ha hb

/-- The entry that a path leads to has the size of the file of that name. -/
theorem findFile_size (h : Named files) (name : Bytes) :
    (findFile (opened files) (47 :: name)).map FileInfo.size =
      (lookup files name).map List.length := by
  have hgen : ∀ start, ((fileInfos start files).find? fun info =>
      strncmpEq (cString info.name) name NAME_MAX).map FileInfo.size =
      (lookup files name).map List.length := by
    induction files with
    | nil => exact fun start => rfl
    | cons file files ih =>
      intro start
      have hself : strncmpEq (cString file.1) name NAME_MAX = decide (file.1 = name) := by
        rw [cString_of_plain fun c hc => (h.plain file List.mem_cons_self c hc).1]
        exact strncmpEq_left_short (h.short file List.mem_cons_self)
      have hrest := ih h.tail (start + file.2.length)
      by_cases heq : file.1 = name
      · subst heq
        simp only [fileInfos, lookup, List.find?_cons, hself, decide_true, Option.map_some]
      · simp only [lookup] at hrest
        simp only [fileInfos, lookup, List.find?_cons, hself, heq, decide_false, hrest]
  exact hgen _

theorem mem_of_lookup (h : lookup files name = some contents) : (name, contents) ∈ files := by
  obtain ⟨file, hfile, rfl⟩ := Option.map_eq_some_iff.mp h
  have hmem := List.mem_of_find?_eq_some hfile
  have hname := List.find?_some hfile
  obtain rfl : file.1 = name := by simpa using hname
  exact hmem

theorem findFile_cases (h : Named files) (name : Bytes) :
    (findFile (opened files) (47 :: name) = none ∧ lookup files name = none) ∨
      ∃ target contents, findFile (opened files) (47 :: name) = some target ∧
        lookup files name = some contents ∧ target.size = contents.length := by
  have hsize := findFile_size h name
  cases hfind : findFile (opened files) (47 :: name) with
  | none =>
    rw [hfind, Option.map_none, eq_comm, Option.map_eq_none_iff] at hsize
    exact .inl ⟨rfl, hsize⟩
  | some target =>
    rw [hfind, Option.map_some, eq_comm, Option.map_eq_some_iff] at hsize
    obtain ⟨contents, hlookup, hlength⟩ := hsize
    exact .inr ⟨target, contents, rfl, hlookup, hlength.symm⟩

theorem opened_serves (h : Named files) (himage : (encode files).length < 2 ^ 63) :
    Serves files (opened files) where
  root st := by rw [myStat, if_pos rfl]
  stat name st hname := by
    have hpath : 47 :: name ≠ [47] := by simpa using hname
    rw [myStat, if_neg hpath]
    rcases findFile_cases h name with ⟨hfind, hlookup⟩ | ⟨target, contents, hfind, hlookup, hsize⟩
    · simp only [hfind, hlookup]
    · have hlt := length_lt_of_mem himage (mem_of_lookup hlookup)
      have hi64 : i64 (target.size : ℤ) = contents.length := by
        rw [hsize]
        exact i64_of_range (by omega) (by simpa using hlt)
      simp only [hfind, hlookup, hi64]
  listed := by
    have hnames : (opened files).files.map (fun my_fi => cString my_fi.name) =
        files.map Prod.fst := by
      rw [← fileInfos_names (header files).length files, opened]
      refine List.map_congr_left fun info hinfo => cString_of_plain fun c hc => ?_
      have hmem := List.mem_map_of_mem (f := FileInfo.name) hinfo
      rw [fileInfos_names] at hmem
      obtain ⟨file, hfile, heq⟩ := List.mem_map.mp hmem
      exact (h.plain file hfile c (by rwa [heq])).1
    rw [myReaddir, if_neg (not_not_intro rfl), hnames]
  notListed name hname := by
    have hpath : 47 :: name ≠ [47] := by simpa using hname
    rw [myReaddir, if_pos hpath]
  opens name flags := by
    rcases findFile_cases h name with ⟨hfind, hlookup⟩ | ⟨target, contents, hfind, hlookup, _⟩
    · simp only [myOpen, hfind, hlookup]
    · simp only [myOpen, hfind, hlookup, ne_eq, ite_not]
  reads name contents size off hlookup hsize hsize' hoff hoff' := by
    have hlt := length_lt_of_mem himage (mem_of_lookup hlookup)
    obtain ⟨before, after, rfl⟩ := List.append_of_mem (mem_of_lookup hlookup)
    exact readsFile_opened h (by omega) hsize hsize' hoff hoff'
  whole name contents hlookup hshort := by
    obtain ⟨before, after, rfl⟩ := List.append_of_mem (mem_of_lookup hlookup)
    exact readsWhole_opened h hshort

/-- The mounted image of the files answers every call as the map from their names to their contents
does. -/
theorem mount_serves (h : Named files) (hcount : files.length < 2 ^ 32)
    (himage : (encode files).length < 2 ^ 63) :
    ∃ fs, openFilesystem (encode files) = some fs ∧ Serves files fs :=
  ⟨opened files, openFilesystem_encode h hcount (by omega), opened_serves h himage⟩

theorem mount_serves_two :
    ∃ fs, openFilesystem (encode twoFiles) = some fs ∧ Serves twoFiles fs :=
  mount_serves twoFiles_named (by decide) (by rw [twoFiles_encode]; decide)

end
end Acos.SimpleFs
