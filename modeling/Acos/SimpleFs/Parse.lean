import Acos.SimpleFs.Model

/-! The two readers of an image agree: `strstr` finds the end of the header that `fscanf`
reads entry by entry. -/
namespace Acos.SimpleFs
open Acos.CString Acos.Scanf

/-- The files that an image with the given start of its data records. -/
def fileInfos : ℕ → List (Bytes × Bytes) → List FileInfo
  | _, [] => []
  | start, file :: files =>
    ⟨file.1, start, file.2.length⟩ :: fileInfos (start + file.2.length) files

/-- The size of the contents of all the files. -/
def dataLength (files : List (Bytes × Bytes)) : ℕ := (files.flatMap Prod.snd).length

@[simp] theorem dataLength_nil : dataLength [] = 0 := rfl

@[simp] theorem dataLength_cons (file : Bytes × Bytes) (files : List (Bytes × Bytes)) :
    dataLength (file :: files) = file.2.length + dataLength files := by
  simp [dataLength]

theorem Named.tail {file : Bytes × Bytes} {files : List (Bytes × Bytes)}
    (h : Named (file :: files)) : Named files where
  distinct := by
    have hd := h.distinct
    rw [List.map_cons, List.nodup_cons] at hd
    exact hd.2
  nonempty := fun f hf => h.nonempty f (by simp [hf])
  short := fun f hf => h.short f (by simp [hf])
  plain := fun f hf => h.plain f (by simp [hf])

section Strstr

/-- A line without line ends and terminators cannot hold the start of a blank line. -/
theorem strstr_skip {line rest : Bytes} (h : ∀ c ∈ line, c ≠ 10 ∧ c ≠ 0) :
    strstr [10, 10] (line ++ rest) = (strstr [10, 10] rest).map (· + line.length) := by
  induction line with
  | nil => simp
  | cons c line ih =>
    obtain ⟨hend, hzero⟩ := h c (by simp)
    have hstart : List.isPrefixOf [10, 10] (c :: (line ++ rest)) = false := by
      simp [List.isPrefixOf, hend.symm]
    rw [List.cons_append, strstr, hstart, ih fun d hd => h d (by simp [hd])]
    simp [hzero, Option.map_map, Function.comp_def, Nat.add_assoc]

/-- The body of a line of the header, without its line end. -/
theorem entry_eq (file : Bytes × Bytes) :
    entry file = (file.1 ++ 32 :: decimal file.2.length) ++ [10] := by
  simp [entry]

theorem line_plain {file : Bytes × Bytes} (hname : ∀ c ∈ file.1, c ≠ 0 ∧ isspace c = false) :
    ∀ c ∈ file.1 ++ 32 :: decimal file.2.length, c ≠ 10 ∧ c ≠ 0 := by
  intro c hc
  rcases List.mem_append.mp hc with hc | hc
  · obtain ⟨hzero, hspace⟩ := hname c hc
    refine ⟨?_, hzero⟩
    rintro rfl
    simp [isspace] at hspace
  · rcases List.mem_cons.mp hc with rfl | hc
    · decide
    · obtain ⟨_, _, _, hend, hzero⟩ := isdigit_not_special (decimal_isdigit _ c hc)
      exact ⟨hend, hzero⟩

/-- From a line end on, the blank line is found after all the entries. -/
theorem strstr_entries {files : List (Bytes × Bytes)} (h : Named files) (data : Bytes) :
    strstr [10, 10] (10 :: (files.flatMap entry ++ 10 :: data)) =
      some (files.flatMap entry).length := by
  induction files with
  | nil => simp [strstr, List.isPrefixOf]
  | cons file files ih =>
    have hplain := line_plain (h.plain file (by simp))
    obtain ⟨c, name, hname⟩ := List.exists_cons_of_ne_nil (h.nonempty file (by simp))
    have hc : c ≠ 10 := (hplain c (by simp [hname])).1
    have hbody : (file :: files).flatMap entry ++ 10 :: data =
        (file.1 ++ 32 :: decimal file.2.length) ++
          10 :: (files.flatMap entry ++ 10 :: data) := by
      simp [entry_eq]
    have hstart : List.isPrefixOf [10, 10] (10 :: ((file :: files).flatMap entry ++ 10 :: data))
        = false := by
      simp [List.isPrefixOf, List.flatMap_cons, entry, hname, hc.symm]
    rw [strstr, hstart, hbody, strstr_skip hplain, ih h.tail]
    simp [entry]
    omega

/-- `strstr` gives the last byte of the last line of the header. -/
theorem strstr_encode {files : List (Bytes × Bytes)} (h : Named files) :
    strstr [10, 10] (encode files) = some ((header files).length - 2) := by
  have hdigits : ∀ c ∈ decimal files.length, c ≠ 10 ∧ c ≠ 0 := by
    intro c hc
    obtain ⟨_, _, _, hend, hzero⟩ := isdigit_not_special (decimal_isdigit _ c hc)
    exact ⟨hend, hzero⟩
  have hbytes : encode files =
      decimal files.length ++ 10 :: (files.flatMap entry ++ 10 :: files.flatMap Prod.snd) := by
    simp [encode, header]
  rw [hbytes, strstr_skip hdigits, strstr_entries h]
  simp [header]
  omega

end Strstr

/-- One call of `fscanf` reads one line of the header. -/
theorem scanEntry_entry {file : Bytes × Bytes} (rest : Bytes) (hne : file.1 ≠ [])
    (hshort : file.1.length < NAME_MAX) (hname : ∀ c ∈ file.1, isspace c = false) :
    scanEntry (10 :: (entry file ++ rest)) =
      if file.2.length < 2 ^ 64 then some (file.1, file.2.length, 10 :: rest) else none := by
  have hbytes : 10 :: (entry file ++ rest) =
      [10] ++ (file.1 ++ 32 :: (decimal file.2.length ++ 10 :: rest)) := by
    simp [entry]
  have hword : scanString (10 :: (entry file ++ rest)) =
      (some file.1, 32 :: (decimal file.2.length ++ 10 :: rest)) := by
    rw [hbytes]
    exact scanString_word (by simp [isspace]) hne hname (by decide)
  have hnumber : scanUnsigned 64 (32 :: (decimal file.2.length ++ 10 :: rest)) =
      if file.2.length < 2 ^ 64 then some (some file.2.length, 10 :: rest) else none :=
    scanUnsigned_decimal [32] (by simp [isspace]) (by decide)
  simp only [scanEntry, hword, hnumber, if_neg (Nat.not_le.mpr hshort)]
  split_ifs
  · simp only [Option.map_some, Option.getD_some]
  · rfl

theorem openEntries_entries {files : List (Bytes × Bytes)} (h : Named files) (start : ℕ)
    (hfit : start + dataLength files < 2 ^ 64) (tail : Bytes) :
    openEntries files.length start (10 :: (files.flatMap entry ++ tail)) =
      some (fileInfos start files) := by
  induction files generalizing start with
  | nil => rfl
  | cons file files ih =>
    rw [dataLength_cons] at hfit
    have hentry := scanEntry_entry (files.flatMap entry ++ tail)
      (h.nonempty file (by simp)) (h.short file (by simp))
      fun c hc => (h.plain file (by simp) c hc).2
    rw [if_pos (by omega)] at hentry
    have hmod : (start + file.2.length) % 2 ^ 64 = start + file.2.length :=
      Nat.mod_eq_of_lt (by omega)
    have hrest := ih h.tail (start + file.2.length) (by omega)
    rw [List.flatMap_cons, List.append_assoc, List.length_cons, openEntries, hentry]
    simp only [Option.bind_some, hmod, hrest, Option.map_some, fileInfos]

/-- The number of files is read first, and only then the entries. -/
theorem scanUnsigned_encode (files : List (Bytes × Bytes)) :
    scanUnsigned 32 (encode files) = if files.length < 2 ^ 32 then some (some files.length,
      10 :: (files.flatMap entry ++ 10 :: files.flatMap Prod.snd)) else none := by
  have hbytes : encode files = [] ++ (decimal files.length ++
      10 :: (files.flatMap entry ++ 10 :: files.flatMap Prod.snd)) := by
    simp [encode, header]
  rw [hbytes]
  exact scanUnsigned_decimal [] (by simp) (by decide)

theorem encode_length (files : List (Bytes × Bytes)) :
    (encode files).length = (header files).length + dataLength files := by
  simp [encode, dataLength]

/-- The image of the files, opened. -/
def opened (files : List (Bytes × Bytes)) : Filesystem :=
  ⟨fileInfos (header files).length files, encode files⟩

/-- Opening an image records its files with the ranges of their contents. -/
theorem openFilesystem_encode {files : List (Bytes × Bytes)} (h : Named files)
    (hcount : files.length < 2 ^ 32) (himage : (encode files).length < 2 ^ 64) :
    openFilesystem (encode files) = some (opened files) := by
  rw [encode_length] at himage
  have hheader : 2 ≤ (header files).length := by
    simp [header]
    omega
  have hstart : ((header files).length - 2 + 2) % 2 ^ 64 = (header files).length := by
    rw [Nat.sub_add_cancel hheader]
    exact Nat.mod_eq_of_lt (by omega)
  have hnumber := (scanUnsigned_encode files).trans (if_pos hcount)
  have hentries := openEntries_entries h (header files).length himage
    (10 :: files.flatMap Prod.snd)
  simp only [openFilesystem, strstr_encode h, Option.bind_some, hnumber, Option.getD_some,
    hstart, hentries, Option.map_some, opened]

end Acos.SimpleFs
