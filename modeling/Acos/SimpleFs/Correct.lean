import Acos.SimpleFs.Read
import Mathlib.Data.List.Nodup

/-! When reading is right: for which offsets and sizes a single read gives the bytes of its
file, and for which images every file can be read back. -/
namespace Acos.SimpleFs
open Acos.CString Acos.MachineInt Acos.Scanf

/-- The read gives exactly the bytes of the file, and their number. -/
def ReadsFile (fs : Filesystem) (file : Bytes × Bytes) (size off : ℤ) : Prop :=
  myRead fs (47 :: file.1) size off =
    some (((fileBytes file.2 size off).length : ℤ), fileBytes file.2 size off)

/-- When a read of `size` bytes from `off` on is right: the clamp works, and the number of
bytes fits the `int` that is returned. -/
def ReadFits (fileSize size off : ℤ) : Prop :=
  ClampFits fileSize size off ∧ min size (fileSize - off) < 2 ^ 31

theorem readsFile_opened {before after : List (Bytes × Bytes)} {file : Bytes × Bytes}
    {size off : ℤ} (h : Named (before ++ file :: after)) (hfile : file.2.length < 2 ^ 64)
    (hsize : 0 ≤ size) (hsize' : size < 2 ^ 64) (hoff : 0 ≤ off) (hoff' : off < 2 ^ 63) :
    ReadsFile (opened (before ++ file :: after)) file size off ↔
      ReadFits file.2.length size off := by
  have hlen := fileBytes_length file.2 hsize hoff
  have hclamp := readSize_eq_iff (infoAt before file after) hfile hsize hsize' hoff hoff'
  constructor
  · intro hread
    obtain ⟨hcount, hbytes⟩ := myRead_length (findFile_opened h) hsize hread
    have heq := hbytes.symm.trans hlen
    rw [← hbytes] at hcount
    unfold i32 at hcount
    exact ⟨hclamp.mp heq, by omega⟩
  · rintro ⟨hfits, hint⟩
    unfold ReadsFile
    rw [myRead_opened h hsize hoff (hclamp.mpr hfits), hlen, i32_of_range (by omega) (by omega)]

theorem length_lt_of_mem {files : List (Bytes × Bytes)} {file : Bytes × Bytes} {bound : ℕ}
    (himage : (encode files).length < bound) (hfile : file ∈ files) : file.2.length < bound := by
  obtain ⟨before, after, rfl⟩ := List.append_of_mem hfile
  have hlen := encode_length (before ++ file :: after)
  have hdata := dataLength_split before file after
  omega

/-- A read of any file of any image gives exactly the bytes that were asked for if and only
if the clamp works for the file's size, the offset and the size of the read. -/
theorem my_read_exact_iff {files : List (Bytes × Bytes)} (h : Named files)
    (hcount : files.length < 2 ^ 32) (himage : (encode files).length < 2 ^ 63) {fs : Filesystem}
    (hfs : openFilesystem (encode files) = some fs) {file : Bytes × Bytes} (hfile : file ∈ files)
    {size off : ℤ} (hsize : 0 ≤ size) (hsize' : size < 2 ^ 64) (hoff : 0 ≤ off)
    (hoff' : off < 2 ^ 63) :
    ReadsFile fs file size off ↔ ReadFits file.2.length size off := by
  rw [openFilesystem_encode h hcount (by omega)] at hfs
  cases hfs
  have hlt := length_lt_of_mem himage hfile
  obtain ⟨before, after, rfl⟩ := List.append_of_mem hfile
  exact readsFile_opened h (by omega) hsize hsize' hoff hoff'

/-- Two files, `a` of three bytes and `b` of two. -/
def twoFiles : List (Bytes × Bytes) := [([97], [120, 121, 122]), ([98], [117, 118])]

theorem twoFiles_named : Named twoFiles where
  distinct := by decide
  nonempty := by decide
  short := by decide
  plain := by simp [twoFiles, isspace]

theorem twoFiles_encode :
    encode twoFiles = [50, 10, 97, 32, 51, 10, 98, 32, 50, 10, 10, 120, 121, 122, 117, 118] := by
  simp [encode, header, entry, twoFiles, decimal, digit]

theorem my_read_whole_file :
    ∃ fs, openFilesystem (encode twoFiles) = some fs ∧
      ReadsFile fs ([97], [120, 121, 122]) 4 1 := by
  have hopen := openFilesystem_encode twoFiles_named (by decide)
    (by rw [twoFiles_encode]; decide)
  refine ⟨_, hopen, (my_read_exact_iff twoFiles_named (by decide)
    (by rw [twoFiles_encode]; decide) hopen (by decide) (by decide) (by decide) (by decide)
    (by decide)).mpr ?_⟩
  unfold ReadFits ClampFits
  decide

/-- Three bytes of `a` from offset 1 on: the read goes on into `b`. -/
theorem my_read_past_end : ¬ ∀ files fs file size off, Named files → files.length < 2 ^ 32 →
    (encode files).length < 2 ^ 63 → openFilesystem (encode files) = some fs → file ∈ files →
    0 ≤ size → size < 2 ^ 64 → 0 ≤ off → off < 2 ^ 63 → ReadsFile fs file size off := by
  intro hall
  have hopen := openFilesystem_encode twoFiles_named (by decide)
    (by rw [twoFiles_encode]; decide)
  have hread := hall twoFiles _ ([97], [120, 121, 122]) 3 1 twoFiles_named (by decide)
    (by rw [twoFiles_encode]; decide) hopen (by decide) (by decide) (by decide) (by decide)
    (by decide)
  have hfits := (@readsFile_opened [] _ _ 3 1 twoFiles_named (by decide) (by decide)
    (by decide) (by decide) (by decide)).mp hread
  revert hfits
  unfold ReadFits ClampFits
  decide

section ReadBack

/-- The byte at position `p` of the image belongs to the file. -/
def InRange (info : FileInfo) (p : ℕ) : Prop := info.offset ≤ p ∧ p < info.offset + info.size

/-- The ranges of the files are disjoint, lie between the two positions and cover what is
between them. -/
def RangesTile (infos : List FileInfo) (first last : ℕ) : Prop :=
  infos.Pairwise (fun a b => ∀ p, ¬ (InRange a p ∧ InRange b p)) ∧
    (∀ info ∈ infos, first ≤ info.offset ∧ info.offset + info.size ≤ last) ∧
      ∀ p, first ≤ p → p < last → ∃ info ∈ infos, InRange info p

/-- The image of the files opens, with ranges that tile its data area. -/
def OpensAs (files : List (Bytes × Bytes)) (fs : Filesystem) : Prop :=
  openFilesystem (encode files) = some fs ∧ fs.files.map FileInfo.name = files.map Prod.fst ∧
    RangesTile fs.files (header files).length (encode files).length

/-- Reading a file from its start with room for all of it gives its contents. -/
def ReadsWhole (fs : Filesystem) (file : Bytes × Bytes) : Prop :=
  ∀ size : ℤ, file.2.length ≤ size → size < 2 ^ 64 →
    myRead fs (47 :: file.1) size 0 = some ((file.2.length : ℤ), file.2)

theorem fileInfos_names (start : ℕ) (files : List (Bytes × Bytes)) :
    (fileInfos start files).map FileInfo.name = files.map Prod.fst := by
  induction files generalizing start with
  | nil => rfl
  | cons file files ih => simp [fileInfos, ih]

theorem fileInfos_bounds {start : ℕ} {files : List (Bytes × Bytes)} :
    ∀ info ∈ fileInfos start files,
      start ≤ info.offset ∧ info.offset + info.size ≤ start + dataLength files := by
  induction files generalizing start with
  | nil => simp [fileInfos]
  | cons file files ih =>
    intro info hinfo
    rw [dataLength_cons]
    rcases List.mem_cons.mp hinfo with rfl | hrest
    · simp only
      omega
    · obtain ⟨hfirst, hlast⟩ := ih info hrest
      omega

theorem fileInfos_tile (start : ℕ) (files : List (Bytes × Bytes)) :
    RangesTile (fileInfos start files) start (start + dataLength files) := by
  refine ⟨?_, fileInfos_bounds, ?_⟩
  · induction files generalizing start with
    | nil => exact .nil
    | cons file files ih =>
      refine .cons ?_ (ih _)
      intro info hinfo p hboth
      obtain ⟨hfirst, _⟩ := fileInfos_bounds info hinfo
      unfold InRange at hboth
      simp only at hboth
      omega
  · induction files generalizing start with
    | nil =>
      intro p hfirst hlast
      simp at hlast
      omega
    | cons file files ih =>
      intro p hfirst hlast
      rw [dataLength_cons] at hlast
      by_cases hp : p < start + file.2.length
      · exact ⟨_, List.mem_cons_self, hfirst, hp⟩
      · obtain ⟨info, hinfo, hin⟩ := ih (start + file.2.length) p (by omega) (by omega)
        exact ⟨info, List.mem_cons_of_mem _ hinfo, hin⟩

theorem fileBytes_all {contents : Bytes} {size : ℤ} (h : contents.length ≤ size) :
    fileBytes contents size 0 = contents := by
  unfold fileBytes
  rw [Int.toNat_zero, List.drop_zero, List.take_of_length_le (by omega)]

theorem readsWhole_opened {before after : List (Bytes × Bytes)} {file : Bytes × Bytes}
    (h : Named (before ++ file :: after)) (hfile : file.2.length < 2 ^ 31) :
    ReadsWhole (opened (before ++ file :: after)) file := by
  intro size hlong hsize
  have hfits : ReadFits file.2.length size 0 := by
    unfold ReadFits ClampFits
    omega
  have hread := (readsFile_opened h (by omega) (by omega) hsize (by decide) (by decide)).mpr hfits
  rw [ReadsFile, fileBytes_all hlong] at hread
  exact hread

/-- An image of fewer than 2^32 files opens with ranges that tile it, and every file of fewer
than 2^31 bytes reads back as it is. -/
theorem open_read_back {files : List (Bytes × Bytes)} (h : Named files)
    (hcount : files.length < 2 ^ 32) (himage : (encode files).length < 2 ^ 64) :
    ∃ fs, OpensAs files fs ∧ ∀ file ∈ files, file.2.length < 2 ^ 31 → ReadsWhole fs file := by
  refine ⟨opened files, ⟨openFilesystem_encode h hcount himage, fileInfos_names _ _, ?_⟩, ?_⟩
  · rw [encode_length]
    exact fileInfos_tile _ _
  · intro file hfile hshort
    obtain ⟨before, after, rfl⟩ := List.append_of_mem hfile
    exact readsWhole_opened h hshort

theorem open_read_back_two :
    ∃ fs, OpensAs twoFiles fs ∧
      ∀ file ∈ twoFiles, file.2.length < 2 ^ 31 → ReadsWhole fs file :=
  open_read_back twoFiles_named (by decide) (by rw [twoFiles_encode]; decide)

/-- One file, `a`, of `size` zero bytes. -/
def zeros (size : ℕ) : List (Bytes × Bytes) := [([97], List.replicate size 0)]

theorem zeros_count (size : ℕ) : (zeros size).length < 2 ^ 32 := by
  simp [zeros]

theorem zeros_named (size : ℕ) : Named (zeros size) where
  distinct := by simp [zeros]
  nonempty := by simp [zeros]
  short := by simp [zeros, NAME_MAX]
  plain := by
    simp [zeros, isspace]

/-- `count` empty files with their numbers as names. -/
def numbered (count : ℕ) : List (Bytes × Bytes) :=
  (List.range count).map fun i => (decimal i, [])

theorem numbered_named {count : ℕ} (hcount : count ≤ 10 ^ 10) : Named (numbered count) where
  distinct := by
    unfold numbered
    rw [List.map_map]
    exact List.Nodup.map decimal_injective List.nodup_range
  nonempty := by
    intro file hfile
    obtain ⟨i, _, rfl⟩ := List.mem_map.mp hfile
    exact decimal_ne_nil i
  short := by
    intro file hfile
    obtain ⟨i, hi, rfl⟩ := List.mem_map.mp hfile
    rw [List.mem_range] at hi
    have hlen : (decimal i).length ≤ 10 := decimal_length_le (by decide) (by omega)
    simp only [NAME_MAX]
    omega
  plain := by
    intro file hfile c hc
    obtain ⟨i, _, rfl⟩ := List.mem_map.mp hfile
    obtain ⟨hspace, _, _, _, hzero⟩ := isdigit_not_special (decimal_isdigit i c hc)
    exact ⟨hzero, hspace⟩

/-- The number of bytes of such a file does not fit the `int` that `my_read` returns. -/
theorem zeros_not_readsWhole {size : ℕ} (hlarge : 2 ^ 31 ≤ size) (hsize : size < 2 ^ 63) :
    ¬ ReadsWhole (opened (zeros size)) ([97], List.replicate size 0) := by
  intro hall
  have hlen : (List.replicate size (0 : UInt8)).length = size := List.length_replicate
  have hread := hall size (by simp only [hlen, le_refl]) (by omega)
  have hfile : ReadsFile (opened (zeros size)) ([97], List.replicate size 0) size 0 := by
    unfold ReadsFile
    rw [fileBytes_all (by simp only [hlen, le_refl])]
    exact hread
  have hfits := (@readsFile_opened [] [] _ _ _ (zeros_named size) (by simp only [hlen]; omega)
    (by omega) (by omega) (by decide) (by decide)).mp hfile
  unfold ReadFits at hfits
  simp only [hlen] at hfits
  omega

theorem zeros_encode_length {size : ℕ} (hsize : size < 2 ^ 63) :
    (encode (zeros size)).length < 2 ^ 64 := by
  have hone : (decimal 1).length ≤ 1 := decimal_length_le (by decide) (by decide)
  have hdigits : (decimal size).length ≤ 20 := decimal_length_le (by decide) (by omega)
  rw [encode_length]
  simp only [zeros, header, entry, List.length_append, List.length_cons, List.flatMap_cons,
    List.flatMap_nil, List.append_nil, List.length_nil, dataLength_cons, dataLength_nil,
    List.length_replicate, Nat.zero_add]
  omega

/-- The number of files does not fit `FS.count`. -/
theorem openFilesystem_numbered {count : ℕ} (hcount : 2 ^ 32 ≤ count) :
    openFilesystem (encode (numbered count)) = none := by
  have hlen : ¬ (numbered count).length < 2 ^ 32 := by
    simp only [numbered, List.length_map, List.length_range]
    omega
  have hnumber := (scanUnsigned_encode (numbered count)).trans (if_neg hlen)
  simp only [openFilesystem, hnumber, Option.bind_none, Option.bind_fun_none]

/-- The size of the file does not fit its `uint64_t`. -/
theorem openFilesystem_zeros {size : ℕ} (hsize : 2 ^ 64 ≤ size) :
    openFilesystem (encode (zeros size)) = none := by
  have hnumber := (scanUnsigned_encode (zeros size)).trans (if_pos (zeros_count size))
  have hnamed := zeros_named size
  have hentry := scanEntry_entry (10 :: (zeros size).flatMap Prod.snd)
    (hnamed.nonempty _ List.mem_cons_self) (hnamed.short _ List.mem_cons_self)
    fun c hc => (hnamed.plain _ List.mem_cons_self c hc).2
  rw [if_neg (by simp only [List.length_replicate]; omega)] at hentry
  have hentries (start : ℕ) : openEntries (zeros size).length start
      (10 :: ((zeros size).flatMap entry ++ 10 :: (zeros size).flatMap Prod.snd)) = none := by
    have hline : (zeros size).flatMap entry = entry ([97], List.replicate size 0) := by
      simp [zeros]
    rw [hline, show (zeros size).length = 0 + 1 from rfl, openEntries, hentry]
    rfl
  simp only [openFilesystem, hnumber, Option.bind_some, Option.getD_some, hentries,
    Option.map_none, Option.bind_fun_none]

/-- None of the three limits can be dropped: a file of 2^31 bytes is not read back, and 2^32
files or a file of 2^64 bytes cannot be opened. -/
theorem read_back_limits :
    (∃ files, Named files ∧ (encode files).length < 2 ^ 64 ∧ files.length < 2 ^ 32 ∧
      ¬ ∃ fs, OpensAs files fs ∧ ∀ file ∈ files, ReadsWhole fs file) ∧
    (∃ files, Named files ∧ (∀ file ∈ files, file.2.length < 2 ^ 31) ∧
      ¬ ∃ fs, OpensAs files fs ∧ ∀ file ∈ files, ReadsWhole fs file) ∧
    ∃ files, Named files ∧ files.length < 2 ^ 32 ∧ ¬ ∃ fs, OpensAs files fs := by
  refine ⟨⟨zeros (2 ^ 31), zeros_named _, zeros_encode_length (by decide), zeros_count _, ?_⟩,
    ⟨numbered (2 ^ 32), numbered_named (by decide), ?_, ?_⟩,
    ⟨zeros (2 ^ 64), zeros_named _, zeros_count _, ?_⟩⟩
  · rintro ⟨fs, ⟨hopen, _⟩, hread⟩
    rw [openFilesystem_encode (zeros_named _) (zeros_count _)
      (zeros_encode_length (by decide))] at hopen
    cases hopen
    exact zeros_not_readsWhole (le_refl _) (by decide) (hread _ List.mem_cons_self)
  · intro file hfile
    obtain ⟨i, _, rfl⟩ := List.mem_map.mp hfile
    exact Nat.two_pow_pos 31
  · rintro ⟨fs, ⟨hopen, _⟩, _⟩
    rw [openFilesystem_numbered (le_refl _)] at hopen
    cases hopen
  · rintro ⟨fs, hopen, _⟩
    rw [openFilesystem_zeros (le_refl _)] at hopen
    cases hopen

end ReadBack

end Acos.SimpleFs
