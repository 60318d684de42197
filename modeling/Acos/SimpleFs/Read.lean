import Acos.SimpleFs.Parse

/-! Reading a file of an image. The clamp of `my_read` compares `size - off` with the file's
size less `off`, both modulo 2^64, and so is right only for some offsets and sizes. -/
namespace Acos.SimpleFs
open Acos.CString Acos.MachineInt Acos.Scanf

/-- The entry of a file that has the given files before and after it. -/
def infoAt (before : List (Bytes × Bytes)) (file : Bytes × Bytes) (after : List (Bytes × Bytes)) :
    FileInfo :=
  ⟨file.1, (header (before ++ file :: after)).length + dataLength before, file.2.length⟩

theorem find_fileInfos {before after : List (Bytes × Bytes)} {file : Bytes × Bytes}
    (h : Named (before ++ file :: after)) (start : ℕ) :
    (fileInfos start (before ++ file :: after)).find?
        (fun info => strncmpEq (cString info.name) file.1 NAME_MAX) =
      some ⟨file.1, start + dataLength before, file.2.length⟩ := by
  have hmatch : ∀ f ∈ before ++ file :: after,
      strncmpEq (cString f.1) file.1 NAME_MAX = decide (f.1 = file.1) := by
    intro f hf
    rw [cString_of_plain fun c hc => (h.plain f hf c hc).1]
    exact strncmpEq_short (h.short f hf) (h.short file (by simp))
  induction before generalizing start with
  | nil =>
    have hself := hmatch file (by simp)
    simp only [List.nil_append, fileInfos, List.find?_cons, hself, decide_true, dataLength_nil,
      Nat.add_zero]
  | cons f before ih =>
    have hne : f.1 ≠ file.1 := by
      have hd := h.distinct
      rw [List.cons_append, List.map_cons, List.nodup_cons] at hd
      intro heq
      exact hd.1 (by simp [heq])
    have hother := hmatch f (by simp)
    have hrest := ih h.tail (start + f.2.length) fun g hg => hmatch g (by simp [hg])
    simp only [List.cons_append, fileInfos, List.find?_cons, hother, hne, decide_false]
    rw [hrest, dataLength_cons, Nat.add_assoc]

/-- The path of a file leads to its entry. -/
theorem findFile_opened {before after : List (Bytes × Bytes)} {file : Bytes × Bytes}
    (h : Named (before ++ file :: after)) :
    findFile (opened (before ++ file :: after)) (47 :: file.1) =
      some (infoAt before file after) :=
  find_fileInfos h _

/-- The bytes of the image in the range of a file are those of its contents. -/
theorem encode_slice {before after : List (Bytes × Bytes)} {file : Bytes × Bytes} {k m : ℕ}
    (h : k + m ≤ file.2.length) :
    ((encode (before ++ file :: after)).drop
        ((header (before ++ file :: after)).length + dataLength before + k)).take m =
      (file.2.drop k).take m := by
  have hbytes : encode (before ++ file :: after) =
      (header (before ++ file :: after) ++ before.flatMap Prod.snd) ++
        (file.2 ++ after.flatMap Prod.snd) := by
    simp [encode]
  have hlen : (header (before ++ file :: after) ++ before.flatMap Prod.snd).length =
      (header (before ++ file :: after)).length + dataLength before := by
    simp [dataLength]
  rw [hbytes, ← hlen, List.drop_length_add_append, List.drop_append_of_le_length (by omega),
    List.take_append_of_le_length (by simp; omega)]

/-- The bytes of a file from `off` on, `size` of them or as many as there are. -/
def fileBytes (contents : Bytes) (size off : ℤ) : Bytes :=
  (contents.drop off.toNat).take size.toNat

theorem fileBytes_length (contents : Bytes) {size off : ℤ} (hsize : 0 ≤ size) (hoff : 0 ≤ off) :
    ((fileBytes contents size off).length : ℤ) = max 0 (min size (contents.length - off)) := by
  simp only [fileBytes, List.length_take, List.length_drop]
  omega

/-- The condition under which the clamp works, for a file of `fileSize` bytes. -/
def ClampFits (fileSize size off : ℤ) : Prop :=
  off < fileSize ∧ (fileSize < size ∨ off ≤ size ∧ off + size ≤ fileSize ∨
      size < off ∧ fileSize ≤ off + size) ∨
    off = fileSize ∧ (size ≠ fileSize ∨ fileSize = 0) ∨ fileSize < off ∧ size = 0

theorem readSize_eq_iff (target : FileInfo) {size off : ℤ} (htarget : target.size < 2 ^ 64)
    (hsize : 0 ≤ size) (hsize' : size < 2 ^ 64) (hoff : 0 ≤ off) (hoff' : off < 2 ^ 63) :
    readSize target size off = max 0 (min size (target.size - off)) ↔
      ClampFits target.size size off := by
  unfold readSize ClampFits u64
  split_ifs <;> omega

theorem readSize_nonneg (target : FileInfo) {size : ℤ} (off : ℤ) (hsize : 0 ≤ size) :
    0 ≤ readSize target size off := by
  unfold readSize u64
  split_ifs <;> omega

/-- A read that succeeds copies as many bytes as the clamped size says. -/
theorem myRead_length {fs : Filesystem} {path bytes : Bytes} {target : FileInfo}
    {size off count : ℤ} (htarget : findFile fs path = some target) (hsize : 0 ≤ size)
    (h : myRead fs path size off = some (count, bytes)) :
    count = i32 (readSize target size off) ∧ (bytes.length : ℤ) = readSize target size off := by
  have hnonneg := readSize_nonneg target off hsize
  unfold myRead at h
  rw [htarget] at h
  simp only [Option.bind_some] at h
  split_ifs at h with hpos hin
  · cases h
    refine ⟨rfl, ?_⟩
    simp only [List.length_take, List.length_drop]
    omega
  · cases h
    refine ⟨rfl, ?_⟩
    simp only [List.length_nil]
    omega

theorem dataLength_split (before : List (Bytes × Bytes)) (file : Bytes × Bytes)
    (after : List (Bytes × Bytes)) :
    dataLength (before ++ file :: after) =
      dataLength before + file.2.length + dataLength after := by
  simp [dataLength, Nat.add_assoc]

/-- Where the clamp works, a read gives the bytes of the file. -/
theorem myRead_opened {before after : List (Bytes × Bytes)} {file : Bytes × Bytes}
    {size off : ℤ} (h : Named (before ++ file :: after)) (hsize : 0 ≤ size) (hoff : 0 ≤ off)
    (hclamp : readSize (infoAt before file after) size off =
      max 0 (min size (file.2.length - off))) :
    myRead (opened (before ++ file :: after)) (47 :: file.1) size off =
      some (i32 (max 0 (min size (file.2.length - off))), fileBytes file.2 size off) := by
  unfold myRead
  rw [findFile_opened h]
  simp only [Option.bind_some, hclamp]
  split_ifs with hpos hin
  · obtain ⟨k, rfl⟩ := Int.eq_ofNat_of_zero_le hoff
    have hstart : ((infoAt before file after).offset + (k : ℤ)).toNat =
        (header (before ++ file :: after)).length + dataLength before + k := by
      simp only [infoAt]
      omega
    have htake : (max 0 (min size (file.2.length - (k : ℤ)))).toNat =
        min size.toNat (file.2.length - k) := by
      omega
    rw [hstart, opened, encode_slice (by omega), fileBytes, Int.toNat_natCast, htake,
      ← List.length_drop, List.take_eq_take_min (i := size.toNat)]
  · exfalso
    apply hin
    have hlen := encode_length (before ++ file :: after)
    have hdata := dataLength_split before file after
    simp only [infoAt, opened]
    omega
  · have hempty : fileBytes file.2 size off = [] := by
      have hlen := fileBytes_length file.2 hsize hoff
      rw [← List.length_eq_zero_iff]
      omega
    rw [hempty]

end Acos.SimpleFs
