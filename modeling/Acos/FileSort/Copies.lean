import Acos.FileSort.Files

/-! Copying a part of a file, and the calls of `copy_file_segment` that the sort makes. -/
namespace Acos.FileSort
open Acos.IntBytes Acos.MachineInt Acos.PosixFile

/-- A call of `copy_file_segment` for a part of `count` integers. -/
structure CopyCall where
  source : ℕ
  target : ℕ
  process : Process
  count : ℤ

section Calls
variable (sched : ℕ → ℕ)

def CopyCall.run (c : CopyCall) : Option Process :=
  copyFileSegment sched c.source c.target c.process (byteCount c.count)

/-- The call comes to an end, with the next bytes of the source in the target: four for each
integer of the part, as many as its parameter says. -/
structure CopyCall.Exact (c : CopyCall) : Prop where
  bytesCount : byteCount c.count = 4 * c.count
  copied : ∃ p' bytes, c.run sched = some p' ∧ (bytes.length : ℤ) = 4 * c.count ∧
    bytes <+: (c.process.world.files c.source).data.drop (c.process.world.files c.source).pos ∧
    (p'.world.files c.source).data = (c.process.world.files c.source).data ∧
    p'.world.files c.target =
      ⟨overwrite (c.process.world.files c.target).data (c.process.world.files c.target).pos bytes,
        (c.process.world.files c.target).pos + bytes.length⟩

/-- The call that `merge_files` makes, if it makes one. -/
def mergeFilesCalls (fd1 : ℕ) (size1 : ℤ) (fd2 : ℕ) (size2 : ℤ) (fdOut : ℕ) (p : Process) :
    List CopyCall :=
  let w := move (move p.world fd1 0) fd2 0
  match mergeLoop sched fd1 fd2 fdOut (size1 + size2).toNat w size1 size2 with
  | none => []
  | some (w, size1, size2) =>
    if size1 ≠ 0 ∨ size2 ≠ 0 then
      let (lastFd, lastSize) := if size2 ≠ 0 then (fd2, size2) else (fd1, size1)
      [⟨lastFd, fdOut, ⟨w, p.mainBuffer⟩, lastSize⟩]
    else []

/-- The calls that `merge_sort` makes, those of the two it calls and of `merge_files` included,
up to one that does not come to an end. -/
def mergeSortCalls (qsort : (ℤ → ℤ → ℤ) → List ℤ → List ℤ) (fd t1 t2 : ℕ) :
    ℕ → Process → ℤ → ℤ → List CopyCall
  | 0, _, _, _ => []
  | fuel + 1, p, left, right =>
    if right - left ≤ segmentSize then []
    else
      let mid := left + (right - left) / 2
      mergeSortCalls qsort fd t1 t2 fuel p left mid ++
        (mergeSort sched qsort fd t1 t2 fuel p left mid).elim [] fun p =>
          mergeSortCalls qsort fd t1 t2 fuel p mid right ++
            (mergeSort sched qsort fd t1 t2 fuel p mid right).elim [] fun p =>
              let w := move (move p.world t1 0) t2 0
              let call : CopyCall := ⟨fd, t1, ⟨move w fd left, p.mainBuffer⟩, mid - left⟩
              call :: (call.run sched).elim [] fun p =>
                let call : CopyCall := ⟨fd, t2, ⟨move p.world fd mid, p.mainBuffer⟩, right - mid⟩
                call :: (call.run sched).elim [] fun p =>
                  mergeFilesCalls sched t1 (mid - left) t2 (right - mid) fd
                    ⟨move p.world fd left, p.mainBuffer⟩

end Calls

variable (sched : ℕ → ℕ)

theorem min_bufferSize (k : ℕ) : min (k : ℤ) bufferSize = (min k 10000 : ℕ) := by
  unfold bufferSize
  omega

theorem copyLoop_files {source target fuel : ℕ} {p : Process} {bytes : List UInt8}
    (hne : source ≠ target) (hfuel : bytes.length ≤ fuel)
    (hahead : bytes <+: (p.world.files source).data.drop (p.world.files source).pos)
    (hpos : (p.world.files target).pos ≤ (p.world.files target).data.length) :
    ∃ p', copyLoop sched source target fuel p bytes.length = some p' ∧
      (p'.world.files source).data = (p.world.files source).data ∧
      p'.world.files target =
        ⟨overwrite (p.world.files target).data (p.world.files target).pos bytes,
          (p.world.files target).pos + bytes.length⟩ ∧
      ∀ k, k ≠ source → k ≠ target → p'.world.files k = p.world.files k := by
  induction fuel generalizing p bytes with
  | zero =>
    have hnil : bytes = [] := List.length_eq_zero_iff.mp (by omega)
    rw [hnil, overwrite_nil hpos]
    exact ⟨p, by simp [copyLoop], rfl, rfl, fun _ _ _ => rfl⟩
  | succ fuel ih =>
    by_cases hnil : bytes = []
    · rw [hnil, overwrite_nil hpos]
      exact ⟨p, by simp [copyLoop], rfl, rfl, fun _ _ _ => rfl⟩
    have hlen := List.length_pos_iff.mpr hnil
    -- one round copies the first `n` bytes
    obtain ⟨n, hn⟩ : ∃ n, n = min 10000 bytes.length := ⟨_, rfl⟩
    have hstep : min bufferSize (bytes.length : ℤ) = n := by
      rw [min_comm, min_bufferSize, hn, min_comm]
    have htake : (bytes.take n).length = n := by
      rw [List.length_take]
      omega
    have hahead1 : bytes.take n <+: (p.world.files source).data.drop (p.world.files source).pos :=
      (List.take_prefix n bytes).trans hahead
    obtain ⟨w1, hread, hupd1⟩ := readBytes_updated sched hahead1
    have htarget1 := hupd1.frame target (Ne.symm hne)
    obtain ⟨w2, hwrite, hupd2⟩ := writeBytes_updated sched target (w := w1)
      (bytes.take n) (p.mainBuffer.drop (bytes.take n).length) (by rwa [htarget1])
    rw [htarget1] at hupd2
    rw [htake] at hread hwrite hupd1 hupd2
    have hsource2 := (hupd2.frame source hne).trans hupd1.file
    obtain ⟨p', hloop, hdata, htarget, hframe⟩ := @ih
      ⟨w2, bytes.take n ++ p.mainBuffer.drop n⟩ (bytes.drop n)
      (by rw [List.length_drop]; omega)
      (by
        rw [hsource2]
        show bytes.drop n <+: (p.world.files source).data.drop ((p.world.files source).pos + n)
        rw [← List.drop_drop]
        exact hahead.drop n)
      (by
        rw [hupd2.file]
        have hle := overwrite_length (bytes.take n) hpos
        rwa [htake] at hle)
    refine ⟨p', ?_, ?_, ?_, ?_⟩
    · rw [copyLoop, if_neg (by omega), hstep]
      simp only [hread, Option.bind_eq_bind, Option.bind_some, htake, hwrite]
      rw [← hloop, List.length_drop]
      congr 1
      omega
    · rw [hdata, hsource2]
    · have htwo := overwrite_overwrite (a := bytes.take n) (b := bytes.drop n) hpos
      rw [htake, List.take_append_drop] at htwo
      have hend : (p.world.files target).pos + n + (bytes.drop n).length =
          (p.world.files target).pos + bytes.length := by
        rw [List.length_drop]
        omega
      rw [htarget, hupd2.file, htwo, hend]
    · intro k hks hkt
      rw [hframe k hks hkt, hupd2.frame k hkt, hupd1.frame k hks]

/-- `copy_file_segment` of an array of integers. -/
theorem copyFileSegment_files {source target : ℕ} {p : Process} (xs : List ℤ)
    (hne : source ≠ target) (hlen : 4 * xs.length < 2 ^ 31)
    (hahead : encodeInts xs <+: (p.world.files source).data.drop (p.world.files source).pos)
    (hpos : (p.world.files target).pos ≤ (p.world.files target).data.length) :
    ∃ p', copyFileSegment sched source target p (byteCount xs.length) = some p' ∧
      (p'.world.files source).data = (p.world.files source).data ∧
      p'.world.files target =
        ⟨overwrite (p.world.files target).data (p.world.files target).pos (encodeInts xs),
          (p.world.files target).pos + 4 * xs.length⟩ ∧
      ∀ k, k ≠ source → k ≠ target → p'.world.files k = p.world.files k := by
  have hcopy := copyLoop_files sched hne (le_refl _) hahead hpos
  rw [encodeInts_length] at hcopy
  rw [copyFileSegment, byteCount_of_range hlen, Int.toNat_natCast]
  exact hcopy

/-- A part of less than `2 ^ 29` integers ahead of the source is copied exactly. -/
theorem exact_of_ahead {c : CopyCall} (xs : List ℤ) (hne : c.source ≠ c.target)
    (hcount : c.count = xs.length) (hlen : 4 * xs.length < 2 ^ 31)
    (hahead : encodeInts xs <+:
      (c.process.world.files c.source).data.drop (c.process.world.files c.source).pos)
    (hpos : (c.process.world.files c.target).pos ≤ (c.process.world.files c.target).data.length) :
    c.Exact sched := by
  obtain ⟨p', hcopy, hsource, htarget, -⟩ := copyFileSegment_files sched xs hne hlen hahead hpos
  refine ⟨?_, p', encodeInts xs, ?_, ?_, hahead, hsource, ?_⟩
  · rw [hcount, byteCount_of_range hlen]
    push_cast
    rfl
  · rw [CopyCall.run, hcount]
    exact hcopy
  · rw [hcount, encodeInts_length]
    push_cast
    rfl
  · rw [htarget, encodeInts_length]

/-- From `2 ^ 29` integers on the number of bytes wraps. -/
theorem byteCount_wraps {k : ℕ} (hlo : 2 ^ 29 ≤ k) (hhi : k ≤ 2 ^ 30) :
    byteCount k ≠ 4 * k := by
  unfold byteCount u64 i32
  omega

end Acos.FileSort
