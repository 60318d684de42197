import Mathlib.Data.Int.Notation
import Mathlib.Data.List.Infix
import Mathlib.Logic.Function.Basic
import Mathlib.Order.Basic

/-! Regular files behind descriptors. A call transfers at least one byte, if there is one, but
may transfer fewer than it was asked for: a schedule says how many. -/
namespace Acos.PosixFile

structure File where
  data : List UInt8
  pos : ℕ

/-- The files behind the descriptors, and how many transfers there have been. -/
structure World where
  files : ℕ → File
  calls : ℕ

/-- The bytes of a file after a write of `bytes` at `pos`. -/
def overwrite (data : List UInt8) (pos : ℕ) (bytes : List UInt8) : List UInt8 :=
  (data ++ List.replicate (pos - data.length) 0).take pos ++ bytes ++ data.drop (pos + bytes.length)

/-- `read`: at most `n` bytes from the offset on; none of them at the end of the file. -/
def World.read (sched : ℕ → ℕ) (w : World) (fd n : ℕ) : World × List UInt8 :=
  let file := w.files fd
  let bytes := (file.data.drop file.pos).take (min n (1 + sched w.calls))
  (⟨Function.update w.files fd ⟨file.data, file.pos + bytes.length⟩, w.calls + 1⟩, bytes)

/-- `write`: the world after it and how many of the bytes were written. -/
def World.write (sched : ℕ → ℕ) (w : World) (fd : ℕ) (bytes : List UInt8) : World × ℕ :=
  let file := w.files fd
  let chunk := bytes.take (1 + sched w.calls)
  (⟨Function.update w.files fd ⟨overwrite file.data file.pos chunk, file.pos + chunk.length⟩,
    w.calls + 1⟩, chunk.length)

/-- `lseek` to an offset from the start of the file; it fails if that is negative. -/
def World.seekSet (w : World) (fd : ℕ) (offset : ℤ) : World :=
  if 0 ≤ offset then
    { w with files := Function.update w.files fd ⟨(w.files fd).data, offset.toNat⟩ }
  else w

/-- `lseek` to an offset from the current one. -/
def World.seekCur (w : World) (fd : ℕ) (offset : ℤ) : World :=
  w.seekSet fd ((w.files fd).pos + offset)

theorem overwrite_of_le {data bytes : List UInt8} {pos : ℕ} (h : pos ≤ data.length) :
    overwrite data pos bytes = data.take pos ++ bytes ++ data.drop (pos + bytes.length) := by
  rw [overwrite, Nat.sub_eq_zero_of_le h, List.replicate_zero, List.append_nil]

theorem overwrite_nil {data : List UInt8} {pos : ℕ} (h : pos ≤ data.length) :
    overwrite data pos [] = data := by
  rw [overwrite_of_le h, List.append_nil, List.length_nil, Nat.add_zero, List.take_append_drop]

theorem overwrite_length {data : List UInt8} {pos : ℕ} (bytes : List UInt8)
    (h : pos ≤ data.length) :
    pos + bytes.length ≤ (overwrite data pos bytes).length := by
  rw [overwrite_of_le h]
  simp only [List.length_append, List.length_take, List.length_drop]
  omega

/-- Two writes in a row are one write of both. -/
theorem overwrite_overwrite {data a b : List UInt8} {pos : ℕ} (h : pos ≤ data.length) :
    overwrite (overwrite data pos a) (pos + a.length) b = overwrite data pos (a ++ b) := by
  rw [overwrite_of_le (overwrite_length a h), overwrite_of_le h, overwrite_of_le h]
  have hlen : (data.take pos ++ a).length = pos + a.length := by
    simp only [List.length_append, List.length_take]
    omega
  have hfront : ((data.take pos ++ a ++ data.drop (pos + a.length)).take (pos + a.length)) =
      data.take pos ++ a := by
    rw [← hlen, List.take_left]
  have hback : ((data.take pos ++ a ++ data.drop (pos + a.length)).drop
      (pos + a.length + b.length)) = data.drop (pos + (a ++ b).length) := by
    rw [← List.drop_drop, ← hlen, List.drop_left, hlen, List.drop_drop, List.length_append,
      Nat.add_assoc]
  rw [hfront, hback, List.append_assoc (data.take pos)]

/-- Writing over a middle part of the same length. -/
theorem overwrite_middle {p old new q : List UInt8} (h : old.length = new.length) :
    overwrite (p ++ (old ++ q)) p.length new = p ++ (new ++ q) := by
  rw [overwrite_of_le (by simp), List.take_left, ← List.drop_drop, List.drop_left, ← h,
    List.drop_left, List.append_assoc]

/-- One world differs from another only in what is behind a descriptor. -/
structure Updated (w w' : World) (fd : ℕ) (file : File) : Prop where
  file : w'.files fd = file
  frame : ∀ k, k ≠ fd → w'.files k = w.files k

theorem Updated.refl (w : World) (fd : ℕ) : Updated w w fd (w.files fd) := ⟨rfl, fun _ _ => rfl⟩

theorem Updated.trans {w w' w'' : World} {fd : ℕ} {f g : File} (h : Updated w w' fd f)
    (h' : Updated w' w'' fd g) : Updated w w'' fd g :=
  ⟨h'.file, fun k hk => (h'.frame k hk).trans (h.frame k hk)⟩

theorem updated_update (w : World) (fd calls : ℕ) (file : File) :
    Updated w ⟨Function.update w.files fd file, calls⟩ fd file :=
  ⟨Function.update_self fd file w.files, fun _ hk => Function.update_of_ne hk file w.files⟩

theorem seekSet_updated (w : World) (fd k : ℕ) :
    Updated w (w.seekSet fd k) fd ⟨(w.files fd).data, k⟩ := by
  rw [World.seekSet, if_pos (by omega), Int.toNat_natCast]
  exact updated_update w fd w.calls _

theorem seekCur_updated (w : World) (fd k : ℕ) (h : k ≤ (w.files fd).pos) :
    Updated w (w.seekCur fd (-k)) fd ⟨(w.files fd).data, (w.files fd).pos - k⟩ := by
  have hpos : ((w.files fd).pos : ℤ) + -k = ((w.files fd).pos - k : ℕ) := by omega
  rw [World.seekCur, hpos]
  exact seekSet_updated w fd _

/-- A read gives a part of the bytes asked for, but not nothing. -/
theorem read_updated (sched : ℕ → ℕ) {w : World} {fd : ℕ} {bytes : List UInt8}
    (h : bytes <+: (w.files fd).data.drop (w.files fd).pos) (hne : bytes ≠ []) :
    ∃ w' n, 0 < n ∧ n ≤ bytes.length ∧ w.read sched fd bytes.length = (w', bytes.take n) ∧
      Updated w w' fd ⟨(w.files fd).data, (w.files fd).pos + n⟩ := by
  obtain ⟨rest, hrest⟩ := h
  have hlen := List.length_pos_iff.mpr hne
  have hchunk : (bytes ++ rest).take (min bytes.length (1 + sched w.calls)) =
      bytes.take (min bytes.length (1 + sched w.calls)) :=
    List.take_append_of_le_length (by omega)
  refine ⟨_, min bytes.length (1 + sched w.calls), by omega, by omega, ?_,
    updated_update w fd (w.calls + 1) _⟩
  simp only [World.read, ← hrest, hchunk, List.length_take,
    min_eq_left (Nat.min_le_left bytes.length (1 + sched w.calls))]

/-- A write takes a part of the bytes, but not nothing. -/
theorem write_updated (sched : ℕ → ℕ) (w : World) (fd : ℕ) {bytes : List UInt8}
    (hne : bytes ≠ []) :
    ∃ w' n, 0 < n ∧ n ≤ bytes.length ∧ w.write sched fd bytes = (w', n) ∧
      Updated w w' fd ⟨overwrite (w.files fd).data (w.files fd).pos (bytes.take n),
        (w.files fd).pos + n⟩ := by
  have hlen := List.length_pos_iff.mpr hne
  have htake : bytes.take (1 + sched w.calls) =
      bytes.take (min (1 + sched w.calls) bytes.length) := List.take_eq_take_min
  refine ⟨_, min (1 + sched w.calls) bytes.length, by omega, by omega, ?_,
    updated_update w fd (w.calls + 1) _⟩
  simp only [World.write, htake, List.length_take, Nat.min_assoc, Nat.min_self]

end Acos.PosixFile
