import Acos.FileSort.Model

/-! What the reads, the writes and the copies of the sort do to the files, whatever the schedule
of the transfers. -/
namespace Acos.FileSort
open Acos.IntBytes Acos.MachineInt Acos.PosixFile

variable (sched : ℕ → ℕ) {fd : ℕ} {w : World}

theorem writeLoop_updated {fuel : ℕ} {bytes : List UInt8} (hfuel : bytes.length ≤ fuel)
    (hpos : (w.files fd).pos ≤ (w.files fd).data.length) :
    ∃ w', writeLoop sched fd fuel w bytes = some w' ∧
      Updated w w' fd ⟨overwrite (w.files fd).data (w.files fd).pos bytes,
        (w.files fd).pos + bytes.length⟩ := by
  induction fuel generalizing w bytes with
  | zero =>
    have hnil : bytes = [] := List.length_eq_zero_iff.mp (by omega)
    rw [hnil, overwrite_nil hpos]
    exact ⟨w, rfl, Updated.refl w fd⟩
  | succ fuel ih =>
    cases bytes with
    | nil =>
      rw [overwrite_nil hpos]
      exact ⟨w, rfl, Updated.refl w fd⟩
    | cons byte bytes =>
      obtain ⟨w1, n, hn, hnle, hwrite, hupd⟩ :=
        write_updated sched w fd (List.cons_ne_nil byte bytes)
      have hfile := hupd.file
      have hlen : ((byte :: bytes).take n).length = n := by
        rw [List.length_take]
        omega
      have hpos1 : (w1.files fd).pos ≤ (w1.files fd).data.length := by
        rw [hfile]
        have hle := overwrite_length ((byte :: bytes).take n) hpos
        rwa [hlen] at hle
      obtain ⟨w2, hloop, hupd2⟩ := @ih w1 ((byte :: bytes).drop n)
        (by rw [List.length_drop]; omega) hpos1
      refine ⟨w2, ?_, ?_⟩
      · rw [writeLoop, hwrite]
        exact hloop
      · have htwo := overwrite_overwrite (a := (byte :: bytes).take n)
          (b := (byte :: bytes).drop n) hpos
        rw [hlen, List.take_append_drop] at htwo
        have hend : (w.files fd).pos + n + ((byte :: bytes).drop n).length =
            (w.files fd).pos + (byte :: bytes).length := by
          rw [List.length_drop]
          omega
        rw [hfile] at hupd2
        simp only [htwo, hend] at hupd2
        exact hupd.trans hupd2

/-- `write_bytes` writes the front of the buffer. -/
theorem writeBytes_updated (fd : ℕ) (bytes rest : List UInt8)
    (hpos : (w.files fd).pos ≤ (w.files fd).data.length) :
    ∃ w', writeBytes sched fd w (bytes ++ rest) bytes.length = some w' ∧
      Updated w w' fd ⟨overwrite (w.files fd).data (w.files fd).pos bytes,
        (w.files fd).pos + bytes.length⟩ := by
  have hin : (0 : ℤ) ≤ bytes.length ∧ (bytes.length : ℤ) ≤ (bytes ++ rest).length := by
    rw [List.length_append]
    omega
  rw [writeBytes, if_pos hin, Int.toNat_natCast, List.take_left]
  exact writeLoop_updated sched (le_refl _) hpos

theorem readLoop_updated {fuel : ℕ} {bytes : List UInt8} (hfuel : bytes.length ≤ fuel)
    (hahead : bytes <+: (w.files fd).data.drop (w.files fd).pos) :
    ∃ w', readLoop sched fd fuel w bytes.length = some (w', bytes) ∧
      Updated w w' fd ⟨(w.files fd).data, (w.files fd).pos + bytes.length⟩ := by
  induction fuel generalizing w bytes with
  | zero =>
    have hnil : bytes = [] := List.length_eq_zero_iff.mp (by omega)
    rw [hnil]
    exact ⟨w, rfl, Updated.refl w fd⟩
  | succ fuel ih =>
    cases bytes with
    | nil => exact ⟨w, rfl, Updated.refl w fd⟩
    | cons byte bytes =>
      obtain ⟨w1, n, hn, hnle, hread, hupd⟩ :=
        read_updated sched hahead (List.cons_ne_nil byte bytes)
      have hfile := hupd.file
      have hahead1 : (byte :: bytes).drop n <+: (w1.files fd).data.drop (w1.files fd).pos := by
        rw [hfile]
        show (byte :: bytes).drop n <+: (w.files fd).data.drop ((w.files fd).pos + n)
        rw [← List.drop_drop]
        exact hahead.drop n
      obtain ⟨w2, hloop, hupd2⟩ := @ih w1 ((byte :: bytes).drop n)
        (by rw [List.length_drop]; omega) hahead1
      have hchunk : (byte :: bytes).take n ≠ [] := by
        rw [Ne, List.take_eq_nil_iff]
        simp only [List.cons_ne_nil, or_false]
        omega
      have hlen : ((byte :: bytes).take n).length = n := by
        rw [List.length_take]
        omega
      refine ⟨w2, ?_, ?_⟩
      · rw [List.length_cons] at hread ⊢
        rw [readLoop, hread]
        simp only [hchunk, hlen, if_false]
        rw [List.length_drop, List.length_cons] at hloop
        rw [hloop, Option.map_some, List.take_append_drop]
      · have hend : (w.files fd).pos + n + ((byte :: bytes).drop n).length =
            (w.files fd).pos + (byte :: bytes).length := by
          rw [List.length_drop]
          omega
        rw [hfile] at hupd2
        simp only [hend] at hupd2
        exact hupd.trans hupd2

/-- `read_bytes` reads the bytes ahead of the offset. -/
theorem readBytes_updated {bytes : List UInt8}
    (hahead : bytes <+: (w.files fd).data.drop (w.files fd).pos) :
    ∃ w', readBytes sched fd w bytes.length = some (w', bytes) ∧
      Updated w w' fd ⟨(w.files fd).data, (w.files fd).pos + bytes.length⟩ := by
  rw [readBytes, if_pos (by omega), Int.toNat_natCast]
  exact readLoop_updated sched (le_refl _) hahead

theorem byteCount_of_range {k : ℕ} (h : 4 * k < 2 ^ 31) : byteCount k = (4 * k : ℕ) := by
  have hinner : u64 k = k := u64_of_range (by omega) (by omega)
  have houter : u64 ((k : ℤ) * 4) = k * 4 := u64_of_range (by omega) (by omega)
  rw [byteCount, hinner, houter, i32_of_range (by omega) (by omega)]
  omega

theorem byteOffset_of_range {k : ℤ} (hlo : -2 ^ 61 ≤ k) (hhi : k < 2 ^ 61) :
    byteOffset k = 4 * k := by
  unfold byteOffset u64 i64
  omega

theorem move_updated (w : World) (fd : ℕ) {k : ℕ} (h : k < 2 ^ 61) :
    Updated w (move w fd k) fd ⟨(w.files fd).data, 4 * k⟩ := by
  have hoffset : byteOffset k = (4 * k : ℕ) := by
    rw [byteOffset_of_range (by omega) (by omega)]
    omega
  rw [move, hoffset]
  exact seekSet_updated w fd (4 * k)

theorem readInts_updated (xs : List ℤ) (hxs : ∀ x ∈ xs, IsInt32 x)
    (hlen : 4 * xs.length < 2 ^ 31)
    (hahead : encodeInts xs <+: (w.files fd).data.drop (w.files fd).pos) :
    ∃ w', readInts sched fd w xs.length = some (w', xs) ∧
      Updated w w' fd ⟨(w.files fd).data, (w.files fd).pos + 4 * xs.length⟩ := by
  obtain ⟨w', hread, hupd⟩ := readBytes_updated sched hahead
  rw [encodeInts_length] at hread hupd
  refine ⟨w', ?_, hupd⟩
  have hall : ((encodeInts xs).length : ℤ) = 4 * xs.length := by
    rw [encodeInts_length]
    omega
  rw [readInts, byteCount_of_range hlen, hread]
  simp only [Option.bind_eq_bind, Option.bind_some, hall, if_true, decodeInts_encodeInts hxs]

theorem writeInts_updated (fd : ℕ) (xs : List ℤ) (hlen : 4 * xs.length < 2 ^ 31)
    (hpos : (w.files fd).pos ≤ (w.files fd).data.length) :
    ∃ w', writeInts sched fd w xs = some w' ∧
      Updated w w' fd ⟨overwrite (w.files fd).data (w.files fd).pos (encodeInts xs),
        (w.files fd).pos + 4 * xs.length⟩ := by
  have hwrite := writeBytes_updated sched fd (encodeInts xs) [] hpos
  rw [List.append_nil, encodeInts_length] at hwrite
  rw [writeInts, byteCount_of_range hlen]
  exact hwrite

end Acos.FileSort
