import Acos.Lib.Spiral
import Acos.MakeSpiral.Cells
import Mathlib.Tactic.Linarith
import Mathlib.Tactic.Zify

/-! Each of the four runs of a ring follows the spiral for a while. What is in the file between two
runs is known from the count of the numbers that are in place. -/
namespace Acos.MakeSpiral
open Acos.CString Acos.MachineInt Acos.Scanf Acos.Spiral Acos.Lists

/-- The number of a cell in the spiral. -/
def number (N r c : ℕ) : ℕ := (spiral N N).idxOf (r, c) + 1

/-- The contents of the cells when the first `k` numbers are in place. -/
def drawn (N k r c : ℕ) : Option ℕ := if number N r c ≤ k then some (number N r c) else none

section Number
variable {N r c : ℕ}

theorem number_eq_iff {j : ℕ} (hj : j < N * N) :
    number N r c = j + 1 ↔ (spiral N N)[j]? = some (r, c) := by
  have hlt : j < (spiral N N).length := by rwa [spiral_length]
  rw [List.getElem?_eq_getElem hlt, Option.some_inj, number, Nat.succ_inj]
  constructor
  · rintro rfl
    exact List.getElem_idxOf hlt
  · intro hcell
    rw [← hcell, List.Nodup.idxOf_getElem (nodup_spiral N N)]

theorem number_of_cell {j : ℕ} (h : (spiral N N)[j]? = some (r, c)) :
    number N r c = j + 1 ∧ j < N * N ∧ r < N ∧ c < N := by
  have hj : j < N * N := by
    have hlt := (List.getElem?_eq_some_iff.mp h).1
    rwa [spiral_length] at hlt
  have hin := mem_spiral.mp (List.mem_of_getElem? h)
  exact ⟨(number_eq_iff hj).mpr h, hj, hin.1, hin.2⟩

theorem number_le (hr : r < N) (hc : c < N) : number N r c ≤ N * N := by
  have hmem : (r, c) ∈ spiral N N := mem_spiral.mpr ⟨hr, hc⟩
  have hlt := List.idxOf_lt_length_of_mem hmem
  rw [spiral_length] at hlt
  exact hlt

/-- Every number from 1 on is in exactly one cell. -/
theorem exists_unique_number {n : ℕ} (hpos : 1 ≤ n) (hn : n ≤ N * N) :
    ∃! cell : ℕ × ℕ, cell.1 < N ∧ cell.2 < N ∧ number N cell.1 cell.2 = n := by
  obtain ⟨j, rfl⟩ := Nat.exists_eq_add_of_le' hpos
  have hlt : j < (spiral N N).length := by rwa [spiral_length]
  refine ⟨(spiral N N)[j], ?_, ?_⟩
  · have hcell := number_of_cell (N := N) (List.getElem?_eq_getElem hlt)
    exact ⟨hcell.2.2.1, hcell.2.2.2, hcell.1⟩
  · rintro ⟨r, c⟩ ⟨-, -, hnumber⟩
    have hcell := (number_eq_iff hn).mp hnumber
    rw [List.getElem?_eq_getElem hlt] at hcell
    exact (Option.some_inj.mp hcell).symm

end Number

section Runs
variable {N W : ℕ} (hW : (decimal (N * N)).length ≤ W)
include hW

theorem drawn_fits {k : ℕ} (hk : k ≤ N * N) : Fits W (drawn N k) := by
  intro r c n hn
  rw [Option.mem_def, drawn] at hn
  split_ifs at hn with hdrawn
  rw [← Option.some_inj.mp hn]
  exact (decimal_length_mono (hdrawn.trans hk)).trans hW

/-- The next number, or one that is in place already. -/
theorem store_drawn {j k r c : ℕ} (hcell : (spiral N N)[j]? = some (r, c)) (hjk : j ≤ k)
    (hk : k ≤ N * N) :
    Buffer.store (lines N W (drawn N k)) (cellPos N W r c + (W - (decimal (j + 1)).length))
      (decimal (j + 1)) = some (lines N W (drawn N (max k (j + 1)))) := by
  obtain ⟨hnumber, hj, hr, hc⟩ := number_of_cell hcell
  apply store_lines hr hc (drawn_fits hW hk)
  · intro m hm
    rw [Option.mem_def, drawn, hnumber] at hm
    split_ifs at hm
    exact (Option.some_inj.mp hm).symm
  · exact (decimal_length_mono hj).trans hW
  · rw [drawn, hnumber, if_pos (le_max_right k (j + 1))]
  · intro r' c' hne
    have hother : number N r' c' ≠ j + 1 := by
      intro heq
      rw [number_eq_iff hj, hcell, Option.some_inj] at heq
      exact hne heq.symm
    have hsame : number N r' c' ≤ max k (j + 1) ↔ number N r' c' ≤ k := by omega
    simp only [drawn, hsame]

variable (hsize : N * N * W + N < 2 ^ 31)
include hsize

theorem writeValue_drawn {i j k r c : ℕ} {start step begin_value : ℤ}
    (hcell : (spiral N N)[j]? = some (r, c)) (hjk : j ≤ k) (hk : k ≤ N * N)
    (hvalue : i + begin_value = j + 1) (hpos : start + i32 (i * step) = cellPos N W r c) :
    writeValue start step W begin_value (lines N W (drawn N k)) i =
      some (lines N W (drawn N (max k (j + 1)))) := by
  obtain ⟨-, hj, hr, -⟩ := number_of_cell hcell
  have hlen : (decimal (j + 1)).length ≤ W := (decimal_length_mono hj).trans hW
  have hone : 1 ≤ W := (List.length_pos_iff.mpr (decimal_ne_nil (N * N))).trans_le hW
  have hcells : N * N ≤ N * N * W := Nat.le_mul_of_pos_right (N * N) hone
  have hwide : W ≤ N * N * W := Nat.le_mul_of_pos_left W (Nat.lt_of_le_of_lt (Nat.zero_le j) hj)
  have hbound : j + 1 < 2 ^ 31 := by omega
  have hroom : W - (decimal (j + 1)).length < 2 ^ 31 := by omega
  have hprint : printInt ((j + 1 : ℕ) : ℤ) = decimal (j + 1) := by
    rw [printInt, if_neg (Int.not_lt.mpr (Int.natCast_nonneg _)), Int.natAbs_natCast]
  have hnumber : i32 ((j : ℤ) + 1) = ((j + 1 : ℕ) : ℤ) := by
    rw [← Nat.cast_succ]
    exact i32_natCast hbound
  have hpad : i32 ((W : ℤ) - (decimal (j + 1)).length) =
      ((W - (decimal (j + 1)).length : ℕ) : ℤ) := by
    rw [← Nat.cast_sub hlen]
    exact i32_natCast hroom
  rw [writeValue, hvalue, hnumber, hprint, hpos, hpad, ← Nat.cast_add, storeAt,
    if_pos (Int.natCast_nonneg _), Int.toNat_natCast]
  exact store_drawn hW hcell hjk hk

/-- A run along consecutive numbers. -/
theorem writeLine_drawn {count j k : ℕ} {start step begin_value : ℤ}
    (hrun : ∀ i < count, ∃ r c, (spiral N N)[j + i]? = some (r, c) ∧
      start + i32 (i * step) = cellPos N W r c)
    (hvalue : begin_value = j + 1) (hjk : j ≤ k) (hk : k ≤ N * N) :
    writeLine (lines N W (drawn N k)) start step W count begin_value =
      some (lines N W (drawn N (max k (j + count)))) := by
  rw [writeLine, Int.toNat_natCast]
  induction count with
  | zero => simp [hjk]
  | succ count ih =>
    obtain ⟨r, c, hcell, hpos⟩ := hrun count (Nat.lt_succ_self count)
    have hj := (number_of_cell hcell).2.1
    have hsum : (count : ℤ) + begin_value = ((j + count : ℕ) : ℤ) + 1 := by
      rw [hvalue]
      push_cast
      ring
    have hplace : max k (j + count) ≤ N * N := max_le hk (Nat.le_of_lt hj)
    have hnext := writeValue_drawn hW hsize hcell (le_max_right k (j + count)) hplace hsum hpos
    have hmax : max (max k (j + count)) (j + count + 1) = max k (j + (count + 1)) := by omega
    rw [List.range_succ, List.foldlM_append, ih fun i hi => hrun i (Nat.lt_succ_of_lt hi)]
    simp only [Option.bind_eq_bind, Option.bind_some, List.foldlM_cons, List.foldlM_nil, bind_pure]
    rw [hnext, hmax]

end Runs

theorem cell_le_width {N : ℕ} (W : ℕ) (hN : 0 < N) : (W : ℤ) ≤ N * W + 1 := by
  have hle : W ≤ N * W := Nat.le_mul_of_pos_left W hN
  zify at hle
  omega

section Rings
variable {N W : ℕ} (hW : (decimal (N * N)).length ≤ W) (hsize : N * N * W + N < 2 ^ 31)
include hsize

/-- Offsets of whole lines and cells stay in the range of `int`. -/
theorem i32_offset {i : ℕ} {step : ℤ} (hi : i < N) (hlo : -(N * W + 1) ≤ step)
    (hhi : step ≤ N * W + 1) : i32 (i * step) = i * step := by
  have hstep : (N - 1 : ℤ) * (N * W + 1) < 2 ^ 31 := by
    zify at hsize
    nlinarith
  have hi' : (i : ℤ) ≤ N - 1 := by omega
  apply i32_of_range
  · nlinarith
  · nlinarith

include hW

/-- A run along the square inside `d` rings. -/
theorem run_drawn {count d j k n : ℕ} {start step begin_value : ℤ} (hside : n + 2 * d = N)
    (hrun : ∀ i < count, ∃ r c, (spiral n n)[j + i]? = some (r, c) ∧
      start + i * step = cellPos N W (r + d) (c + d))
    (hcount : count ≤ n) (hlo : -(N * W + 1) ≤ step) (hhi : step ≤ N * W + 1)
    (hvalue : begin_value = ((N * N - n * n + j : ℕ) : ℤ) + 1) (hjk : N * N - n * n + j ≤ k)
    (hk : k ≤ N * N) :
    writeLine (lines N W (drawn N k)) start step W count begin_value =
      some (lines N W (drawn N (max k (N * N - n * n + j + count)))) := by
  apply writeLine_drawn hW hsize _ hvalue hjk hk
  intro i hi
  obtain ⟨r, c, hcell, hpos⟩ := hrun i hi
  have hinner := spiral_inner_getElem? d hcell
  rw [hside, ← Nat.add_assoc] at hinner
  refine ⟨r + d, c + d, hinner, ?_⟩
  rw [i32_offset hsize (by omega) hlo hhi, hpos]

theorem top_drawn {d k n : ℕ} (hn : 0 < n) (hside : n + 2 * d = N) (hk : k = N * N - n * n) :
    writeLine (lines N W (drawn N k)) (d * (N * W + 1 + W)) W W n (k + 1) =
      some (lines N W (drawn N (k + n))) := by
  have hsquare : n * n ≤ N * N := Nat.mul_le_mul (by omega) (by omega)
  have hmore : n ≤ n * n := Nat.le_mul_self n
  have hwide : (0 : ℤ) ≤ N * W := by positivity
  have hmax : k + n = max k (N * N - n * n + 0 + n) := by omega
  rw [hmax]
  apply run_drawn (j := 0) hW hsize hside
  · intro i hi
    refine ⟨0, i, by rw [Nat.zero_add]; exact spiral_top hi, ?_⟩
    rw [cellPos]
    push_cast
    ring
  · exact le_rfl
  · omega
  · exact cell_le_width W (by omega)
  · rw [← hk, Nat.add_zero]
  · omega
  · omega

/-- The four runs of a ring with more than one cell. -/
theorem ring_drawn {d n k : ℕ} (hside : n + 2 + 2 * d = N)
    (hk : k = N * N - (n + 2) * (n + 2)) :
    ∃ top right bottom,
      writeLine (lines N W (drawn N k)) (d * (N * W + 1 + W)) W W (n + 2 : ℕ) (k + 1) = some top ∧
      writeLine top (d * (N * W + 1 + W) + (n + 1) * W + (N * W + 1)) (N * W + 1) W (n + 1 : ℕ)
        (k + 1 + (n + 2)) = some right ∧
      writeLine right (d * (N * W + 1 + W) + n * W + (N * W + 1) * (n + 1)) (-W) W (n + 1 : ℕ)
        (k + 1 + (n + 2) * 2 - 1) = some bottom ∧
      writeLine bottom (d * (N * W + 1 + W) + (N * W + 1) * (n + 1)) (-(N * W + 1)) W (n + 1 : ℕ)
        (k + 1 + (n + 2) * 3 - 3) = some (lines N W (drawn N (N * N - n * n))) := by
  have hsquare : (n + 2) * (n + 2) ≤ N * N := Nat.mul_le_mul (by omega) (by omega)
  have hring : (n + 2) * (n + 2) = n * n + 4 * n + 4 := by ring
  have hwide : (0 : ℤ) ≤ N * W := by positivity
  have hcell : (W : ℤ) ≤ N * W + 1 := cell_le_width W (by omega)
  refine ⟨lines N W (drawn N (k + (n + 2))), lines N W (drawn N (k + (2 * n + 3))),
    lines N W (drawn N (k + (3 * n + 4))), ?_, ?_, ?_, ?_⟩
  · exact top_drawn hW hsize (Nat.succ_pos _) hside hk
  · have hmax : k + (2 * n + 3) =
        max (k + (n + 2)) (N * N - (n + 2) * (n + 2) + (n + 2) + (n + 1)) := by omega
    rw [hmax]
    apply run_drawn (j := n + 2) hW hsize hside
    · intro i hi
      refine ⟨i + 1, n + 1, spiral_right hi, ?_⟩
      rw [cellPos]
      push_cast
      ring
    · omega
    · omega
    · exact le_rfl
    · rw [← hk]
      push_cast
      ring
    · omega
    · omega
  · have hmax : k + (3 * n + 4) =
        max (k + (2 * n + 3)) (N * N - (n + 2) * (n + 2) + (2 * n + 3) + (n + 1)) := by omega
    rw [hmax]
    apply run_drawn (j := 2 * n + 3) hW hsize hside
    · intro i hi
      refine ⟨n + 1, n - i, spiral_bottom hi, ?_⟩
      rw [cellPos]
      push_cast [Nat.le_of_lt_succ hi]
      ring
    · omega
    · omega
    · omega
    · rw [← hk]
      push_cast
      ring
    · omega
    · omega
  · have hmax : N * N - n * n =
        max (k + (3 * n + 4)) (N * N - (n + 2) * (n + 2) + (3 * n + 3) + (n + 1)) := by omega
    rw [hmax]
    apply run_drawn (j := 3 * n + 3) hW hsize hside
    · intro i hi
      refine ⟨n + 1 - i, 0, spiral_left hi, ?_⟩
      rw [cellPos]
      push_cast [Nat.le_of_lt hi]
      ring
    · omega
    · omega
    · omega
    · rw [← hk]
      push_cast
      ring
    · omega
    · omega

omit hW in
theorem i32_value (hN : 0 < N) {x : ℤ} (hlo : 0 ≤ x) (hhi : x ≤ N * N + 1) (hW : 0 < W) :
    i32 x = x := by
  have hle : N * N ≤ N * N * W := Nat.le_mul_of_pos_right _ hW
  apply i32_of_range
  · omega
  · zify at hle hsize hN
    linarith

omit hW in
/-- One pass of the loop, with all numbers in the range of `int`. -/
theorem drawRings_ring {file : Bytes} {pos : ℤ} {d n k : ℕ} (hside : n + 2 + 2 * d = N)
    (hk : k = N * N - (n + 2) * (n + 2)) (hW : 0 < W) :
    drawRings file pos (N * W + 1) W (k + 1) (n + 2 : ℕ) = (do
      let top ← writeLine file pos W W (n + 2 : ℕ) (k + 1)
      let right ← writeLine top (pos + (n + 1) * W + (N * W + 1)) (N * W + 1) W (n + 1 : ℕ)
        (k + 1 + (n + 2))
      let bottom ← writeLine right (pos + n * W + (N * W + 1) * (n + 1)) (-W) W (n + 1 : ℕ)
        (k + 1 + (n + 2) * 2 - 1)
      let left ← writeLine bottom (pos + (N * W + 1) * (n + 1)) (-(N * W + 1)) W (n + 1 : ℕ)
        (k + 1 + (n + 2) * 3 - 3)
      drawRings left (pos + (N * W + 1 + W)) (N * W + 1) W ((N * N - n * n : ℕ) + 1) n) := by
  have hsquare : (n + 2) * (n + 2) ≤ N * N := Nat.mul_le_mul (by omega) (by omega)
  have hring : (n + 2) * (n + 2) = n * n + 4 * n + 4 := by ring
  have hnumbers : k + 4 * n + 4 = N * N - n * n := by omega
  have hnumbers' : k + 4 * n + 4 ≤ N * N := by omega
  have hcell := cell_le_width W (show 0 < N by omega)
  have hwide : (0 : ℤ) ≤ N * W := by positivity
  have hvalue : ∀ x : ℤ, 0 ≤ x → x ≤ k + 4 * n + 5 → i32 x = x := by
    intro x hlo hhi
    exact i32_value hsize (by omega) hlo (by zify at hnumbers'; linarith) hW
  have hoffset : ∀ (i : ℕ) (step : ℤ), i ≤ n + 1 → -(N * W + 1) ≤ step → step ≤ N * W + 1 →
      i32 (i * step) = i * step := fun i step hi => i32_offset hsize (by omega)
  have hoffset' : ∀ (step : ℤ), -(N * W + 1) ≤ step → step ≤ N * W + 1 → i32 step = step := by
    intro step hlo hhi
    have hone := hoffset 1 step (by omega) hlo hhi
    rwa [Nat.cast_one, one_mul] at hone
  have hlines : 2 * (N * W) ≤ N * N * W := by
    rw [Nat.mul_assoc]
    exact Nat.mul_le_mul_right _ (by omega)
  have hdiagonal : (N : ℤ) * W + 1 + W < 2 ^ 31 := by
    zify at hlines hsize
    omega
  have hpos : (0 : ℤ) < (n + 2 : ℕ) := by positivity
  have hless : ((n + 2 : ℕ) : ℤ) - 1 = (n + 1 : ℕ) := by
    push_cast
    ring
  have hless' : ((n + 2 : ℕ) : ℤ) - 2 = (n : ℕ) := by
    push_cast
    ring
  have hnext : (k + 1 + (n + 2 : ℕ) * 4 - 4 : ℤ) = (N * N - n * n : ℕ) + 1 := by
    rw [← hnumbers]
    push_cast
    ring
  rw [drawRings, if_pos hpos, hless, hless', hoffset (n + 1) W le_rfl (by omega) hcell,
    hoffset n W (by omega) (by omega) hcell, mul_comm ((N : ℤ) * W + 1) (n + 1 : ℕ),
    hoffset (n + 1) (N * W + 1) le_rfl (by omega) le_rfl, hoffset' (-W) (by omega) (by omega),
    hoffset' (-(N * W + 1)) le_rfl (by omega), i32_of_range (by omega) hdiagonal,
    hvalue (k + 1 + (n + 2 : ℕ)) (by omega) (by omega),
    hvalue (k + 1 + (n + 2 : ℕ) * 2 - 1) (by omega) (by omega),
    hvalue (k + 1 + (n + 2 : ℕ) * 3 - 3) (by omega) (by omega),
    hvalue (k + 1 + (n + 2 : ℕ) * 4 - 4) (by omega) (by omega), hnext,
    mul_comm _ ((N : ℤ) * W + 1)]
  push_cast
  rfl

theorem drawRings_drawn {d n : ℕ} (hside : n + 2 * d = N) :
    drawRings (lines N W (drawn N (N * N - n * n))) (d * (N * W + 1 + W)) (N * W + 1) W
      ((N * N - n * n : ℕ) + 1) n = some (lines N W (drawn N (N * N))) := by
  have hone : 0 < W := (List.length_pos_iff.mpr (decimal_ne_nil (N * N))).trans_le hW
  induction n using Nat.twoStepInduction generalizing d with
  | zero =>
    rw [drawRings, if_neg (by decide)]
    rfl
  | one =>
    have hcell : N * N - 1 * 1 + 1 = N * N := Nat.sub_add_cancel (Nat.mul_pos (by omega) (by omega))
    have htop := top_drawn hW hsize Nat.one_pos hside rfl
    have hnone (file : Bytes) (start step value : ℤ) :
        writeLine file start step W ((1 : ℕ) - 1) value = some file := rfl
    rw [drawRings, if_pos (by decide), htop, hcell]
    simp only [hnone, Option.bind_eq_bind, Option.bind_some]
    rw [drawRings, if_neg (by decide)]
  | more n ih _ =>
    obtain ⟨top, right, bottom, htop, hright, hbottom, hleft⟩ := ring_drawn hW hsize hside rfl
    have hinner := ih (d := d + 1) (by omega)
    have hpos : ((d + 1 : ℕ) : ℤ) * (N * W + 1 + W) = d * (N * W + 1 + W) + (N * W + 1 + W) := by
      push_cast
      ring
    rw [drawRings_ring hsize hside rfl hone, ← hpos]
    simp only [htop, hright, hbottom, hleft, hinner, Option.bind_eq_bind, Option.bind_some]

end Rings

end Acos.MakeSpiral
