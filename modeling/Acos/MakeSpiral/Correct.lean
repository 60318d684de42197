import Acos.MakeSpiral.Runs

/-! `write_spiral` clears the file and numbers its cells in the order of the spiral. -/
namespace Acos.MakeSpiral
open Acos.CString Acos.MachineInt Acos.Scanf Acos.Spiral Acos.Lists

section Clear
variable {N W : ℕ}

/-- The byte that the first loop leaves at a position. -/
def blank (N W i : ℕ) : UInt8 := if i % (N * W + 1) = N * W then 10 else 32

theorem clearByte_blank (front back : Bytes) (old : UInt8) (hwide : N * W + 1 < 2 ^ 31) :
    clearByte N W (front ++ ([old] ++ back)) front.length =
      some (front ++ ([blank N W front.length] ++ back)) := by
  have hstore (old new : UInt8) : storeAt (front ++ ([old] ++ back)) front.length [new] =
      some (front ++ ([new] ++ back)) := by
    rw [storeAt, if_pos (Int.natCast_nonneg _), Int.toNat_natCast]
    exact Buffer.store_append rfl
  have hline : i32 ((N : ℤ) * W) = (N * W : ℕ) := by
    rw [← Nat.cast_mul]
    exact i32_natCast (Nat.lt_of_succ_lt hwide)
  have hwidth : i32 ((N : ℤ) * W + 1) = (N * W + 1 : ℕ) := by
    rw [← Nat.cast_mul, ← Nat.cast_succ]
    exact i32_natCast hwide
  have hcond : Int.tmod front.length (i32 (N * W + 1)) = i32 (N * W) ↔
      front.length % (N * W + 1) = N * W := by
    rw [hline, hwidth, ← Int.ofNat_tmod, Nat.cast_inj]
  rw [clearByte, hstore, Option.bind_eq_bind, Option.bind_some, blank]
  by_cases hend : front.length % (N * W + 1) = N * W
  · rw [if_pos (hcond.mpr hend), if_pos hend, hstore]
  · rw [if_neg (mt hcond.mp hend), if_neg hend]

theorem clear_blank (file : Bytes) {n : ℕ} (hwide : N * W + 1 < 2 ^ 31) (hn : n ≤ file.length) :
    clear file n N W = some ((List.range n).map (blank N W) ++ file.drop n) := by
  rw [clear, Int.toNat_natCast]
  induction n with
  | zero => rfl
  | succ n ih =>
    have hstep := clearByte_blank ((List.range n).map (blank N W)) (file.drop (n + 1)) file[n] hwide
    rw [List.length_map, List.length_range] at hstep
    rw [List.range_succ, List.foldlM_append, ih (Nat.le_of_succ_le hn),
      List.drop_eq_getElem_cons hn, List.map_append, Option.bind_eq_bind, Option.bind_some,
      List.foldlM_cons, ← List.singleton_append, hstep, List.append_assoc]
    rfl

theorem blank_lines : (List.range (N * N * W + N)).map (blank N W) = lines N W (drawn N 0) := by
  have hsize : N * N * W + N = N * (N * W + 1) := by ring
  rw [hsize, map_range_mul, lines]
  apply List.flatMap_congr
  intro r _
  have hspaces : (List.range (N * W)).map (fun j => blank N W (r * (N * W + 1) + j)) =
      (List.range N).flatMap fun c => cell W (drawn N 0 r c) := by
    rw [map_range_mul]
    apply List.flatMap_congr
    intro c hc
    have hcell : cell W (drawn N 0 r c) = List.replicate W 32 := rfl
    rw [hcell, List.eq_replicate_iff]
    refine ⟨by rw [List.length_map, List.length_range], ?_⟩
    intro b hb
    obtain ⟨j, hj, rfl⟩ := List.mem_map.mp hb
    have hlt : c * W + j < N * W := by
      calc c * W + j < c * W + W := Nat.add_lt_add_left (List.mem_range.mp hj) _
        _ = (c + 1) * W := (Nat.succ_mul c W).symm
        _ ≤ N * W := Nat.mul_le_mul_right W (List.mem_range.mp hc)
    rw [blank, Nat.mul_add_mod_self_right, Nat.mod_eq_of_lt (Nat.lt_succ_of_lt hlt),
      if_neg (Nat.ne_of_lt hlt)]
  have hend : blank N W (r * (N * W + 1) + N * W) = 10 := by
    rw [blank, Nat.mul_add_mod_self_right, Nat.mod_eq_of_lt (Nat.lt_succ_self _), if_pos rfl]
  rw [List.range_succ, List.map_append, hspaces, line, List.map_singleton, hend]

end Clear

/-- Every cell holds its number, so that each number from 1 to `N * N` is in exactly one of them,
the cells in the spiral's order. -/
theorem write_spiral_correct (N W : ℕ) (hW : (decimal (N * N)).length ≤ W)
    (hsize : N * N * W + N < 2 ^ 31) (file : Bytes) (hfile : file.length = N * N * W + N) :
    writeSpiral file (N * N * W + N) N W =
        some ((List.range N).flatMap fun r =>
          (List.range N).flatMap (fun c =>
            List.replicate (W - (decimal (number N r c)).length) 32 ++ decimal (number N r c)) ++
              [10]) ∧
      (∀ r < N, ∀ c < N, (decimal (number N r c)).length ≤ W) ∧
      (∀ k, 1 ≤ k → k ≤ N * N → ∃! cell : ℕ × ℕ,
        cell.1 < N ∧ cell.2 < N ∧ number N cell.1 cell.2 = k) := by
  have hwide : N * W + 1 < 2 ^ 31 := by
    rcases Nat.eq_zero_or_pos N with rfl | hN
    · omega
    · have hle : N * W ≤ N * N * W := Nat.mul_le_mul_right W (Nat.le_mul_self N)
      omega
  have hwidth : i32 ((N : ℤ) * W + 1) = N * W + 1 := by
    rw [← Nat.cast_mul, ← Nat.cast_succ]
    exact i32_natCast hwide
  have hclear : clear file (N * N * W + N) N W = some (lines N W (drawn N 0)) := by
    have hblank := clear_blank file hwide hfile.ge
    rw [blank_lines, ← hfile, List.drop_length, List.append_nil, hfile] at hblank
    push_cast at hblank
    exact hblank
  have hrings := drawRings_drawn (d := 0) (n := N) hW hsize rfl
  rw [Nat.sub_self, Nat.cast_zero, zero_mul, zero_add] at hrings
  have hin {r c : ℕ} (hr : r < N) (hc : c < N) : drawn N (N * N) r c = some (number N r c) := by
    rw [drawn, if_pos (number_le hr hc)]
  refine ⟨?_, fun r hr c hc => (decimal_length_mono (number_le hr hc)).trans hW,
    fun k hpos hk => exists_unique_number hpos hk⟩
  rw [writeSpiral, hclear, Option.bind_eq_bind, Option.bind_some, hwidth, hrings, lines,
    Option.some_inj]
  apply List.flatMap_congr
  intro r hr
  rw [line, List.append_left_inj]
  apply List.flatMap_congr
  intro c hc
  rw [hin (List.mem_range.mp hr) (List.mem_range.mp hc), cell]

/-- The numbers 1 to 4 around a square of side two. -/
theorem write_spiral_two : writeSpiral (List.replicate 10 0) 10 2 2 =
    some [32, 49, 32, 50, 10, 32, 52, 32, 51, 10] := by
  have hdigit (d : ℕ) (hd : d < 10) : decimal d = [digit d] := by rw [decimal, if_pos hd]
  have hspiral : spiral 2 2 = [(0, 0), (0, 1), (1, 1), (1, 0)] := by
    simp [spiral, turn, List.range_succ]
  have hdraw := write_spiral_correct 2 2 (by rw [hdigit _ (by decide)]; decide) (by decide)
    (List.replicate 10 0) List.length_replicate
  refine hdraw.1.trans ?_
  simp only [List.range_succ, List.range_zero, number, hspiral]
  simp only [List.nil_append, List.cons_append, List.flatMap_cons, List.flatMap_nil]
  simp [hdigit, digit]

end Acos.MakeSpiral
