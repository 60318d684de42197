import Mathlib.Data.List.Nodup
import Mathlib.Data.List.Range

/-! The clockwise inward spiral through a rectangular grid, as the list of its cells. -/
namespace Acos.Spiral

/-- A cell of the grid below a row of length `width`, which is entered at its right column: the
cell's row and column as they are seen after a quarter turn, in the grid's own terms. -/
def turn (width : ℕ) (cell : ℕ × ℕ) : ℕ × ℕ := (cell.2 + 1, width - 1 - cell.1)

/-- The first row from the left to the right, then the rest of the grid, turned. -/
def spiral : ℕ → ℕ → List (ℕ × ℕ)
  | 0, _ => []
  | height + 1, width =>
    (List.range width).map (fun c => (0, c)) ++ (spiral width height).map (turn width)
termination_by height width => height + width

/-- The cells of the outermost ring of a square, of side at least two. -/
def ring (n : ℕ) : List (ℕ × ℕ) :=
  (List.range (n + 2)).map (fun i => (0, i)) ++
    ((List.range (n + 1)).map (fun i => (i + 1, n + 1)) ++
      ((List.range (n + 1)).map (fun i => (n + 1, n - i)) ++
        (List.range n).map (fun i => (n - i, 0))))

def shift (d : ℕ) (cell : ℕ × ℕ) : ℕ × ℕ := (cell.1 + d, cell.2 + d)

theorem mem_spiral {height width : ℕ} {cell : ℕ × ℕ} :
    cell ∈ spiral height width ↔ cell.1 < height ∧ cell.2 < width := by
  obtain ⟨r, c⟩ := cell
  induction height, width using spiral.induct generalizing r c with
  | case1 width => simp [spiral]
  | case2 height width ih =>
    rw [spiral, List.mem_append, List.mem_map, List.mem_map]
    constructor
    · rintro (⟨i, hi, hcell⟩ | ⟨⟨r', c'⟩, hmem, hcell⟩)
      · obtain ⟨rfl, rfl⟩ := Prod.mk.inj hcell
        exact ⟨Nat.succ_pos height, List.mem_range.mp hi⟩
      · obtain ⟨rfl, rfl⟩ := Prod.mk.inj hcell
        have hin := (ih r' c').mp hmem
        dsimp only at hin ⊢
        omega
    · rintro ⟨hr, hc⟩
      cases r with
      | zero => exact .inl ⟨c, List.mem_range.mpr hc, rfl⟩
      | succ r =>
        dsimp only at hr hc
        refine .inr ⟨(width - 1 - c, r), (ih _ _).mpr ?_, ?_⟩
        · dsimp only
          omega
        simp only [turn, Prod.mk.injEq, true_and]
        omega

theorem nodup_spiral (height width : ℕ) : (spiral height width).Nodup := by
  induction height, width using spiral.induct with
  | case1 width => simp [spiral]
  | case2 height width ih =>
    have hrow : ((List.range width).map fun c => (0, c)).Nodup :=
      List.nodup_range.map fun c c' h => (Prod.mk.inj h).2
    have hrest : ((spiral width height).map (turn width)).Nodup := by
      apply List.Nodup.map_on _ ih
      intro cell hcell cell' hcell' hturn
      have hin := mem_spiral.mp hcell
      have hin' := mem_spiral.mp hcell'
      obtain ⟨hc, hr⟩ := Prod.mk.inj hturn
      exact Prod.ext (by omega) (by omega)
    rw [spiral, List.nodup_append]
    refine ⟨hrow, hrest, fun cell hcell cell' hcell' heq => ?_⟩
    obtain ⟨c, -, rfl⟩ := List.mem_map.mp hcell
    obtain ⟨below, -, rfl⟩ := List.mem_map.mp hcell'
    exact absurd (Prod.mk.inj heq).1 (Nat.succ_ne_zero below.2).symm

@[simp] theorem spiral_length (height width : ℕ) :
    (spiral height width).length = height * width := by
  induction height, width using spiral.induct with
  | case1 width => simp [spiral]
  | case2 height width ih =>
    rw [spiral, List.length_append, List.length_map, List.length_map, ih, List.length_range,
      Nat.succ_mul, Nat.mul_comm, Nat.add_comm]

/-- Four turns lead one ring further in. -/
theorem spiral_square (n : ℕ) :
    spiral (n + 2) (n + 2) = ring n ++ (spiral n n).map (shift 1) := by
  have hright : (fun c => turn (n + 2) (0, c)) = fun i => (i + 1, n + 1) := rfl
  have hbottom : (List.range (n + 1)).map (fun c => turn (n + 2) (turn (n + 1) (0, c))) =
      (List.range (n + 1)).map fun i => (n + 1, n - i) := by
    apply List.map_congr_left
    intro i hi
    have hlt := List.mem_range.mp hi
    simp only [turn, Prod.mk.injEq]
    omega
  have hleft :
      (List.range n).map (fun c => turn (n + 2) (turn (n + 1) (turn (n + 1) (0, c)))) =
        (List.range n).map fun i => (n - i, 0) := by
    apply List.map_congr_left
    intro i hi
    have hlt := List.mem_range.mp hi
    simp only [turn, Prod.mk.injEq]
    omega
  have hinner : (spiral n n).map
      (fun cell => turn (n + 2) (turn (n + 1) (turn (n + 1) (turn n cell)))) =
        (spiral n n).map (shift 1) := by
    apply List.map_congr_left
    intro cell hcell
    have hin := mem_spiral.mp hcell
    simp only [turn, shift, Prod.mk.injEq]
    omega
  rw [spiral, spiral, spiral, spiral, ring]
  simp only [List.map_append, List.map_map, List.append_assoc, Function.comp_def, hright, hbottom,
    hleft, hinner]

/-- After `d` rings the spiral goes on as the one through the square inside them. -/
theorem spiral_inner (d n : ℕ) : ∃ outer,
    spiral (n + 2 * d) (n + 2 * d) = outer ++ (spiral n n).map (shift d) := by
  induction d with
  | zero =>
    refine ⟨[], ?_⟩
    rw [List.nil_append]
    exact (List.map_id _).symm
  | succ d ih =>
    obtain ⟨outer, hspiral⟩ := ih
    have hside : n + 2 * (d + 1) = n + 2 * d + 2 := by omega
    refine ⟨ring (n + 2 * d) ++ outer.map (shift 1), ?_⟩
    rw [hside, spiral_square, hspiral, List.map_append, List.map_map, List.append_assoc]
    rfl

theorem spiral_inner_getElem? (d : ℕ) {n j : ℕ} {cell : ℕ × ℕ} (h : (spiral n n)[j]? = some cell) :
    (spiral (n + 2 * d) (n + 2 * d))[(n + 2 * d) * (n + 2 * d) - n * n + j]? =
      some (shift d cell) := by
  obtain ⟨outer, hspiral⟩ := spiral_inner d n
  have hlength := congrArg List.length hspiral
  rw [List.length_append, List.length_map, spiral_length, spiral_length] at hlength
  rw [hlength, Nat.add_sub_cancel, hspiral, List.getElem?_append_right (Nat.le_add_right _ _),
    Nat.add_sub_cancel_left, List.getElem?_map, h]
  rfl

theorem getElem?_skip {α : Type*} {front back : List α} {k i : ℕ} (h : front.length = k) :
    (front ++ back)[k + i]? = back[i]? := by
  rw [← h, List.getElem?_append_right (Nat.le_add_right _ _), Nat.add_sub_cancel_left]

section Runs
variable {n i : ℕ}

theorem spiral_top (hi : i < n) : (spiral n n)[i]? = some (0, i) := by
  obtain ⟨m, rfl⟩ := Nat.exists_eq_succ_of_ne_zero (Nat.ne_zero_of_lt hi)
  rw [spiral, List.getElem?_append_left (by simpa using hi)]
  simp [hi]

theorem spiral_right (hi : i < n + 1) :
    (spiral (n + 2) (n + 2))[n + 2 + i]? = some (i + 1, n + 1) := by
  rw [spiral_square, ring, List.append_assoc, getElem?_skip (by simp), List.append_assoc,
    List.getElem?_append_left (by simpa using hi)]
  simp [hi]

theorem spiral_bottom (hi : i < n + 1) :
    (spiral (n + 2) (n + 2))[2 * n + 3 + i]? = some (n + 1, n - i) := by
  have hskip : 2 * n + 3 + i = n + 2 + (n + 1 + i) := by omega
  rw [hskip, spiral_square, ring, List.append_assoc, getElem?_skip (by simp), List.append_assoc,
    getElem?_skip (by simp), List.append_assoc, List.getElem?_append_left (by simpa using hi)]
  simp [hi]

/-- The left column with the corner that the bottom row ends with. -/
theorem spiral_left (hi : i < n + 1) :
    (spiral (n + 2) (n + 2))[3 * n + 3 + i]? = some (n + 1 - i, 0) := by
  cases i with
  | zero =>
    have hcorner : 3 * n + 3 + 0 = 2 * n + 3 + n := by omega
    rw [hcorner, spiral_bottom (Nat.lt_succ_self n), Nat.sub_self]
    rfl
  | succ i =>
    have hlt : i < n := Nat.lt_of_succ_lt_succ hi
    have hskip : 3 * n + 3 + (i + 1) = n + 2 + (n + 1 + (n + 1 + i)) := by omega
    rw [hskip, spiral_square, ring, List.append_assoc, getElem?_skip (by simp), List.append_assoc,
      getElem?_skip (by simp), List.append_assoc, getElem?_skip (by simp),
      List.getElem?_append_left (by simpa using hlt)]
    simp [hlt]

end Runs

end Acos.Spiral
