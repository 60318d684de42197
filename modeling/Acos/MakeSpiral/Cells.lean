import Acos.Lib.Lists
import Acos.MakeSpiral.Model

/-! A file of `N` lines of `N` cells each, and what a store into one of them changes. -/
namespace Acos.MakeSpiral
open Acos.CString Acos.MachineInt Acos.Scanf Acos.Lists

/-- A cell of `W` characters that holds a number, right-aligned, or nothing yet. -/
def cell (W : ℕ) : Option ℕ → Bytes
  | none => List.replicate W 32
  | some n => List.replicate (W - (decimal n).length) 32 ++ decimal n

def line (N W : ℕ) (content : ℕ → Option ℕ) : Bytes :=
  (List.range N).flatMap (fun c => cell W (content c)) ++ [10]

def lines (N W : ℕ) (content : ℕ → ℕ → Option ℕ) : Bytes :=
  (List.range N).flatMap fun r => line N W (content r)

/-- The position of the cell in row `r` and column `c`. -/
def cellPos (N W r c : ℕ) : ℕ := r * (N * W + 1) + c * W

theorem cell_length {W : ℕ} {content : Option ℕ}
    (h : ∀ n ∈ content, (decimal n).length ≤ W) : (cell W content).length = W := by
  cases content with
  | none => exact List.length_replicate
  | some n =>
    have hn := h n rfl
    simp only [cell, List.length_append, List.length_replicate]
    omega

/-- Every number fits its cell. -/
def Fits (W : ℕ) (content : ℕ → ℕ → Option ℕ) : Prop :=
  ∀ r c, ∀ n ∈ content r c, (decimal n).length ≤ W

theorem line_length {N W : ℕ} {content : ℕ → ℕ → Option ℕ} (h : Fits W content) (r : ℕ) :
    (line N W (content r)).length = N * W + 1 := by
  have hcells := length_flatMap_range (n := N) fun c _ => cell_length (h r c)
  rw [line, List.length_append, hcells, List.length_singleton]

/-- Storing a number at the end of a cell that has no other. -/
theorem store_cell {W n : ℕ} {content : Option ℕ} (hfree : ∀ m ∈ content, m = n)
    (hn : (decimal n).length ≤ W) (front back : Bytes) :
    Buffer.store (front ++ (cell W content ++ back)) (front.length + (W - (decimal n).length))
      (decimal n) = some (front ++ (cell W (some n) ++ back)) := by
  have hold : ∃ old : Bytes, old.length = (decimal n).length ∧
      cell W content = List.replicate (W - (decimal n).length) 32 ++ old := by
    cases content with
    | none =>
      refine ⟨List.replicate (decimal n).length 32, List.length_replicate, ?_⟩
      rw [cell, ← List.replicate_add, Nat.sub_add_cancel hn]
    | some m =>
      rw [hfree m rfl]
      exact ⟨decimal n, rfl, rfl⟩
  obtain ⟨old, hlength, hcell⟩ := hold
  have hpos : front.length + (W - (decimal n).length) =
      (front ++ List.replicate (W - (decimal n).length) (32 : UInt8)).length := by
    rw [List.length_append, List.length_replicate]
  have hstore : Buffer.store (front ++ List.replicate (W - (decimal n).length) 32 ++ (old ++ back))
      _ (decimal n) = _ := Buffer.store_append hlength
  rw [hcell, hpos, cell]
  simpa only [List.append_assoc] using hstore

/-- A store of a number into its cell is a change of the contents there. -/
theorem store_lines {N W r c n : ℕ} {content content' : ℕ → ℕ → Option ℕ} (hr : r < N) (hc : c < N)
    (hfits : Fits W content) (hfree : ∀ m ∈ content r c, m = n) (hn : (decimal n).length ≤ W)
    (hnew : content' r c = some n)
    (hrest : ∀ r' c', (r', c') ≠ (r, c) → content' r' c' = content r' c') :
    Buffer.store (lines N W content) (cellPos N W r c + (W - (decimal n).length)) (decimal n) =
      some (lines N W content') := by
  have hrows : ∀ r' ≠ r, line N W (content' r') = line N W (content r') := by
    intro r' hne
    have hrow : content' r' = content r' :=
      funext fun c' => hrest r' c' fun heq => hne (Prod.mk.inj heq).1
    rw [hrow]
  have hcells : ∀ c' ≠ c, cell W (content' r c') = cell W (content r c') := by
    intro c' hne
    rw [hrest r c' fun heq => hne (Prod.mk.inj heq).2]
  obtain ⟨below, hold, hold'⟩ := flatMap_range_change hr hrows
  obtain ⟨right, hrow, hrow'⟩ := flatMap_range_change hc hcells
  have habove := length_flatMap_range (n := r) fun r' _ => line_length (N := N) hfits r'
  have hleft := length_flatMap_range (n := c) fun c' _ => cell_length (hfits r c')
  have hpos : cellPos N W r c = ((List.range r).flatMap (fun r' => line N W (content r')) ++
      (List.range c).flatMap fun c' => cell W (content r c')).length := by
    rw [List.length_append, habove, hleft, cellPos]
  have hstore := store_cell hfree hn ((List.range r).flatMap (fun r' => line N W (content r')) ++
    (List.range c).flatMap fun c' => cell W (content r c')) (right ++ ([10] ++ below))
  rw [lines, lines, hold, hold', line, line, hrow, hrow', hnew, hpos]
  simpa only [List.append_assoc] using hstore

end Acos.MakeSpiral
