import Mathlib.Data.Finset.SymmDiff

/-! Finite sets as bit masks. The bits beyond the elements may hold anything. -/
namespace Acos.BitSet

variable {α : Type*} {w n : ℕ} {nth : ℕ → α} {a b : BitVec w} {s t : Finset α}

/-- Bit `i` says whether the `i`-th of `n` elements is in the set. -/
def Represents (nth : ℕ → α) (n : ℕ) (mask : BitVec w) (s : Finset α) : Prop :=
  ∀ i < n, mask.getLsbD i = true ↔ nth i ∈ s

theorem represents_empty : Represents nth n (0#w) ∅ := by
  intro i _
  simp

/-- The test of a single bit. -/
theorem and_bit_ne_zero {i : ℕ} (hi : i < w) : a &&& 1#w <<< i ≠ 0 ↔ a.getLsbD i = true := by
  have hbit : (1#w <<< i) = BitVec.twoPow w i := (BitVec.twoPow_eq w i).symm
  have hne : BitVec.twoPow w i ≠ 0 := fun hzero => by
    have hset := BitVec.getLsbD_twoPow i (w := w) (j := i)
    rw [hzero] at hset
    simp [hi] at hset
  rw [hbit, BitVec.and_twoPow]
  split_ifs with hset
  · exact iff_of_true hne hset
  · exact iff_of_false (by simp) hset

variable [DecidableEq α]

theorem Represents.union (ha : Represents nth n a s) (hb : Represents nth n b t) :
    Represents nth n (a ||| b) (s ∪ t) := by
  intro i hi
  rw [BitVec.getLsbD_or, Bool.or_eq_true, ha i hi, hb i hi, Finset.mem_union]

theorem Represents.inter (ha : Represents nth n a s) (hb : Represents nth n b t) :
    Represents nth n (a &&& b) (s ∩ t) := by
  intro i hi
  rw [BitVec.getLsbD_and, Bool.and_eq_true, ha i hi, hb i hi, Finset.mem_inter]

theorem Represents.symmDiff (ha : Represents nth n a s) (hb : Represents nth n b t) :
    Represents nth n (a ^^^ b) (symmDiff s t) := by
  intro i hi
  rw [BitVec.getLsbD_xor, Bool.xor_iff_ne, Finset.mem_symmDiff, ← ha i hi, ← hb i hi]
  cases a.getLsbD i <;> cases b.getLsbD i <;> simp

/-- The complement sets the bits beyond the elements, too. -/
theorem Represents.compl {elements : Finset α} (ha : Represents nth n a s) (hn : n ≤ w)
    (helements : ∀ i < n, nth i ∈ elements) : Represents nth n (~~~a) (elements \ s) := by
  intro i hi
  have hwidth : i < w := by omega
  rw [BitVec.getLsbD_not, Finset.mem_sdiff, ← ha i hi]
  simp [hwidth, helements i hi]

theorem Represents.insert {k : ℕ} (ha : Represents nth n a s) (hk : k < n) (hn : n ≤ w)
    (hinj : ∀ i < n, nth i = nth k → i = k) :
    Represents nth n (a ||| 1#w <<< k) (insert (nth k) s) := by
  intro i hi
  have hbit : (1#w <<< k).getLsbD i = true ↔ nth i = nth k := by
    have hwidth : i < w := by omega
    constructor
    · intro h
      simp [hwidth] at h
      rw [show i = k by omega]
    · intro h
      rw [hinj i hi h]
      simp
      omega
  rw [BitVec.getLsbD_or, Bool.or_eq_true, ha i hi, hbit, Finset.mem_insert, or_comm]

/-- The elements of the set are found bit by bit. -/
theorem Represents.filter (ha : Represents nth n a s) :
    ((List.range n).filter fun i => a.getLsbD i).map nth =
      ((List.range n).map nth).filter (· ∈ s) := by
  rw [List.filter_map]
  congr 1
  apply List.filter_congr
  intro i hi
  have hbit := ha i (List.mem_range.mp hi)
  cases hset : a.getLsbD i with
  | true => exact (decide_eq_true (hbit.mp hset)).symm
  | false => exact (decide_eq_false fun h => by simp [hbit.mpr h] at hset).symm

end Acos.BitSet
