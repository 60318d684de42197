import Acos.FileSort.Correct
import Mathlib.Data.List.Pairwise

/-! The comparison that `sort_file_segment` hands to `qsort` is a difference of two integers. It
orders them as numbers as long as no difference leaves the range of `int`. -/
namespace Acos.FileSort
open Acos.IntBytes Acos.MachineInt Acos.PosixFile

/-- The comparison is a total order on the elements of the array, equal elements included. -/
structure Consistent (cmp : ℤ → ℤ → ℤ) (xs : List ℤ) : Prop where
  antisymm : ∀ a ∈ xs, ∀ b ∈ xs, cmp a b < 0 ↔ 0 < cmp b a
  trans : ∀ a ∈ xs, ∀ b ∈ xs, ∀ c ∈ xs, cmp a b ≤ 0 → cmp b c ≤ 0 → cmp a c ≤ 0

instance (cmp : ℤ → ℤ → ℤ) (xs : List ℤ) : Decidable (Consistent cmp xs) :=
  decidable_of_iff ((∀ a ∈ xs, ∀ b ∈ xs, cmp a b < 0 ↔ 0 < cmp b a) ∧
      ∀ a ∈ xs, ∀ b ∈ xs, ∀ c ∈ xs, cmp a b ≤ 0 → cmp b c ≤ 0 → cmp a c ≤ 0)
    ⟨fun h => ⟨h.1, h.2⟩, fun h => ⟨h.antisymm, h.trans⟩⟩

/-- What is assumed of `qsort`: it sorts every array by every consistent order. -/
structure Conforming (qsort : (ℤ → ℤ → ℤ) → List ℤ → List ℤ) : Prop where
  perm : ∀ cmp xs, Consistent cmp xs → (qsort cmp xs).Perm xs
  sorted : ∀ cmp xs, Consistent cmp xs → (qsort cmp xs).Pairwise fun a b => cmp a b ≤ 0

/-- `cmp` is negative, zero or positive as the numbers are. -/
def ComparesNumbers (xs : List ℤ) : Prop :=
  ∀ a ∈ xs, ∀ b ∈ xs, (cmp a b < 0 ↔ a < b) ∧ (cmp a b = 0 ↔ a = b) ∧ (0 < cmp a b ↔ b < a)

/-- `sort_file_segment` leaves the segment in numeric order and the rest of the file as it is,
wherever in a file the segment is. -/
def SortsSegment (qsort : (ℤ → ℤ → ℤ) → List ℤ → List ℤ) (xs : List ℤ) : Prop :=
  ∀ (sched : ℕ → ℕ) (fd k : ℕ) (w : World) (P Q : List UInt8), P.length = 4 * k → k < 2 ^ 61 →
    (w.files fd).data = P ++ (encodeInts xs ++ Q) → (w.files fd).pos = 4 * k →
    ∃ w' ys, sortFileSegment sched qsort fd w xs.length = some w' ∧
      (w'.files fd).data = P ++ (encodeInts ys ++ Q) ∧ ys.Perm xs ∧ ys.Pairwise (· ≤ ·)

/-- No two integers of the segment are `2 ^ 31` or more apart. -/
def Narrow (xs : List ℤ) : Prop := ∀ a ∈ xs, ∀ b ∈ xs, a - b < 2 ^ 31

section Compare
variable {xs ys : List ℤ} {a b : ℤ}

theorem cmp_of_narrow (h : Narrow xs) (ha : a ∈ xs) (hb : b ∈ xs) : cmp a b = a - b := by
  have hup := h a ha b hb
  have hdown := h b hb a ha
  exact i32_of_range (by omega) hup

/-- A difference that is too large for an `int` comes out negative. -/
theorem cmp_wide (ha : IsInt32 a) (hb : IsInt32 b) (hwide : 2 ^ 31 ≤ a - b) : cmp a b < 0 := by
  unfold IsInt32 at ha hb
  unfold cmp i32
  omega

theorem comparesNumbers_iff (hxs : ∀ x ∈ xs, IsInt32 x) : ComparesNumbers xs ↔ Narrow xs := by
  constructor
  · intro h a ha b hb
    by_contra hwide
    have hneg := cmp_wide (hxs a ha) (hxs b hb) (not_lt.mp hwide)
    have hlt := (h a ha b hb).1.mp hneg
    omega
  · intro h a ha b hb
    rw [cmp_of_narrow h ha hb]
    omega

theorem consistent_of_narrow (h : Narrow xs) : Consistent cmp xs := by
  refine ⟨fun a ha b hb => ?_, fun a ha b hb c hc => ?_⟩
  · rw [cmp_of_narrow h ha hb, cmp_of_narrow h hb ha]
    omega
  · rw [cmp_of_narrow h ha hb, cmp_of_narrow h hb hc, cmp_of_narrow h ha hc]
    omega

end Compare

section Qsort
variable {xs : List ℤ}

/-- An order on the elements of the array is an order on the type that they make up. -/
theorem insertionQsort_sorted {cmp : ℤ → ℤ → ℤ} (h : Consistent cmp xs) :
    (insertionQsort cmp xs).Pairwise fun a b => cmp a b ≤ 0 := by
  let le (a b : {x // x ∈ xs}) : Prop := cmp a b ≤ 0
  have htotal : Std.Total le := ⟨fun a b => by
    have hanti := h.antisymm b b.2 a a.2
    unfold le
    omega⟩
  have htrans : IsTrans _ le := ⟨fun a b c => h.trans a a.2 b b.2 c c.2⟩
  have hmap := List.map_insertionSort (r := le) (s := fun a b => cmp a b ≤ 0) Subtype.val xs.attach
    fun a _ b _ => Iff.rfl
  rw [List.attach_map_subtype_val] at hmap
  rw [insertionQsort, ← hmap, List.pairwise_map]
  exact List.pairwise_insertionSort le xs.attach

theorem insertionQsort_conforms : Conforming insertionQsort :=
  ⟨fun _ xs _ => List.perm_insertionSort _ xs, fun _ _ h => insertionQsort_sorted h⟩

/-- A `qsort` that puts the greatest integer first when the comparison is no order. -/
def stubbornQsort (cmp : ℤ → ℤ → ℤ) (xs : List ℤ) : List ℤ :=
  if Consistent cmp xs then insertionQsort cmp xs else xs.insertionSort (· ≥ ·)

theorem stubbornQsort_perm (cmp : ℤ → ℤ → ℤ) (xs : List ℤ) : (stubbornQsort cmp xs).Perm xs := by
  unfold stubbornQsort
  split_ifs
  · exact List.perm_insertionSort _ xs
  · exact List.perm_insertionSort _ xs

theorem stubbornQsort_conforms : Conforming stubbornQsort := by
  refine ⟨fun cmp xs _ => stubbornQsort_perm cmp xs, fun cmp xs h => ?_⟩
  rw [stubbornQsort, if_pos h]
  exact insertionQsort_sorted h

/-- Two orders that both hold along a list. -/
theorem pairwise_both {R S : ℤ → ℤ → Prop} {ys : List ℤ} {a b : ℤ} (hR : ys.Pairwise R)
    (hS : ys.Pairwise S) (ha : a ∈ ys) (hb : b ∈ ys) (hne : a ≠ b) :
    R a b ∧ S a b ∨ R b a ∧ S b a := by
  have hboth : ys.Pairwise fun a b => R a b ∧ S a b ∨ R b a ∧ S b a :=
    (hR.and hS).imp Or.inl
  have hsymm : Std.Symm fun a b => R a b ∧ S a b ∨ R b a ∧ S b a := ⟨fun _ _ h => h.symm⟩
  exact hboth.forall ha hb hne

end Qsort

section Segment
variable {xs : List ℤ} {qsort : (ℤ → ℤ → ℤ) → List ℤ → List ℤ}

theorem sortsSegment_of_narrow (hqsort : Conforming qsort) (hxs : ∀ x ∈ xs, IsInt32 x)
    (hlen : 4 * xs.length < 2 ^ 31) (h : Narrow xs) : SortsSegment qsort xs := by
  intro sched fd k w P Q hP hk hdata hpos
  have hconsistent := consistent_of_narrow h
  have hperm := hqsort.perm cmp xs hconsistent
  obtain ⟨w', hsort, hleft⟩ := sortFileSegment_files sched hP hdata hpos hxs hk hlen hperm
  refine ⟨w', _, hsort, hleft, hperm, (hqsort.sorted cmp xs hconsistent).imp_of_mem ?_⟩
  intro a b ha hb hle
  rw [cmp_of_narrow h (hperm.subset ha) (hperm.subset hb)] at hle
  omega

/-- What the stubborn `qsort` does with integers that are too far apart. -/
theorem stubbornQsort_unsorted (hxs : ∀ x ∈ xs, IsInt32 x) {a b : ℤ} (ha : a ∈ xs) (hb : b ∈ xs)
    (hwide : 2 ^ 31 ≤ a - b) : ¬ (stubbornQsort cmp xs).Pairwise (· ≤ ·) := by
  intro hsorted
  have hperm := stubbornQsort_perm cmp xs
  have hne : a ≠ b := by omega
  have hneg := cmp_wide (hxs a ha) (hxs b hb) hwide
  have hboth {S : ℤ → ℤ → Prop} (hS : (stubbornQsort cmp xs).Pairwise S) :=
    pairwise_both hsorted hS (hperm.mem_iff.mpr ha) (hperm.mem_iff.mpr hb) hne
  by_cases hconsistent : Consistent cmp xs
  · have hpos := (hconsistent.antisymm a ha b hb).mp hneg
    rcases hboth (stubbornQsort_conforms.sorted cmp xs hconsistent) with ⟨hle, _⟩ | ⟨_, hle⟩
    · omega
    · omega
  · have hdown : (stubbornQsort cmp xs).Pairwise (· ≥ ·) := by
      rw [stubbornQsort, if_neg hconsistent]
      exact List.pairwise_insertionSort (· ≥ ·) xs
    rcases hboth hdown with ⟨hle, _⟩ | ⟨hle, hge⟩
    · omega
    · omega

theorem narrow_of_sortsSegment (hxs : ∀ x ∈ xs, IsInt32 x) (hlen : 4 * xs.length < 2 ^ 31)
    (h : SortsSegment stubbornQsort xs) : Narrow xs := by
  intro a ha b hb
  by_contra hwide
  have hperm := stubbornQsort_perm cmp xs
  -- A file that holds the segment and nothing else.
  let w : World := ⟨fun _ => ⟨encodeInts xs, 0⟩, 0⟩
  have hdata : (w.files 0).data = [] ++ (encodeInts xs ++ []) := by simp [w]
  obtain ⟨w', ys, hsort, hleft, hys, hsorted⟩ :=
    h (fun _ => 0) 0 0 w [] [] rfl (by omega) hdata rfl
  obtain ⟨w'', hsort', hleft'⟩ :=
    sortFileSegment_files (fun _ => 0) (k := 0) rfl hdata rfl hxs (by omega) hlen hperm
  rw [hsort, Option.some_inj] at hsort'
  rw [← hsort', hleft, List.append_nil, List.append_nil, List.nil_append, List.nil_append]
    at hleft'
  have heq : ys = stubbornQsort cmp xs := by
    rw [← decodeInts_encodeInts fun y hy => hxs y (hys.subset hy), hleft',
      decodeInts_encodeInts fun y hy => hxs y (hperm.subset hy)]
  rw [heq] at hsorted
  exact stubbornQsort_unsorted hxs ha hb (not_lt.mp hwide) hsorted

/-- `cmp` compares the numbers of a segment, and `sort_file_segment` sorts it with every `qsort`
that sorts by consistent orders, exactly when no two of its integers are `2 ^ 31` or more apart. -/
theorem sort_file_segment_iff (hxs : ∀ x ∈ xs, IsInt32 x) (hlen : 4 * xs.length < 2 ^ 31) :
    (ComparesNumbers xs ↔ Narrow xs) ∧
      ((∀ qsort, Conforming qsort → SortsSegment qsort xs) ↔ Narrow xs) :=
  ⟨comparesNumbers_iff hxs, fun h => narrow_of_sortsSegment hxs hlen (h _ stubbornQsort_conforms),
    fun h _ hqsort => sortsSegment_of_narrow hqsort hxs hlen h⟩

theorem sort_file_segment_two :
    (ComparesNumbers [3, -5] ↔ Narrow [3, -5]) ∧
      ((∀ qsort, Conforming qsort → SortsSegment qsort [3, -5]) ↔ Narrow [3, -5]) :=
  sort_file_segment_iff (by simp [IsInt32]) (by decide)

/-- The greatest `int` and `-2`. -/
def farApart : List ℤ := [2147483647, -2]

/-- A file of the two integers. -/
def farApartFile : World := ⟨fun _ => ⟨encodeInts farApart, 0⟩, 0⟩

theorem sort_file_segment_wraps :
    (∀ x ∈ farApart, IsInt32 x) ∧ cmp 2147483647 (-2) < 0 ∧ Conforming insertionQsort ∧
      (sortFileSegment (fun _ => 0) insertionQsort 0 farApartFile 2).map
        (fun w => (w.files 0).data) = some (encodeInts farApart) ∧
      ¬ farApart.Pairwise (· ≤ ·) :=
  ⟨by simp [farApart, IsInt32], by decide, insertionQsort_conforms, by decide, by decide⟩

end Segment

end Acos.FileSort
