import Acos.AsmMergesort.CSort

/-! What is left of `MergeSort` when a merge does nothing where `p + r` is no `int`. -/
namespace Acos.AsmMergesort
open Acos.Lists

/-- `MergeSort` without the merges whose `p + r` has more than 31 bits. -/
def IntMergeSort (A : ℕ → ℤ) (p r : ℕ) : ℕ → ℤ :=
  if p < r then
    let q := (p + r) / 2
    let C := IntMergeSort (IntMergeSort A p q) (q + 1) r
    if p + r < 2 ^ 31 then Merge C p q r else C
  else A
termination_by r - p

section
variable {A : ℕ → ℤ} {p q r : ℕ}

theorem IntMergeSort_of_ge (h : ¬ p < r) : IntMergeSort A p r = A := by
  rw [IntMergeSort, if_neg h]

theorem IntMergeSort_of_merge (h : p < r) (hsum : p + r < 2 ^ 31) (hq : q = (p + r) / 2) :
    IntMergeSort A p r = Merge (IntMergeSort (IntMergeSort A p q) (q + 1) r) p q r := by
  rw [IntMergeSort, if_pos h, if_pos hsum, hq]

theorem IntMergeSort_of_skip (h : p < r) (hsum : ¬ p + r < 2 ^ 31) (hq : q = (p + r) / 2) :
    IntMergeSort A p r = IntMergeSort (IntMergeSort A p q) (q + 1) r := by
  rw [IntMergeSort, if_pos h, if_neg hsum, hq]

/-- Up to `2 ^ 30`, every sum in the recursion is an `int`. -/
theorem IntMergeSort_eq (h : p = r ∨ r ≤ 2 ^ 30) : IntMergeSort A p r = MergeSort A p r := by
  induction A, p, r using MergeSort.induct with
  | case1 A p r hlt q ihleft _ ihright =>
    rw [IntMergeSort_of_merge hlt (by omega) rfl, MergeSort, if_pos hlt, ihleft (by omega),
      ihright (by omega)]
  | case2 A p r hge => rw [IntMergeSort_of_ge hge, MergeSort, if_neg hge]

theorem IntMergeSort_spec (A : ℕ → ℤ) (p r : ℕ) :
    (segment (IntMergeSort A p r) p (r + 1 - p)).Perm (segment A p (r + 1 - p)) ∧
      ∀ x, x < p ∨ r < x → IntMergeSort A p r x = A x := by
  induction A, p, r using IntMergeSort.induct with
  | case1 A p r hlt q hsum ihleft _ ihright =>
    obtain ⟨hpermL, hframeL⟩ := ihleft
    obtain ⟨hpermR, hframeR⟩ := ihright
    have hpq : p ≤ q := by omega
    have hqr : q ≤ r := by omega
    obtain ⟨_, hframe⟩ := Merge_spec (IntMergeSort (IntMergeSort A p q) (q + 1) r) hpq hqr
    rw [IntMergeSort_of_merge hlt hsum rfl]
    refine ⟨(Merge_perm _ hpq hqr).trans (halves_perm hpq hqr hpermL hpermR hframeL hframeR), ?_⟩
    intro x hx
    rw [hframe x hx, hframeR x (by omega), hframeL x (by omega)]
  | case2 A p r hlt q hsum ihleft _ ihright =>
    obtain ⟨hpermL, hframeL⟩ := ihleft
    obtain ⟨hpermR, hframeR⟩ := ihright
    rw [IntMergeSort_of_skip hlt hsum rfl]
    refine ⟨halves_perm (by omega) (by omega) hpermL hpermR hframeL hframeR, fun x hx => ?_⟩
    rw [hframeR x (by omega), hframeL x (by omega)]
  | case3 A p r hge =>
    rw [IntMergeSort_of_ge hge]
    exact ⟨List.Perm.refl _, fun _ _ => rfl⟩

theorem mem_segment {x k n : ℕ} (hlo : k ≤ x) (hhi : x < k + n) : A x ∈ segment A k n :=
  List.mem_map_of_mem (List.mem_range'_1.mpr ⟨hlo, hhi⟩)

/-- A segment of equal elements stays as it is. -/
theorem IntMergeSort_const {v : ℤ} (hA : ∀ x, p ≤ x → x ≤ r → A x = v) (hle : p ≤ r) :
    IntMergeSort A p r p = v := by
  have hmem := (IntMergeSort_spec A p r).1.subset
    (mem_segment (le_refl p) (show p < p + (r + 1 - p) by omega))
  obtain ⟨x, hx, hval⟩ := List.mem_map.mp hmem
  obtain ⟨hlo, hhi⟩ := List.mem_range'_1.mp hx
  exact hval.symm.trans (hA x hlo (by omega))

/-- The first element of a merge is that of one of its halves. -/
theorem Merge_first {v : ℤ} (hpq : p ≤ q) (hqr : q < r) (hleft : A p = v)
    (hright : A (q + 1) = v) : Merge A p q r p = v := by
  obtain ⟨hseg, _⟩ := Merge_spec A hpq hqr.le
  obtain ⟨c, hc⟩ : ∃ c, r + 1 - p = c + 1 := ⟨r - p, by omega⟩
  obtain ⟨a, ha⟩ : ∃ a, r - q = a + 1 := ⟨r - q - 1, by omega⟩
  obtain ⟨b, hb⟩ : ∃ b, q + 1 - p = b + 1 := ⟨q - p, by omega⟩
  rw [hc, ha, hb, segment_succ, segment_succ, segment_succ, List.cons_merge_cons] at hseg
  split_ifs at hseg with hle
  · exact (List.cons.inj hseg).1.trans hright
  · exact (List.cons.inj hseg).1.trans hleft

/-- Past `2 ^ 30`, the last element does not get in front of equal ones: the last merge that it is
in does nothing. -/
theorem IntMergeSort_first {v : ℤ} (A : ℕ → ℤ) (p r : ℕ) (hlt : p < r) (hr : 2 ^ 30 < r)
    (hA : ∀ x, p ≤ x → x < r → A x = v) : IntMergeSort A p r p = v := by
  induction A, p, r using IntMergeSort.induct with
  | case1 A p r _ q hsum _ _ ihright =>
    have hpq : p ≤ q := by omega
    obtain ⟨_, hframeL⟩ := IntMergeSort_spec A p q
    obtain ⟨_, hframeR⟩ := IntMergeSort_spec (IntMergeSort A p q) (q + 1) r
    rw [IntMergeSort_of_merge hlt hsum rfl]
    refine Merge_first hpq (by omega) ?_ ?_
    · rw [hframeR p (by omega)]
      exact IntMergeSort_const (fun x hx hx' => hA x hx (by omega)) hpq
    · refine ihright (by omega) hr fun x hx hx' => ?_
      rw [hframeL x (by omega)]
      exact hA x (by omega) hx'
  | case2 A p r _ q hsum =>
    obtain ⟨_, hframeR⟩ := IntMergeSort_spec (IntMergeSort A p q) (q + 1) r
    rw [IntMergeSort_of_skip hlt hsum rfl, hframeR p (by omega)]
    exact IntMergeSort_const (fun x hx hx' => hA x hx (by omega)) (by omega)
  | case3 A p r hge => exact absurd hlt hge

end

end Acos.AsmMergesort
