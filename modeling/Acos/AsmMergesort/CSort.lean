import Acos.Lib.Lists
import Mathlib.Data.List.Sort

/-! The merge sort of `inf05-2: asm-x86_mergesort/main.c`. An array is the function of its
elements, and `p + r` is an exact sum. -/
namespace Acos.AsmMergesort
open Acos.Lists

/-- The loop of `Merge` that compares. -/
def mergeLoop (L R : ℕ → ℤ) (n1 n2 : ℕ) (A : ℕ → ℤ) (i j k : ℕ) : (ℕ → ℤ) × ℕ × ℕ × ℕ :=
  if i < n1 ∧ j < n2 then
    if L i < R j then mergeLoop L R n1 n2 (Function.update A k (L i)) (i + 1) j (k + 1)
    else mergeLoop L R n1 n2 (Function.update A k (R j)) i (j + 1) (k + 1)
  else (A, i, j, k)
termination_by n1 - i + (n2 - j)

/-- The two loops of `Merge` that take over what is left of one side. -/
def copyRest (X : ℕ → ℤ) (n : ℕ) (A : ℕ → ℤ) (i k : ℕ) : (ℕ → ℤ) × ℕ :=
  if i < n then copyRest X n (Function.update A k (X i)) (i + 1) (k + 1) else (A, k)
termination_by n - i

def Merge (A : ℕ → ℤ) (p q r : ℕ) : ℕ → ℤ :=
  let n1 := q - p + 1
  let n2 := r - q
  let L := fun i => A (p + i)
  let R := fun j => A (q + j + 1)
  let (A, i, j, k) := mergeLoop L R n1 n2 A 0 0 p
  let (A, k) := copyRest L n1 A i k
  (copyRest R n2 A j k).1

def MergeSort (A : ℕ → ℤ) (p r : ℕ) : ℕ → ℤ :=
  if p < r then
    let q := (p + r) / 2
    Merge (MergeSort (MergeSort A p q) (q + 1) r) p q r
  else A
termination_by r - p

/-- The elements from `k` on, `n` of them. -/
def segment (A : ℕ → ℤ) (k n : ℕ) : List ℤ := (List.range' k n).map A

section Merge
variable {L R X A B : ℕ → ℤ} {n n1 n2 i j k x : ℕ}

theorem segment_succ (A : ℕ → ℤ) (k n : ℕ) : segment A k (n + 1) = A k :: segment A (k + 1) n := rfl

theorem segment_append (A : ℕ → ℤ) (k n n' : ℕ) :
    segment A k (n + n') = segment A k n ++ segment A (k + n) n' := by
  rw [segment, segment, segment, ← List.map_append, ← List.range'_append_1]

theorem segment_congr (h : ∀ x, k ≤ x → x < k + n → A x = B x) : segment A k n = segment B k n := by
  apply List.map_congr_left
  intro x hx
  obtain ⟨hlo, hhi⟩ := List.mem_range'_1.mp hx
  exact h x hlo hhi

/-- What is left of `X` when `i` of its `n` elements are used. -/
def rest (X : ℕ → ℤ) (n i : ℕ) : List ℤ := segment X i (n - i)

theorem rest_of_lt (h : i < n) : rest X n i = X i :: rest X n (i + 1) := by
  rw [rest, rest, ← segment_succ]
  congr 1
  omega

theorem rest_of_le (h : n ≤ i) : rest X n i = [] := by
  rw [rest, Nat.sub_eq_zero_of_le h]
  rfl

theorem copyRest_spec (X : ℕ → ℤ) (n : ℕ) (A : ℕ → ℤ) (i k : ℕ) :
    (copyRest X n A i k).2 = k + (n - i) ∧ segment (copyRest X n A i k).1 k (n - i) = rest X n i ∧
      ∀ x, x < k ∨ k + (n - i) ≤ x → (copyRest X n A i k).1 x = A x := by
  induction hcount : n - i generalizing A i k with
  | zero =>
    have hle : ¬ i < n := by omega
    rw [copyRest, if_neg hle, rest_of_le (by omega)]
    exact ⟨rfl, rfl, fun _ _ => rfl⟩
  | succ count ih =>
    have hlt : i < n := by omega
    obtain ⟨hend, hseg, hframe⟩ := ih (Function.update A k (X i)) (i + 1) (k + 1) (by omega)
    rw [copyRest, if_pos hlt]
    refine ⟨by omega, ?_, fun x hx => ?_⟩
    · rw [segment_succ, hseg, rest_of_lt hlt, hframe k (.inl (Nat.lt_succ_self k)),
        Function.update_self]
    · rw [hframe x (by omega), Function.update_of_ne (by omega)]

/-- The loops of `Merge` from some point on. -/
def mergeFrom (L R : ℕ → ℤ) (n1 n2 : ℕ) (A : ℕ → ℤ) (i j k : ℕ) : ℕ → ℤ :=
  let (A, i, j, k) := mergeLoop L R n1 n2 A i j k
  let (A, k) := copyRest L n1 A i k
  (copyRest R n2 A j k).1

theorem mergeFrom_left (hi : i < n1) (hj : j < n2) (h : L i < R j) :
    mergeFrom L R n1 n2 A i j k =
      mergeFrom L R n1 n2 (Function.update A k (L i)) (i + 1) j (k + 1) := by
  rw [mergeFrom, mergeLoop, if_pos ⟨hi, hj⟩, if_pos h]
  rfl

theorem mergeFrom_right (hi : i < n1) (hj : j < n2) (h : ¬ L i < R j) :
    mergeFrom L R n1 n2 A i j k =
      mergeFrom L R n1 n2 (Function.update A k (R j)) i (j + 1) (k + 1) := by
  rw [mergeFrom, mergeLoop, if_pos ⟨hi, hj⟩, if_neg h]
  rfl

/-- One side is used up. -/
theorem mergeFrom_end (h : ¬(i < n1 ∧ j < n2)) :
    mergeFrom L R n1 n2 A i j k =
      (copyRest R n2 (copyRest L n1 A i k).1 j (copyRest L n1 A i k).2).1 := by
  rw [mergeFrom, mergeLoop, if_neg h]

theorem mergeFrom_spec (L R : ℕ → ℤ) (n1 n2 : ℕ) (A : ℕ → ℤ) (i j k : ℕ) :
    segment (mergeFrom L R n1 n2 A i j k) k (n1 - i + (n2 - j)) =
        List.merge (rest R n2 j) (rest L n1 i) ∧
      ∀ x, x < k ∨ k + (n1 - i + (n2 - j)) ≤ x → mergeFrom L R n1 n2 A i j k x = A x := by
  induction hcount : n1 - i + (n2 - j) using Nat.strong_induction_on generalizing A i j k with
  | _ count ih =>
    by_cases hboth : i < n1 ∧ j < n2
    · obtain ⟨hi, hj⟩ := hboth
      obtain ⟨count, rfl⟩ := Nat.exists_eq_succ_of_ne_zero (show count ≠ 0 by omega)
      rw [rest_of_lt hi, rest_of_lt hj, List.cons_merge_cons, segment_succ]
      by_cases hless : L i < R j
      · obtain ⟨hseg, hframe⟩ :=
          ih count (Nat.lt_succ_self count) (Function.update A k (L i)) (i + 1) j (k + 1) (by omega)
        rw [mergeFrom_left hi hj hless, if_neg (by simpa using hless), hseg, rest_of_lt hj,
          hframe k (.inl (Nat.lt_succ_self k)), Function.update_self]
        refine ⟨rfl, fun x hx => ?_⟩
        rw [hframe x (by omega), Function.update_of_ne (by omega)]
      · obtain ⟨hseg, hframe⟩ :=
          ih count (Nat.lt_succ_self count) (Function.update A k (R j)) i (j + 1) (k + 1) (by omega)
        rw [mergeFrom_right hi hj hless, if_pos (by simpa using hless), hseg, rest_of_lt hi,
          hframe k (.inl (Nat.lt_succ_self k)), Function.update_self]
        refine ⟨rfl, fun x hx => ?_⟩
        rw [hframe x (by omega), Function.update_of_ne (by omega)]
    · obtain ⟨hendL, hsegL, hframeL⟩ := copyRest_spec L n1 A i k
      obtain ⟨-, hsegR, hframeR⟩ :=
        copyRest_spec R n2 (copyRest L n1 A i k).1 j (copyRest L n1 A i k).2
      rw [hendL] at hsegR hframeR
      rw [mergeFrom_end hboth, hendL, ← hcount, segment_append, hsegR,
        segment_congr fun x _ hx => hframeR x (.inl hx), hsegL]
      refine ⟨?_, fun x hx => ?_⟩
      · rcases not_and_or.mp hboth with hi | hj
        · rw [rest_of_le (Nat.le_of_not_lt hi), List.merge_right, List.nil_append]
        · rw [rest_of_le (Nat.le_of_not_lt hj), List.nil_merge, List.append_nil]
      · rw [hframeR x (by omega), hframeL x (by omega)]

end Merge

section Recursion
variable {A : ℕ → ℤ} {p q r : ℕ}

/-- The elements of an array that starts `c` further on. -/
theorem segment_shift (A : ℕ → ℤ) (c k n : ℕ) :
    segment (fun i => A (c + i)) k n = segment A (c + k) n := by
  rw [segment, segment, ← List.map_add_range', List.map_map]
  rfl

theorem Merge_eq (A : ℕ → ℤ) (p q r : ℕ) :
    Merge A p q r = mergeFrom (fun i => A (p + i)) (fun j => A (q + 1 + j)) (q - p + 1) (r - q)
      A 0 0 p := by
  have hright : (fun j => A (q + j + 1)) = fun j => A (q + 1 + j) := by
    funext j
    rw [Nat.add_right_comm]
  rw [← hright]
  rfl

theorem Merge_spec (A : ℕ → ℤ) (hpq : p ≤ q) (hqr : q ≤ r) :
    segment (Merge A p q r) p (r + 1 - p) =
        List.merge (segment A (q + 1) (r - q)) (segment A p (q + 1 - p)) ∧
      ∀ x, x < p ∨ r < x → Merge A p q r x = A x := by
  obtain ⟨hseg, hframe⟩ := mergeFrom_spec (fun i => A (p + i)) (fun j => A (q + 1 + j))
    (q - p + 1) (r - q) A 0 0 p
  have hcount : p + (q - p + 1 - 0 + (r - q - 0)) = r + 1 := by omega
  have hall : q - p + 1 - 0 + (r - q - 0) = r + 1 - p := by omega
  have hleft : q - p + 1 = q + 1 - p := by omega
  rw [← Merge_eq, hall, rest, rest, segment_shift, segment_shift, hleft] at hseg
  rw [← Merge_eq, hcount] at hframe
  exact ⟨hseg, fun x hx => hframe x (by omega)⟩

theorem Merge_perm (A : ℕ → ℤ) (hpq : p ≤ q) (hqr : q ≤ r) :
    (segment (Merge A p q r) p (r + 1 - p)).Perm (segment A p (r + 1 - p)) := by
  have hsplit : segment A p (r + 1 - p) = segment A p (q + 1 - p) ++ segment A (q + 1) (r - q) := by
    rw [show r + 1 - p = q + 1 - p + (r - q) by omega, segment_append]
    congr 2
    omega
  rw [(Merge_spec A hpq hqr).1, hsplit]
  exact (List.merge_perm_append _).trans List.perm_append_comm

/-- A step of the recursion sorts both halves, one after the other. -/
theorem halves_perm {B C : ℕ → ℤ} (hpq : p ≤ q) (hqr : q ≤ r)
    (hleft : (segment B p (q + 1 - p)).Perm (segment A p (q + 1 - p)))
    (hright : (segment C (q + 1) (r + 1 - (q + 1))).Perm (segment B (q + 1) (r + 1 - (q + 1))))
    (hB : ∀ x, x < p ∨ q < x → B x = A x) (hC : ∀ x, x < q + 1 ∨ r < x → C x = B x) :
    (segment C p (r + 1 - p)).Perm (segment A p (r + 1 - p)) := by
  have hcount : r + 1 - p = q + 1 - p + (r + 1 - (q + 1)) := by omega
  have hstart : p + (q + 1 - p) = q + 1 := by omega
  rw [hcount, segment_append, segment_append, hstart]
  have hleft' : segment C p (q + 1 - p) = segment B p (q + 1 - p) :=
    segment_congr fun x _ hx => hC x (by omega)
  have hright' : segment B (q + 1) (r + 1 - (q + 1)) = segment A (q + 1) (r + 1 - (q + 1)) :=
    segment_congr fun x hx _ => hB x (by omega)
  rw [hleft']
  exact hleft.append (hright' ▸ hright)

/-- A segment that has only one element is sorted. -/
theorem segment_sorted_of_le (h : r ≤ p) :
    (segment A p (r + 1 - p)).Pairwise (· ≤ ·) := by
  obtain hnone | hone : r + 1 - p = 0 ∨ r + 1 - p = 1 := by omega
  · rw [hnone]
    exact List.Pairwise.nil
  · rw [hone]
    exact List.pairwise_singleton _ _

/-- `MergeSort` sorts the elements from `p` to `r` and leaves the others alone. -/
theorem MergeSort_spec (A : ℕ → ℤ) (p r : ℕ) :
    (segment (MergeSort A p r) p (r + 1 - p)).Perm (segment A p (r + 1 - p)) ∧
      (segment (MergeSort A p r) p (r + 1 - p)).Pairwise (· ≤ ·) ∧
      ∀ x, x < p ∨ r < x → MergeSort A p r x = A x := by
  induction A, p, r using MergeSort.induct with
  | case1 A p r hlt q ihleft _ ihright =>
    obtain ⟨hpermL, hsortL, hframeL⟩ := ihleft
    obtain ⟨hpermR, hsortR, hframeR⟩ := ihright
    have hpq : p ≤ q := by omega
    have hqr : q ≤ r := by omega
    obtain ⟨hseg, hframe⟩ := Merge_spec (MergeSort (MergeSort A p q) (q + 1) r) hpq hqr
    have hleft : segment (MergeSort (MergeSort A p q) (q + 1) r) p (q + 1 - p) =
        segment (MergeSort A p q) p (q + 1 - p) :=
      segment_congr fun x _ hx => hframeR x (by omega)
    rw [MergeSort, if_pos hlt]
    refine ⟨?_, ?_, fun x hx => ?_⟩
    · exact (Merge_perm _ hpq hqr).trans (halves_perm hpq hqr hpermL hpermR hframeL hframeR)
    · rw [show r + 1 - (q + 1) = r - q by omega] at hsortR
      rw [hseg, hleft]
      exact merge_sorted hsortR hsortL
    · rw [hframe x hx, hframeR x (by omega), hframeL x (by omega)]
  | case2 A p r hge =>
    rw [MergeSort, if_neg hge]
    exact ⟨List.Perm.refl _, segment_sorted_of_le (Nat.le_of_not_lt hge), fun _ _ => rfl⟩

end Recursion

end Acos.AsmMergesort
