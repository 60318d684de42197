import Acos.Lib.MachineInt
import Acos.Lib.Scanf

/-! The search of `inf10-0_posix_mmap_find-substrings-in-file/main.c`. The loop ends before the last
place at which the string has room. -/
namespace Acos.FindSubstrings
open Acos.CString Acos.MachineInt Acos.Scanf

/-- The loop over `j`; `none` when it reads outside the string or the mapping. -/
def compareLoop (str file : Bytes) (str_len : ℤ) (i j : ℕ) : Option ℕ :=
  if j < str_len then
    match str[j]?, file[i + j]? with
    | some c, some d => if c = d then compareLoop str file str_len i (j + 1) else some j
    | _, _ => none
  else some j
termination_by (str_len - j).toNat

/-- The loop over `i` with `bound` for `(int)f_size - str_len`: what is printed from there on. -/
def searchLoop (str file : Bytes) (str_len bound : ℤ) (i : ℕ) : Option Bytes :=
  if i < bound then do
    let j ← compareLoop str file str_len i 0
    let rest ← searchLoop str file str_len bound (i + 1)
    some ((if j = str_len then decimal i ++ [32] else []) ++ rest)
  else some []
termination_by (bound - i).toNat

/-- What is printed for a string argument and the contents of the file. -/
def main (str file : Bytes) : Option Bytes :=
  let str_len := i32 str.length
  searchLoop str file str_len (i32 (i32 file.length - str_len)) 0

def Occurs (str file : Bytes) (i : ℕ) : Prop := str <+: file.drop i

instance (str file : Bytes) : DecidablePred (Occurs str file) :=
  fun i => inferInstanceAs (Decidable (str <+: file.drop i))

/-- Positions as `printf` writes them. -/
def listing (positions : List ℕ) : Bytes := positions.flatMap fun i => decimal i ++ [32]

/-- All the positions at which the string occurs. -/
def occurrences (str file : Bytes) : List ℕ :=
  (List.range file.length).filter fun i => Occurs str file i

section
variable {str file : Bytes} {bound : ℤ} {i j : ℕ}

theorem compareLoop_spec (hroom : i + str.length ≤ file.length) (hj : j ≤ str.length) :
    ∃ k, compareLoop str file str.length i j = some k ∧
      (k = str.length ↔ str.drop j <+: file.drop (i + j)) := by
  induction hleft : str.length - j generalizing j with
  | zero =>
    have hend : j = str.length := by omega
    refine ⟨j, ?_, iff_of_true hend ?_⟩
    · rw [compareLoop, if_neg (by omega)]
    · rw [hend, List.drop_length]
      exact List.nil_prefix
  | succ left ih =>
    have hstr : j < str.length := by omega
    have hfile : i + j < file.length := by omega
    rw [compareLoop, if_pos (by omega), List.getElem?_eq_getElem hstr,
      List.getElem?_eq_getElem hfile, List.drop_eq_getElem_cons hstr,
      List.drop_eq_getElem_cons hfile, List.cons_prefix_cons]
    by_cases heq : str[j] = file[i + j]
    · obtain ⟨k, hk, hspec⟩ := ih (j := j + 1) hstr (by omega)
      exact ⟨k, by simpa only [heq, if_true] using hk,
        by simpa only [heq, true_and, Nat.add_assoc] using hspec⟩
    · refine ⟨j, by simp only [heq, if_false], iff_of_false (by omega) fun h => heq h.1⟩

theorem searchLoop_eq (hbound : bound ≤ file.length - str.length) :
    searchLoop str file str.length bound i =
      some (listing ((List.range' i (bound - i).toNat).filter fun i => Occurs str file i)) := by
  induction hleft : (bound - i).toNat generalizing i with
  | zero =>
    rw [searchLoop, if_neg (by omega)]
    rfl
  | succ left ih =>
    have hroom : i + str.length ≤ file.length := by omega
    obtain ⟨k, hk, hspec⟩ := compareLoop_spec hroom (Nat.zero_le _)
    rw [List.drop_zero, Nat.add_zero] at hspec
    rw [searchLoop, if_pos (by omega), hk, ih (by omega), List.range'_succ, List.filter_cons]
    by_cases hoccurs : Occurs str file i
    · have hend := hspec.mpr hoccurs
      simp [hoccurs, hend, listing]
    · have hshort : k ≠ str.length := fun h => hoccurs (hspec.mp h)
      simp [hoccurs, hshort]

theorem i32_sub_i32 (x y : ℤ) : i32 (i32 x - y) = i32 (x - y) := by
  unfold i32
  omega

theorem i32_sub_le (k : ℕ) {l : ℕ} (hl : l < 2 ^ 31) : i32 (k - l) ≤ k - l := by
  unfold i32
  omega

/-- The program prints the positions that it tries. -/
theorem main_eq (hstr : str.length < 2 ^ 31) :
    main str file = some (listing ((List.range (i32 (file.length - str.length)).toNat).filter
      fun i => Occurs str file i)) := by
  have hbound := i32_sub_le file.length hstr
  rw [main, i32_natCast hstr, i32_sub_i32, searchLoop_eq hbound, List.range_eq_range',
    Nat.cast_zero, sub_zero]

theorem listing_append (ps qs : List ℕ) : listing (ps ++ qs) = listing ps ++ listing qs :=
  List.flatMap_append

theorem listing_eq_nil {positions : List ℕ} : listing positions = [] ↔ positions = [] := by
  cases positions <;> simp [listing]

theorem Occurs.lt_length (hne : str ≠ []) (h : Occurs str file i) : i < file.length := by
  by_contra hge
  rw [Occurs, List.drop_of_length_le (by omega)] at h
  exact hne (List.prefix_nil.mp h)

/-- Every position is printed if and only if none is left over where the loop ends. -/
theorem find_substrings_iff (hne : str ≠ []) (hstr : str.length < 2 ^ 31) :
    main str file = some (listing (occurrences str file)) ↔
      ∀ i, Occurs str file i → (i : ℤ) < i32 (file.length - str.length) := by
  have hbound := i32_sub_le file.length hstr
  rw [main_eq hstr, occurrences]
  generalize i32 (file.length - str.length) = bound at hbound ⊢
  obtain ⟨left, hleft⟩ := Nat.exists_eq_add_of_le (show bound.toNat ≤ file.length by omega)
  rw [hleft, List.range_eq_range', List.range_eq_range', ← List.range'_append_1, Nat.zero_add,
    List.filter_append, listing_append, Option.some.injEq, List.self_eq_append_right,
    listing_eq_nil, List.filter_eq_nil_iff]
  simp only [List.mem_range'_1, decide_eq_true_eq]
  constructor
  · intro hnone i hoccurs
    have hlt := hoccurs.lt_length hne
    by_contra hge
    exact hnone i (by omega) hoccurs
  · intro hall i hi hoccurs
    have := hall i hoccurs
    omega

/-- In a file of less than 2 GiB only the position at its end can be left over. -/
theorem left_over_iff_suffix (hstr : str.length < 2 ^ 31) (hfile : file.length < 2 ^ 31) :
    (∀ i, Occurs str file i → (i : ℤ) < i32 (file.length - str.length)) ↔ ¬ str <:+ file := by
  rw [i32_of_range (by omega) (by omega)]
  constructor
  · rintro hall ⟨front, rfl⟩
    have hoccurs : Occurs str (front ++ str) front.length := by
      simp [Occurs]
    have hlt := hall front.length hoccurs
    rw [List.length_append] at hlt
    omega
  · intro hsuffix i hoccurs
    have hroom := hoccurs.length_le
    rw [List.length_drop] at hroom
    by_contra hge
    by_cases hempty : str = []
    · exact hsuffix (hempty ▸ List.nil_suffix)
    · have hlt := hoccurs.lt_length hempty
      have hlast : file.drop i = str := (hoccurs.eq_of_length (by rw [List.length_drop]; omega)).symm
      exact hsuffix (hlast ▸ List.drop_suffix i file)

/-- `ab` is found twice in `abcab.`. -/
theorem find_substrings_twice :
    main [97, 98] [97, 98, 99, 97, 98, 46] =
      some (listing (occurrences [97, 98] [97, 98, 99, 97, 98, 46])) :=
  (find_substrings_iff (by decide) (by decide)).mpr
    ((left_over_iff_suffix (by decide) (by decide)).mpr (by decide))

/-- `b` is not found in `ab`. -/
theorem find_substrings_last :
    ¬ ∀ str file : Bytes, str ≠ [] → str.length < 2 ^ 31 →
      main str file = some (listing (occurrences str file)) := by
  intro hall
  have htried : ((List.range (i32 (2 - 1)).toNat).filter fun i => Occurs [98] [97, 98] i) = [] := by
    decide
  have hall := hall [98] [97, 98] (by decide) (by decide)
  rw [main_eq (by decide)] at hall
  have hnone := listing_eq_nil.mp ((Option.some.inj hall).symm.trans (congrArg listing htried))
  exact absurd hnone (by decide)

end

end Acos.FindSubstrings
