import Acos.PathNormal.Reading
import Mathlib.Data.List.Basic

/-! `normalize_relative_path` ends and does not make its string longer. When it returns 1, it has
removed a `..` and, unless that was the end of a path of `..` only, one more character. -/
namespace Acos.PathNormal
open Acos.CString

/-- `../` as often as `k` says, and `..`. -/
def ups : ℕ → Bytes
  | 0 => [dot, dot]
  | k + 1 => dotDotSlash ++ ups k

/-- Nothing but `..` with single slashes between them, perhaps after a slash. -/
def OnlyUps (path : Bytes) : Prop := ∃ k, path = ups k ∨ path = slash :: ups k

/-- What is removed from a path that starts with a component, by a call that returns 1. -/
inductive Removed : Bytes → Bytes → Prop
  | last : Removed [dot, dot] []
  | first (rest : Bytes) : Removed (dotDotSlash ++ rest) rest
  | more {path rest : Bytes} : rest.length + 3 ≤ path.length → ¬ OnlyUps path →
      (rest.length + 3 = path.length → rest = []) → Removed path rest

section Ups
variable {path rest name tail : Bytes}

theorem ups_name (k : ℕ) : ∃ tail, ups k = [dot, dot] ++ tail ∧ AtEnd tail ∧
    (tail = [] ∨ ∃ k, tail = slash :: ups k) := by
  cases k with
  | zero => exact ⟨[], rfl, .inl rfl, .inl rfl⟩
  | succ k => exact ⟨slash :: ups k, rfl, .inr rfl, .inr ⟨k, rfl⟩⟩

theorem ups_head (k : ℕ) : (ups k).head? = some dot := by
  cases k <;> rfl

/-- The first component of a path of `..` only. -/
theorem OnlyUps.component (h : OnlyUps (name ++ tail)) (hcut : Cut name tail) :
    name = [dot, dot] ∧ (tail = [] ∨ ∃ k, tail = slash :: ups k) := by
  have hread := readName_append hcut.plain hcut.atEnd
  obtain ⟨k, heq | heq⟩ := h
  · obtain ⟨tail', hups, hend, htail⟩ := ups_name k
    rw [heq, hups, readName_append (by decide) hend] at hread
    rw [hups, ← hread] at heq
    rw [List.append_cancel_left heq]
    exact ⟨hread.symm, htail⟩
  · rw [heq] at hread
    exact absurd hread.symm hcut.nonempty

/-- The slash that is kept after a component and what follows the slashes. -/
theorem kept_length_le (h : AtEnd tail) :
    (tail.take 1).length + (afterSlashes tail).length ≤ tail.length := by
  rcases h.cases with rfl | ⟨path, rfl⟩
  · rfl
  · have hle := afterSlashes_length_le path
    rw [afterSlashes_slash]
    simp only [List.take_succ_cons, List.take_zero, List.length_cons, List.length_nil]
    omega

theorem afterSlashes_length_lt (h : AtEnd tail) (hne : tail ≠ []) :
    (afterSlashes tail).length < tail.length := by
  have hle := kept_length_le h
  have hpos := List.length_pos_iff.mpr hne
  rw [List.length_take] at hle
  omega

theorem reading_dotDot (h : reading name = [dot, dot]) : name = [dot, dot] ∨ 3 ≤ name.length := by
  have hlen := reading_length_le name
  rw [h] at hlen
  simp only [List.length_cons, List.length_nil] at hlen
  by_cases hlong : 3 ≤ name.length
  · exact .inr hlong
  · left
    obtain ⟨c, d, rfl⟩ := List.length_eq_two.mp (show name.length = 2 by omega)
    unfold reading at h
    split_ifs at h with hdd
    · simpa [strncmpZero] using hdd
    · cases h
    · exact h

theorem afterSlashes_suffix (path : Bytes) : afterSlashes path <:+ path :=
  List.dropWhile_suffix _

theorem Removed.length_le (h : Removed path rest) : rest.length + 2 ≤ path.length := by
  cases h with
  | last => simp
  | first => simp [dotDotSlash]
  | more hlen => omega

theorem removed_dotDot (hcut : Cut name tail) (hreading : reading name = [dot, dot]) :
    Removed (name ++ tail) (afterSlashes tail) := by
  rcases reading_dotDot hreading with hname | hlong
  · subst hname
    rcases hcut.atEnd.cases with rfl | ⟨path, rfl⟩
    · exact .last
    · have hsuffix := afterSlashes_suffix path
      rw [afterSlashes_slash]
      by_cases hsingle : afterSlashes path = path
      · rw [hsingle]
        exact .first path
      · have hshort : (afterSlashes path).length < path.length := by
          have hle := hsuffix.length_le
          have hne := mt hsuffix.eq_of_length hsingle
          omega
        refine .more ?_ ?_ ?_
        · simp only [List.length_append, List.length_cons, List.length_nil]
          omega
        · intro hups
          obtain hnil | ⟨k, heq⟩ := (hups.component hcut).2
          · cases hnil
          · have htail : path = ups k := by simpa using heq
            apply hsingle
            apply afterSlashes_of_head
            rw [htail, ups_head]
            decide
        · simp only [List.length_append, List.length_cons, List.length_nil]
          omega
  · have hname : name ≠ [dot, dot] := by
      rintro rfl
      simp at hlong
    have hle := afterSlashes_length_le tail
    refine .more ?_ (fun hups => hname (hups.component hcut).1) ?_
    · rw [List.length_append]
      omega
    · intro heq
      rw [List.length_append] at heq
      have htail : tail = [] := by
        by_contra hne
        have hlt := afterSlashes_length_lt hcut.atEnd hne
        omega
      rw [htail]
      rfl

/-- A component that is not `..` in front of a path of which a `..` is removed. -/
theorem removed_name (hcut : Cut name tail) (hname : name ≠ [dot, dot])
    (hlen : rest.length + 2 ≤ (afterSlashes tail).length) : Removed (name ++ tail) rest := by
  have htail : tail ≠ [] := by
    rintro rfl
    simp [afterSlashes] at hlen
  have hafter := afterSlashes_length_lt hcut.atEnd htail
  have hpos := List.length_pos_iff.mpr hcut.nonempty
  refine .more ?_ (fun hups => hname (hups.component hcut).1) ?_
  · rw [List.length_append]
    omega
  · rw [List.length_append]
    omega

end Ups

section Total
variable {path : Bytes}

theorem normalizeRelativePath_name {fuel : ℕ} (hfuel : path.length < fuel)
    (hhead : path.head? ≠ some slash) :
    ∃ rest flag, normalizeRelativePath fuel path = some (rest, flag) ∧
      rest.length ≤ path.length ∧ (flag = true → rest.head? ≠ some slash ∧ Removed path rest) := by
  induction fuel generalizing path with
  | zero => omega
  | succ fuel ih =>
    by_cases hempty : path = []
    · exact ⟨[], false, by rw [hempty]; rfl, Nat.zero_le _, nofun⟩
    · obtain ⟨name, tail, rfl, hcut⟩ := exists_cut hempty hhead
      have hlen := afterSlashes_length_le tail
      have hpos := List.length_pos_iff.mpr hcut.nonempty
      rw [List.length_append] at hfuel
      obtain ⟨s, flag, hrec, hle, hremoved⟩ := ih (by omega) (afterSlashes_head tail)
      rw [normalizeRelativePath_of_head hempty hhead,
        normalizeFrom_reading _ hcut.plain hcut.atEnd]
      by_cases hdd : reading name = [dot, dot]
      · exact ⟨_, _, if_pos hdd, by rw [List.length_append]; omega,
          fun _ => ⟨afterSlashes_head tail, removed_dotDot hcut hdd⟩⟩
      · have hname : name ≠ [dot, dot] := by
          rintro rfl
          exact hdd rfl
        rw [if_neg hdd, hrec]
        by_cases hd : reading name = [dot]
        · refine ⟨s, flag, if_pos hd, by rw [List.length_append]; omega, fun hflag => ?_⟩
          obtain ⟨hhead', hrem⟩ := hremoved hflag
          exact ⟨hhead', removed_name hcut hname hrem.length_le⟩
        · rw [if_neg hd, Option.bind_some]
          cases flag with
          | true =>
            obtain ⟨hhead', hrem⟩ := hremoved rfl
            have hshort := hrem.length_le
            obtain ⟨s', flag', hagain, hle', hremoved'⟩ := ih (by omega) hhead'
            refine ⟨s', flag', hagain, by rw [List.length_append]; omega, fun hflag => ?_⟩
            obtain ⟨hhead'', hrem'⟩ := hremoved' hflag
            have hshort' := hrem'.length_le
            exact ⟨hhead'', removed_name hcut hname (by omega)⟩
          | false =>
            have hkept := kept_length_le hcut.atEnd
            refine ⟨name ++ tail.take 1 ++ s, false, rfl, ?_, nofun⟩
            simp only [List.length_append]
            omega

theorem normalizeRelativePath_length {fuel : ℕ} (hfuel : path.length < fuel) :
    ∃ rest flag, normalizeRelativePath fuel path = some (rest, flag) ∧
      rest.length ≤ path.length ∧ (flag = true → rest.length < path.length) := by
  by_cases hhead : path.head? = some slash
  · obtain ⟨path, rfl⟩ := exists_slash hhead
    rw [List.length_cons] at hfuel
    obtain ⟨fuel, rfl⟩ := Nat.exists_eq_add_of_le' (show 2 ≤ fuel by omega)
    have hafter := afterSlashes_length_le path
    obtain ⟨s, flag, hrun, hle, hremoved⟩ := normalizeRelativePath_name
      (show (afterSlashes path).length < fuel + 2 by omega) (afterSlashes_head path)
    refine ⟨slash :: s, flag, by rw [normalizeRelativePath_slash, hrun]; rfl, ?_, ?_⟩
    · simp only [List.length_cons]
      omega
    · intro hflag
      have hshort := (hremoved hflag).2.length_le
      simp only [List.length_cons]
      omega
  · obtain ⟨rest, flag, hrun, hle, hremoved⟩ := normalizeRelativePath_name hfuel hhead
    refine ⟨rest, flag, hrun, hle, fun hflag => ?_⟩
    have hshort := (hremoved hflag).2.length_le
    omega

theorem normalizePath_total {fuel : ℕ} (hfuel : path.length + 1 < fuel) :
    ∃ result, normalizePath fuel path = some result := by
  suffices hloop : ∃ result, normalizeLoop fuel path = some result by
    obtain ⟨result, hrun⟩ := hloop
    exact ⟨_, by rw [normalizePath, hrun, Option.map_some]⟩
  induction fuel generalizing path with
  | zero => omega
  | succ fuel ih =>
    obtain ⟨rest, flag, hrun, hle, hshort⟩ :=
      normalizeRelativePath_length (show path.length < fuel by omega)
    rw [normalizeLoop, hrun, Option.bind_some]
    cases flag with
    | true =>
      have hlt := hshort rfl
      obtain ⟨result, hrest⟩ := ih (show rest.length + 1 < fuel by omega)
      exact ⟨dotDotSlash ++ result, by simp [hrest]⟩
    | false => exact ⟨rest, rfl⟩

end Total

section Growth
variable {path rest : Bytes}

theorem onlyUps_slash : OnlyUps (slash :: path) ↔ ∃ k, path = ups k := by
  constructor
  · rintro ⟨k, heq | heq⟩
    · have hhead := ups_head k
      rw [← heq, List.head?_cons] at hhead
      exact absurd hhead (by decide)
    · exact ⟨k, by simpa using heq⟩
  · rintro ⟨k, rfl⟩
    exact ⟨k, .inr rfl⟩

theorem onlyUps_of_head (hhead : path.head? ≠ some slash) : OnlyUps path ↔ ∃ k, path = ups k := by
  constructor
  · rintro ⟨k, heq | rfl⟩
    · exact ⟨k, heq⟩
    · exact absurd rfl hhead
  · rintro ⟨k, rfl⟩
    exact ⟨k, .inl rfl⟩

theorem ups_ne_nil (k : ℕ) : ups k ≠ [] := by
  cases k <;> exact List.cons_ne_nil _ _

theorem not_onlyUps_nil : ¬ OnlyUps [] := by
  rintro ⟨k, heq | heq⟩
  · exact ups_ne_nil k heq.symm
  · cases heq

theorem ups_surplus (k fuel : ℕ) :
    ∃ rest, normalizeRelativePath (fuel + 1) (ups k) = some (rest, true) := by
  obtain ⟨tail, heq, hend, _⟩ := ups_name k
  have hhead : (ups k).head? ≠ some slash := by
    rw [ups_head]
    decide
  rw [normalizeRelativePath_of_head (ups_ne_nil k) hhead, heq,
    normalizeFrom_reading _ (by decide) hend]
  exact ⟨_, if_pos rfl⟩

/-- A path of `..` only loses its first one. -/
theorem OnlyUps.surplus {fuel : ℕ} (h : OnlyUps path) (hfuel : path.length < fuel) :
    ∃ rest, normalizeRelativePath fuel path = some (rest, true) := by
  obtain ⟨k, rfl | rfl⟩ := h
  · obtain ⟨fuel, rfl⟩ := Nat.exists_eq_add_of_le' (Nat.zero_lt_of_lt hfuel)
    exact ups_surplus k fuel
  · have hpos := List.length_pos_iff.mpr (ups_ne_nil k)
    rw [List.length_cons] at hfuel
    obtain ⟨fuel, rfl⟩ := Nat.exists_eq_add_of_le' (show 2 ≤ fuel by omega)
    obtain ⟨rest, hrun⟩ := ups_surplus k (fuel + 1)
    have hafter : afterSlashes (ups k) = ups k :=
      afterSlashes_of_head (by rw [ups_head]; decide)
    exact ⟨slash :: rest, by rw [normalizeRelativePath_slash, hafter, hrun]; rfl⟩

theorem ups_dotDotSlash (rest : Bytes) :
    (∃ k, dotDotSlash ++ rest = ups k) ↔ ∃ k, rest = ups k := by
  constructor
  · rintro ⟨k, heq⟩
    cases k with
    | zero => simp [dotDotSlash, ups] at heq
    | succ k => exact ⟨k, List.append_cancel_left heq⟩
  · rintro ⟨k, rfl⟩
    exact ⟨k + 1, rfl⟩

/-- A path of `..` only stays one until its last `..` is removed; then `../` is one character more
than was removed. -/
theorem Removed.growth (h : Removed path rest) :
    (path = [dot, dot] ∧ rest = []) ∨
      rest.length + 3 ≤ path.length ∧
        ((∃ k, path = ups k) ↔ rest.length + 3 = path.length ∧ ∃ k, rest = ups k) := by
  cases h with
  | last => exact .inl ⟨rfl, rfl⟩
  | first =>
    have hlen : (dotDotSlash ++ rest).length = rest.length + 3 := by
      rw [List.length_append]
      exact Nat.add_comm 3 _
    rw [hlen, ups_dotDotSlash]
    exact .inr ⟨Nat.le_refl _, by simp⟩
  | more hlen hups hrest =>
    refine .inr ⟨hlen, fun ⟨k, heq⟩ => absurd ⟨k, .inl heq⟩ hups, ?_⟩
    rintro ⟨heq, k, hk⟩
    exact absurd (hk.symm.trans (hrest heq)) (ups_ne_nil k)

theorem surplus_growth {fuel : ℕ} (hfuel : path.length < fuel)
    (hrun : normalizeRelativePath fuel path = some (rest, true)) :
    (rest.length + 2 = path.length ∧ OnlyUps path ∧ ¬ OnlyUps rest) ∨
      rest.length + 3 ≤ path.length ∧
        (OnlyUps path ↔ rest.length + 3 = path.length ∧ OnlyUps rest) := by
  by_cases hhead : path.head? = some slash
  · obtain ⟨path, rfl⟩ := exists_slash hhead
    have hafter := afterSlashes_suffix path
    have hle := hafter.length_le
    rw [List.length_cons] at hfuel
    obtain ⟨fuel, rfl⟩ := Nat.exists_eq_add_of_le' (show 2 ≤ fuel by omega)
    obtain ⟨s, flag, hrun', _, hremoved⟩ := normalizeRelativePath_name
      (show (afterSlashes path).length < fuel + 2 by omega) (afterSlashes_head path)
    rw [normalizeRelativePath_slash, hrun'] at hrun
    obtain ⟨rfl, rfl⟩ : slash :: s = rest ∧ flag = true := by simpa using hrun
    have hups : ∀ k, path = ups k → afterSlashes path = path := by
      rintro k rfl
      exact afterSlashes_of_head (by rw [ups_head]; decide)
    simp only [onlyUps_slash, List.length_cons]
    obtain ⟨_, hrem⟩ := hremoved rfl
    by_cases hsingle : afterSlashes path = path
    · rw [hsingle] at hrem
      refine hrem.growth.imp ?_ ?_
      · rintro ⟨rfl, rfl⟩
        exact ⟨rfl, ⟨0, rfl⟩, fun ⟨k, heq⟩ => ups_ne_nil k heq.symm⟩
      · rintro ⟨hlen, hiff⟩
        rw [hiff]
        exact ⟨by omega, by rw [Nat.add_right_comm, Nat.add_right_cancel_iff]⟩
    · have hshort : (afterSlashes path).length < path.length := by
        have hne := mt hafter.eq_of_length hsingle
        omega
      have hlen := hrem.length_le
      refine .inr ⟨by omega, fun ⟨k, heq⟩ => absurd (hups k heq) hsingle, ?_⟩
      rintro ⟨heq, k, hk⟩
      rcases hrem.growth with ⟨_, hnil⟩ | ⟨hlong, _⟩
      · exact absurd (hk.symm.trans hnil) (ups_ne_nil k)
      · omega
  · obtain ⟨s, flag, hrun', _, hremoved⟩ := normalizeRelativePath_name hfuel hhead
    obtain ⟨rfl, rfl⟩ : rest = s ∧ true = flag := by simpa [hrun] using hrun'
    obtain ⟨hhead', hrem⟩ := hremoved rfl
    rcases hrem.growth with ⟨rfl, rfl⟩ | hlong
    · exact .inl ⟨rfl, ⟨0, .inl rfl⟩, not_onlyUps_nil⟩
    · rw [onlyUps_of_head hhead, onlyUps_of_head hhead']
      exact .inr hlong

end Growth

end Acos.PathNormal
