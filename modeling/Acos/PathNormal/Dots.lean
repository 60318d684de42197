import Acos.PathNormal.Length
import Mathlib.Data.List.Infix

/-! What `normalize_path` does to components that begin with a dot, and to `..` at the root. -/
namespace Acos.PathNormal
open Acos.CString

section Left
variable {path name tail s : Bytes}

/-- No component of the path begins with a dot. -/
def NoDots (path : Bytes) : Prop := ∀ c ∈ components path, c.head? ≠ some dot

theorem components_append_slash (path s : Bytes) :
    components (path ++ slash :: s) = components path ++ components s := by
  unfold components
  rw [List.splitOn_append_cons_self, List.filter_append]

theorem components_of_plain (hplain : slash ∉ name) (hne : name ≠ []) :
    components name = [name] := by
  have hcut : Cut name [] := ⟨hne, hplain, .inl rfl⟩
  simpa [afterSlashes] using components_name hcut

/-- The components of a path that a component is kept in front of. -/
theorem components_kept (hcut : Cut name tail) (hend : tail = [] → s = []) :
    components (name ++ tail.take 1 ++ s) = name :: components s := by
  have hname := components_of_plain hcut.plain hcut.nonempty
  rcases hcut.atEnd.cases with rfl | ⟨path, rfl⟩
  · simp [hend rfl, hname]
  · rw [List.take_succ_cons, List.take_zero, List.append_assoc, List.singleton_append,
      components_append_slash, hname]
    rfl

theorem normalizeRelativePath_noDots_name {fuel : ℕ} (hfuel : path.length < fuel)
    (hhead : path.head? ≠ some slash) (h : normalizeRelativePath fuel path = some (s, false)) :
    NoDots s := by
  induction fuel generalizing path s with
  | zero => omega
  | succ fuel ih =>
    by_cases hempty : path = []
    · have hs : s = [] := by simpa [hempty, normalizeRelativePath] using h.symm
      simp [hs, NoDots]
    · obtain ⟨name, tail, rfl, hcut⟩ := exists_cut hempty hhead
      have hlen := afterSlashes_length_le tail
      have hpos := List.length_pos_iff.mpr hcut.nonempty
      rw [List.length_append] at hfuel
      obtain ⟨rest, flag, hrec, hle, hremoved⟩ := normalizeRelativePath_name
        (show (afterSlashes tail).length < fuel by omega) (afterSlashes_head tail)
      rw [normalizeRelativePath_of_head hempty hhead,
        normalizeFrom_reading _ hcut.plain hcut.atEnd] at h
      split_ifs at h with hdd hd
      · simp at h
      · exact ih (by omega) (afterSlashes_head tail) h
      · rw [hrec, Option.bind_some] at h
        cases flag with
        | true =>
          obtain ⟨hhead', hrem⟩ := hremoved rfl
          have hshort := hrem.length_le
          exact ih (by omega) hhead' h
        | false =>
          have hname := ((reading_cases name).resolve_left (not_not_intro ⟨hd, hdd⟩)).1
          have hs : name ++ tail.take 1 ++ rest = s := by simpa using h
          have hend : tail = [] → rest = [] := by
            rintro rfl
            exact List.eq_nil_of_length_eq_zero (by simpa [afterSlashes] using hle)
          have hrest := ih (by omega) (afterSlashes_head tail) hrec
          unfold NoDots
          rw [← hs, components_kept hcut hend, List.forall_mem_cons]
          exact ⟨hname, hrest⟩

/-- What `normalize_relative_path` leaves when it returns 0. -/
theorem normalizeRelativePath_noDots {fuel : ℕ} (hfuel : path.length < fuel)
    (h : normalizeRelativePath fuel path = some (s, false)) : NoDots s := by
  by_cases hhead : path.head? = some slash
  · obtain ⟨path, rfl⟩ := exists_slash hhead
    rw [List.length_cons] at hfuel
    obtain ⟨fuel, rfl⟩ := Nat.exists_eq_add_of_le' (show 2 ≤ fuel by omega)
    have hafter := afterSlashes_length_le path
    rw [normalizeRelativePath_slash] at h
    obtain ⟨⟨rest, flag⟩, hrun, heq⟩ := Option.map_eq_some_iff.mp h
    obtain ⟨rfl, rfl⟩ : slash :: rest = s ∧ flag = false := by simpa using heq
    have hrest := normalizeRelativePath_noDots_name (by omega) (afterSlashes_head path) hrun
    unfold NoDots
    rwa [components_slash]
  · exact normalizeRelativePath_noDots_name hfuel hhead h

/-- The components of the result that begin with a dot are the `..` that the loop writes and the
`.` of `./`. -/
theorem normalizePath_components {fuel : ℕ} {result : Bytes} (hfuel : path.length + 1 < fuel)
    (h : normalizePath fuel path = some result) :
    ∀ c ∈ components result, ¬ IsName c ∨ c.head? ≠ some dot := by
  obtain ⟨left, hloop, heq⟩ := Option.map_eq_some_iff.mp h
  suffices hleft : ∀ c ∈ components left, ¬ IsName c ∨ c.head? ≠ some dot by
    split_ifs at heq with hlen
    · rw [← heq]
      decide
    · rwa [← heq]
  clear heq h
  induction fuel generalizing path left with
  | zero => omega
  | succ fuel ih =>
    obtain ⟨rest, flag, hrun, hle, hshort⟩ :=
      normalizeRelativePath_length (show path.length < fuel by omega)
    rw [normalizeLoop, hrun, Option.bind_some] at hloop
    cases flag with
    | true =>
      have hlt := hshort rfl
      obtain ⟨after, hrest, hleft⟩ := Option.map_eq_some_iff.mp hloop
      have hcomp : components left = [dot, dot] :: components after := by
        rw [← hleft]
        exact components_append_slash [dot, dot] after
      intro c hc
      rw [hcomp, List.mem_cons] at hc
      rcases hc with rfl | hc
      · exact .inl (by decide)
      · exact ih (show rest.length + 1 < fuel by omega) after hrest c hc
    | false =>
      have hleft : rest = left := by simpa using hloop
      rw [← hleft]
      exact fun c hc =>
        .inr (normalizeRelativePath_noDots (show path.length < fuel by omega) hrun c hc)

end Left

section Names
variable {path name tail s : Bytes}

/-- The path with one slash of each run of slashes. -/
def squeeze : Bytes → Bytes
  | [] => []
  | c :: path => if c = slash ∧ path.head? = some slash then squeeze path else c :: squeeze path

/-- A result that misses nothing of the path but repeated slashes; the `.` of `./`, which stands
for the empty path, is not a name. -/
structure OnlySlashes (path result : Bytes) : Prop where
  squeezed : path ≠ [] → result = squeeze path
  names : (components result).filter (· ≠ [dot]) = components path

theorem squeeze_slash (path : Bytes) :
    squeeze (slash :: path) = slash :: squeeze (afterSlashes path) := by
  induction path with
  | nil => rfl
  | cons c path ih =>
    by_cases hc : c = slash
    · subst hc
      rw [afterSlashes_slash, ← ih]
      exact if_pos ⟨rfl, rfl⟩
    · have hhead : (c :: path).head? ≠ some slash := by simpa using hc
      rw [afterSlashes_of_head hhead]
      exact if_neg fun h => hhead h.2

theorem squeeze_name (hplain : slash ∉ name) (h : AtEnd tail) :
    squeeze (name ++ tail) = name ++ tail.take 1 ++ squeeze (afterSlashes tail) := by
  induction name with
  | nil =>
    rcases h.cases with rfl | ⟨path, rfl⟩
    · rfl
    · rw [List.nil_append, squeeze_slash, afterSlashes_slash]
      rfl
  | cons c name ih =>
    rw [List.mem_cons, not_or] at hplain
    have hne : ¬ (c = slash ∧ (name ++ tail).head? = some slash) := fun h => hplain.1 h.1.symm
    rw [List.cons_append, squeeze, if_neg hne, ih hplain.2]
    rfl

theorem squeeze_ne_nil (hne : path ≠ []) : squeeze path ≠ [] := by
  induction path with
  | nil => exact absurd rfl hne
  | cons c path ih =>
    rw [squeeze]
    split_ifs with hmore
    · refine ih ?_
      rintro rfl
      cases hmore.2
    · exact List.cons_ne_nil _ _

theorem components_squeeze (path : Bytes) : components (squeeze path) = components path := by
  induction hlen : path.length using Nat.strong_induction_on generalizing path with
  | _ n ih =>
    by_cases hempty : path = []
    · rw [hempty]
      rfl
    · by_cases hhead : path.head? = some slash
      · obtain ⟨path, rfl⟩ := exists_slash hhead
        have hle := afterSlashes_length_le path
        rw [List.length_cons] at hlen
        rw [squeeze_slash, components_slash, components_slash, ← components_afterSlashes path]
        exact ih _ (by omega) _ rfl
      · obtain ⟨name, tail, rfl, hcut⟩ := exists_cut hempty hhead
        have hle := afterSlashes_length_le tail
        have hpos := List.length_pos_iff.mpr hcut.nonempty
        have hend : tail = [] → squeeze (afterSlashes tail) = [] := by
          rintro rfl
          rfl
        rw [List.length_append] at hlen
        rw [squeeze_name hcut.plain hcut.atEnd, components_kept hcut hend, components_name hcut,
          ih _ (by omega) _ rfl]

theorem normalizeRelativePath_squeeze {fuel : ℕ} (hfuel : path.length < fuel)
    (hdots : NoDots path) (hhead : path.head? ≠ some slash) :
    normalizeRelativePath fuel path = some (squeeze path, false) := by
  induction fuel generalizing path with
  | zero => omega
  | succ fuel ih =>
    by_cases hempty : path = []
    · rw [hempty]
      rfl
    · obtain ⟨name, tail, rfl, hcut⟩ := exists_cut hempty hhead
      have hlen := afterSlashes_length_le tail
      have hpos := List.length_pos_iff.mpr hcut.nonempty
      have hcomp := components_name hcut
      rw [List.length_append] at hfuel
      unfold NoDots at hdots
      rw [hcomp, List.forall_mem_cons] at hdots
      have hrec := ih (by omega) hdots.2 (afterSlashes_head tail)
      have hkept := reading_of_head hdots.1
      have hne : name ≠ [dot, dot] ∧ name ≠ [dot] := by
        constructor <;> rintro rfl <;> exact hdots.1 rfl
      rw [normalizeRelativePath_of_head hempty hhead,
        normalizeFrom_reading _ hcut.plain hcut.atEnd, hkept, if_neg hne.1, if_neg hne.2, hrec,
        squeeze_name hcut.plain hcut.atEnd]
      rfl

theorem normalizePath_squeeze {fuel : ℕ} (hfuel : path.length + 1 < fuel) (hdots : NoDots path)
    (hne : path ≠ []) : normalizePath fuel path = some (squeeze path) := by
  obtain ⟨fuel, rfl⟩ := Nat.exists_eq_add_of_le' (show 3 ≤ fuel by
    have hpos := List.length_pos_iff.mpr hne
    omega)
  have hrun : normalizeRelativePath (fuel + 2) path = some (squeeze path, false) := by
    by_cases hhead : path.head? = some slash
    · obtain ⟨path, rfl⟩ := exists_slash hhead
      have hafter := afterSlashes_length_le path
      have hdots' : NoDots (afterSlashes path) := by
        unfold NoDots
        rw [components_afterSlashes, ← components_slash]
        exact hdots
      rw [List.length_cons] at hfuel
      rw [normalizeRelativePath_slash, normalizeRelativePath_squeeze (by omega) hdots'
        (afterSlashes_head path), squeeze_slash]
      rfl
    · exact normalizeRelativePath_squeeze (by omega) hdots hhead
  rw [normalizePath, normalizeLoop, hrun]
  simp [squeeze_ne_nil hne]

/-- If all components are names, `normalize_path` keeps them exactly when none of them begins
with a dot. -/
theorem normalize_path_names_iff {fuel : ℕ} (hnames : ∀ c ∈ components path, IsName c)
    (hfuel : path.length + 1 < fuel) :
    ∃ result, normalizePath fuel path = some result ∧
      (OnlySlashes path result ↔ ∀ c ∈ components path, c.head? ≠ some dot) := by
  obtain ⟨result, hrun⟩ := normalizePath_total hfuel
  refine ⟨result, hrun, fun h c hc => ?_, fun hdots => ?_⟩
  · have hmem := hc
    rw [← h.names] at hmem
    have hcase := normalizePath_components hfuel hrun c (List.mem_of_mem_filter hmem)
    exact hcase.resolve_left (not_not_intro (hnames c hc))
  · by_cases hempty : path = []
    · have hres : [dot, slash] = result := by
        subst hempty
        obtain ⟨fuel, rfl⟩ := Nat.exists_eq_add_of_le' hfuel
        simpa [normalizePath, normalizeLoop, normalizeRelativePath] using hrun
      rw [hempty, ← hres]
      exact ⟨fun hne => absurd rfl hne, by decide⟩
    · rw [normalizePath_squeeze hfuel hdots hempty, Option.some_inj] at hrun
      refine ⟨fun _ => hrun.symm, ?_⟩
      rw [← hrun, components_squeeze]
      apply List.filter_eq_self.mpr
      intro c hc
      have hname := (hnames c hc).1
      simpa using hname

/-- `a//...`. -/
def nameWithDots : Bytes := [97, slash, slash, dot, dot, dot]

theorem normalize_path_names_dots :
    ∃ result, normalizePath 8 nameWithDots = some result ∧
      (OnlySlashes nameWithDots result ↔ ∀ c ∈ components nameWithDots, c.head? ≠ some dot) :=
  normalize_path_names_iff (by decide) (by decide)

/-- `.git`. -/
def dotGit : Bytes := [dot, 103, 105, 116]

theorem normalize_path_dotGit :
    (∀ c ∈ components dotGit, IsName c) ∧ normalizePath 6 dotGit = some [dot, slash] ∧
      ¬ OnlySlashes dotGit [dot, slash] := by
  refine ⟨by decide, by decide, fun h => ?_⟩
  exact absurd h.names (by decide)

end Names

end Acos.PathNormal
