import Acos.PathNormal.Correct

/-! `normalize_relative_path` compares two characters with `..` and one with `.` at the start of a
component, so that it reads every component that begins with a dot as one of the two. -/
namespace Acos.PathNormal
open Acos.CString

/-- What a component is taken for. -/
def reading (component : Bytes) : Bytes :=
  if strncmpZero component [dot, dot] 2 then [dot, dot]
  else if strncmpZero component [dot] 1 then [dot]
  else component

/-- The path with every component replaced by what it is taken for. -/
def readAs (path : Bytes) : Bytes :=
  List.intercalate [slash] ((path.splitOn slash).map reading)

section Component
variable {component : Bytes}

@[simp] theorem reading_nil : reading [] = [] := rfl

theorem strncmpZero_dot (component : Bytes) :
    strncmpZero component [dot] 1 ↔ component.head? = some dot := by
  cases component with
  | nil => simp [strncmpZero]
  | cons c component => simp [strncmpZero]

theorem head_of_strncmpZero {str word : Bytes} {c : UInt8} {n : ℕ}
    (h : strncmpZero str (c :: word) (n + 1)) : str.head? = some c := by
  cases str with
  | nil => simp [strncmpZero] at h
  | cons d str =>
    simp only [strncmpZero, Bool.and_eq_true, decide_eq_true_eq] at h
    rw [h.1, List.head?_cons]

theorem reading_of_head (h : component.head? ≠ some dot) : reading component = component := by
  have hdd : ¬ strncmpZero component [dot, dot] 2 := fun heq => h (head_of_strncmpZero heq)
  rw [reading, if_neg hdd, if_neg (mt (strncmpZero_dot component).mp h)]

/-- A component that begins with a dot is read as `.` or `..`, any other as itself. -/
theorem reading_cases (component : Bytes) :
    ¬ IsName (reading component) ∨
      component.head? ≠ some dot ∧ reading component = component := by
  by_cases hhead : component.head? = some dot
  · left
    have hd := (strncmpZero_dot component).mpr hhead
    unfold reading
    split_ifs <;> simp [IsName]
  · exact .inr ⟨hhead, reading_of_head hhead⟩

theorem reading_eq_nil : reading component = [] ↔ component = [] := by
  unfold reading
  split_ifs with hdd hd
  · simp only [false_iff]
    rintro rfl
    simp [strncmpZero] at hdd
  · simp only [false_iff]
    rintro rfl
    simp [strncmpZero] at hd
  · rfl

theorem reading_reading (component : Bytes) : reading (reading component) = reading component := by
  rcases reading_cases component with hnot | ⟨_, heq⟩
  · have hcase : reading component = [dot] ∨ reading component = [dot, dot] := by
      by_contra hne
      exact hnot (not_or.mp hne)
    rcases hcase with heq | heq <;> rw [heq] <;> rfl
  · rw [heq, heq]

theorem slash_notMem_reading (h : slash ∉ component) : slash ∉ reading component := by
  unfold reading
  split_ifs
  · decide
  · decide
  · exact h

theorem reading_length_le (component : Bytes) :
    (reading component).length ≤ component.length := by
  unfold reading
  split_ifs with hdd hd
  · rcases component with _ | ⟨c, _ | ⟨d, component⟩⟩
    · simp [strncmpZero] at hdd
    · simp [strncmpZero] at hdd
    · simp
  · cases component with
    | nil => simp [strncmpZero] at hd
    | cons c component => simp
  · rfl

end Component

section Path
variable {path name tail : Bytes}

theorem slash_notMem_splitOn {piece : Bytes} (h : piece ∈ path.splitOn slash) :
    slash ∉ piece := by
  induction path generalizing piece with
  | nil => simp_all
  | cons c path ih =>
    rw [List.splitOn_cons_eq_if_modifyHead] at h
    split_ifs at h with hc
    · rcases List.mem_cons.mp h with rfl | hmem
      · exact List.not_mem_nil
      · exact ih hmem
    · obtain ⟨first, pieces, heq⟩ :=
        List.exists_cons_of_ne_nil (List.splitOn_ne_nil slash path)
      rw [heq] at h ih
      rcases List.mem_cons.mp h with rfl | hmem
      · have hne : slash ≠ c := fun hs => hc (by simp [hs])
        rw [List.mem_cons, not_or]
        exact ⟨hne, ih List.mem_cons_self⟩
      · exact ih (List.mem_cons_of_mem _ hmem)

/-- The pieces between the slashes of the path as it is read. -/
theorem readAs_splitOn (path : Bytes) :
    (readAs path).splitOn slash = (path.splitOn slash).map reading := by
  unfold readAs
  apply List.splitOn_intercalate
  · intro piece hmem
    obtain ⟨component, hcomp, rfl⟩ := List.mem_map.mp hmem
    exact slash_notMem_reading (slash_notMem_splitOn hcomp)
  · simp [List.splitOn_ne_nil]

theorem components_readAs (path : Bytes) :
    components (readAs path) = (components path).map reading := by
  unfold components
  rw [readAs_splitOn, List.filter_map]
  congr 1
  exact List.filter_congr fun component _ => by simp [reading_eq_nil]

theorem readAs_append (hplain : slash ∉ name) (path : Bytes) :
    readAs (name ++ slash :: path) = reading name ++ slash :: readAs path := by
  unfold readAs
  rw [List.splitOn_append_cons_self, List.splitOn_eq_singleton hplain, List.singleton_append,
    List.map_cons, List.intercalate_cons_of_ne_nil (by simp [List.splitOn_ne_nil])]
  simp

@[simp] theorem readAs_nil : readAs [] = [] := rfl

@[simp] theorem readAs_slash (path : Bytes) : readAs (slash :: path) = slash :: readAs path :=
  readAs_append List.not_mem_nil path

theorem readAs_name (hplain : slash ∉ name) (h : AtEnd tail) :
    readAs (name ++ tail) = reading name ++ readAs tail := by
  rcases h.cases with rfl | ⟨path, rfl⟩
  · simp [readAs, List.splitOn_eq_singleton hplain]
  · rw [readAs_append hplain, readAs_slash]

/-- The path goes on with a slash exactly when it does as it is read. -/
theorem AtEnd.readAs (h : AtEnd tail) :
    AtEnd (readAs tail) ∧ (PathNormal.readAs tail).take 1 = tail.take 1 := by
  rcases h.cases with rfl | ⟨path, rfl⟩
  · exact ⟨.inl rfl, rfl⟩
  · rw [readAs_slash]
    exact ⟨.inr rfl, rfl⟩

theorem intercalate_reading_length_le (pieces : List Bytes) :
    (List.intercalate [slash] (pieces.map reading)).length ≤
      (List.intercalate [slash] pieces).length := by
  induction pieces with
  | nil => rfl
  | cons piece pieces ih =>
    have hpiece := reading_length_le piece
    by_cases hlast : pieces = []
    · simpa [hlast] using hpiece
    · rw [List.map_cons, List.intercalate_cons_of_ne_nil (by simpa using hlast),
        List.intercalate_cons_of_ne_nil hlast]
      simp only [List.length_append]
      omega

theorem readAs_length_le (path : Bytes) : (readAs path).length ≤ path.length := by
  have hle := intercalate_reading_length_le (path.splitOn slash)
  rwa [List.intercalate_splitOn] at hle

theorem namesPlain_readAs (path : Bytes) : NamesPlain (readAs path) := by
  intro c hmem hname
  rw [components_readAs] at hmem
  obtain ⟨component, _, rfl⟩ := List.mem_map.mp hmem
  rcases reading_cases component with hnot | ⟨hhead, heq⟩
  · exact absurd hname hnot
  · rwa [heq]

theorem afterSlashes_of_head (h : path.head? ≠ some slash) : afterSlashes path = path := by
  cases path with
  | nil => rfl
  | cons c path =>
    have hc : c ≠ slash := by simpa using h
    simp [afterSlashes, hc]

/-- A path that starts with a name does so as it is read. -/
theorem readAs_starts (hne : path ≠ []) (h : path.head? ≠ some slash) :
    ∃ c rest, readAs path = c :: rest ∧ c ≠ slash := by
  obtain ⟨name, tail, rfl, hcut⟩ := exists_cut hne h
  obtain ⟨c, rest, heq⟩ :=
    List.exists_cons_of_ne_nil (mt reading_eq_nil.mp hcut.nonempty)
  refine ⟨c, rest ++ readAs tail, ?_, ?_⟩
  · rw [readAs_name hcut.plain hcut.atEnd, heq, List.cons_append]
  · rintro rfl
    exact slash_notMem_reading hcut.plain (by simp [heq])

theorem readAs_head (h : path.head? ≠ some slash) : (readAs path).head? ≠ some slash := by
  by_cases hempty : path = []
  · rwa [hempty, readAs_nil, ← hempty]
  · obtain ⟨c, rest, heq, hc⟩ := readAs_starts hempty h
    simpa [heq] using hc

theorem readAs_afterSlashes (path : Bytes) :
    readAs (afterSlashes path) = afterSlashes (readAs path) := by
  induction path with
  | nil => rfl
  | cons c path ih =>
    by_cases hc : c = slash
    · subst hc
      simpa [afterSlashes] using ih
    · have hhead : (c :: path).head? ≠ some slash := by simpa using hc
      rw [afterSlashes_of_head hhead, afterSlashes_of_head (readAs_head hhead)]

end Path

section Run
variable {path name tail : Bytes}

/-- What is left of a path as it is read, next to what is left of the path: the string that
stays to be normalised is read, the normalised one has only components that are read as they
are. -/
def readRest : Bytes × Bool → Bytes × Bool
  | (rest, true) => (readAs rest, true)
  | (rest, false) => (rest, false)

/-- The comparison with dots does not go on into the slashes after a component. -/
theorem strncmpZero_append {word : Bytes} {n : ℕ} (hword : slash ∉ word) (h : AtEnd tail) :
    strncmpZero (name ++ tail) word n = strncmpZero name word n := by
  induction n generalizing name word with
  | zero => simp [strncmpZero]
  | succ n ih =>
    cases word with
    | nil => cases name ++ tail <;> cases name <;> simp [strncmpZero]
    | cons d word =>
      rw [List.mem_cons, not_or] at hword
      cases name with
      | nil =>
        rcases h.cases with rfl | ⟨path, rfl⟩
        · rfl
        · simp [strncmpZero, hword.1]
      | cons c name =>
        simp only [List.cons_append, strncmpZero, ih hword.2]

/-- `normalize_relative_path` at a name, as the name is read. -/
theorem normalizeFrom_reading (recur : Bytes → Option (Bytes × Bool)) (hplain : slash ∉ name)
    (htail : AtEnd tail) :
    normalizeFrom recur (name ++ tail) =
      if reading name = [dot, dot] then some (afterSlashes tail, true)
      else if reading name = [dot] then recur (afterSlashes tail)
      else (recur (afterSlashes tail)).bind fun (s, flag) =>
        if flag then recur s else some (name ++ tail.take 1 ++ s, false) := by
  have hkept := atEnd_kept htail
  have hdot : slash ≠ dot := by decide
  rw [normalizeFrom_name recur hplain htail, strncmpZero_append (by simp [hdot]) hkept,
    strncmpZero_append (by simp [hdot]) hkept]
  unfold reading
  by_cases hdd : strncmpZero name [dot, dot] 2
  · simp only [hdd, if_true]
  · by_cases hd : strncmpZero name [dot] 1
    · simp [hdd, hd]
    · have hhead : name.head? ≠ some dot := mt (strncmpZero_dot name).mpr hd
      have hname : name ≠ [dot, dot] ∧ name ≠ [dot] := by
        constructor <;> rintro rfl <;> simp at hhead
      simp [hdd, hd, hname]

theorem normalizeFrom_readAs {recur : Bytes → Option (Bytes × Bool)}
    (hrecur : ∀ path, recur (readAs path) = (recur path).map readRest)
    (hhead : path.head? ≠ some slash) :
    normalizeFrom recur (readAs path) = (normalizeFrom recur path).map readRest := by
  have hsplit : ∃ name tail, path = name ++ tail ∧ slash ∉ name ∧ AtEnd tail := by
    by_cases hempty : path = []
    · exact ⟨[], [], hempty, List.not_mem_nil, .inl rfl⟩
    · obtain ⟨name, tail, heq, hcut⟩ := exists_cut hempty hhead
      exact ⟨name, tail, heq, hcut.plain, hcut.atEnd⟩
  obtain ⟨name, tail, rfl, hplain, htail⟩ := hsplit
  rw [readAs_name hplain htail, normalizeFrom_reading recur hplain htail,
    normalizeFrom_reading recur (slash_notMem_reading hplain) htail.readAs.1, reading_reading,
    htail.readAs.2, ← readAs_afterSlashes, hrecur]
  by_cases hdd : reading name = [dot, dot]
  · simp only [hdd, if_true]
    rfl
  · by_cases hd : reading name = [dot]
    · simp only [hd, if_true]
      rfl
    · have hkept : reading name = name :=
        ((reading_cases name).resolve_left (not_not_intro ⟨hd, hdd⟩)).2
      rw [if_neg hdd, if_neg hd, if_neg hdd, if_neg hd, hkept]
      cases recur (afterSlashes tail) with
      | none => rfl
      | some result =>
        obtain ⟨s, flag⟩ := result
        cases flag with
        | true => simp [readRest, hrecur]
        | false => rfl

theorem normalizeRelativePath_readAs (fuel : ℕ) (path : Bytes) :
    normalizeRelativePath fuel (readAs path) =
      (normalizeRelativePath fuel path).map readRest := by
  induction fuel generalizing path with
  | zero => rfl
  | succ fuel ih =>
    by_cases hempty : path = []
    · rw [hempty]
      rfl
    · by_cases hhead : path.head? = some slash
      · obtain ⟨path, rfl⟩ := exists_slash hhead
        have hafter := normalizeFrom_readAs ih (afterSlashes_head path)
        rw [readAs_slash, normalizeRelativePath, normalizeRelativePath,
          if_neg (List.cons_ne_nil _ _), if_neg (List.cons_ne_nil _ _), restoreCoupler_slash,
          restoreCoupler_slash]
        simp only [List.drop_succ_cons, List.drop_zero, List.take_succ_cons, List.take_zero,
          ← readAs_afterSlashes, hafter]
        cases normalizeFrom (normalizeRelativePath fuel) (afterSlashes path) with
        | none => rfl
        | some result =>
          obtain ⟨s, flag⟩ := result
          cases flag <;> simp [readRest]
      · obtain ⟨c, rest, heq, _⟩ := readAs_starts hempty hhead
        have hne : readAs path ≠ [] := by
          rw [heq]
          exact List.cons_ne_nil _ _
        rw [normalizeRelativePath_of_head hempty hhead,
          normalizeRelativePath_of_head hne (readAs_head hhead), normalizeFrom_readAs ih hhead]

theorem normalizeLoop_readAs (fuel : ℕ) (path : Bytes) :
    normalizeLoop fuel (readAs path) = normalizeLoop fuel path := by
  induction fuel generalizing path with
  | zero => rfl
  | succ fuel ih =>
    rw [normalizeLoop, normalizeLoop, normalizeRelativePath_readAs]
    cases normalizeRelativePath fuel path with
    | none => rfl
    | some result =>
      obtain ⟨rest, flag⟩ := result
      cases flag with
      | true => simp [readRest, ih]
      | false => rfl

/-- `normalize_path` does the same with a path and with the path as it is read. -/
theorem normalizePath_readAs (fuel : ℕ) (path : Bytes) :
    normalizePath fuel (readAs path) = normalizePath fuel path := by
  rw [normalizePath, normalizeLoop_readAs]
  rfl

end Run

end Acos.PathNormal
