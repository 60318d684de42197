import Acos.PathNormal.NormalForm
import Mathlib.Data.List.TakeWhile

/-! A path as its first component, the slashes after it and the rest. -/
namespace Acos.PathNormal
open Acos.CString

/-- What follows the slashes at the start of a path. -/
def afterSlashes (path : Bytes) : Bytes := path.dropWhile (· = slash)

/-- A path that does not go on with a name. -/
def AtEnd (path : Bytes) : Prop := path = [] ∨ path.head? = some slash

/-- A path cut after its first component. -/
structure Cut (name tail : Bytes) : Prop where
  nonempty : name ≠ []
  plain : slash ∉ name
  atEnd : AtEnd tail

section Slashes
variable {path tail name : Bytes}

@[simp] theorem afterSlashes_slash (path : Bytes) :
    afterSlashes (slash :: path) = afterSlashes path := by
  simp [afterSlashes]

theorem exists_slash (h : path.head? = some slash) : ∃ rest, path = slash :: rest := by
  cases path with
  | nil => cases h
  | cons c rest => exact ⟨rest, by simpa using h⟩

theorem AtEnd.cases (h : AtEnd tail) : tail = [] ∨ ∃ rest, tail = slash :: rest :=
  h.imp_right exists_slash

theorem afterSlashes_head (path : Bytes) : (afterSlashes path).head? ≠ some slash := by
  unfold afterSlashes
  induction path with
  | nil => simp
  | cons c path ih =>
    rw [List.dropWhile_cons]
    split_ifs with hc
    · exact ih
    · simpa using hc

theorem afterSlashes_length_le (path : Bytes) : (afterSlashes path).length ≤ path.length :=
  List.IsSuffix.length_le (List.dropWhile_suffix _)

theorem shiftPath_slashes (path : Bytes) :
    (slash :: path).drop (path.takeWhile (· = slash)).length = slash :: afterSlashes path := by
  unfold afterSlashes
  induction path with
  | nil => rfl
  | cons c path ih =>
    by_cases hc : c = slash
    · subst hc
      simpa using ih
    · simp [hc]

theorem restoreCoupler_slash (path : Bytes) :
    restoreCoupler (slash :: path) = (slash :: afterSlashes path, 1) := by
  have hshift := shiftPath_slashes path
  have hlen : ((slash :: path).takeWhile (· = slash)).length =
      (path.takeWhile (· = slash)).length + 1 := by
    simp
  unfold restoreCoupler
  simp only [hlen, shiftPath, Nat.add_sub_cancel]
  rw [if_pos (Nat.succ_pos _)]
  split_ifs with hmany
  · rw [hshift]
  · have hnone : (path.takeWhile (· = slash)).length = 0 := by omega
    rw [hnone, List.drop_zero] at hshift
    rw [hshift]

theorem restoreCoupler_of_head (h : path.head? ≠ some slash) :
    restoreCoupler path = (path, 0) := by
  have hnone : path.takeWhile (· = slash) = [] := by
    cases path with
    | nil => rfl
    | cons c path =>
      have hc : c ≠ slash := by simpa using h
      simp [hc]
  simp [restoreCoupler, hnone]

/-- After a name, `restore_coupler` keeps one slash of those that follow. -/
theorem restoreCoupler_tail (h : AtEnd tail) :
    restoreCoupler tail = (tail.take 1 ++ afterSlashes tail, (tail.take 1).length) := by
  rcases h.cases with rfl | ⟨rest, rfl⟩
  · rfl
  · rw [restoreCoupler_slash]
    simp [afterSlashes]

theorem readName_append (hplain : slash ∉ name) (h : AtEnd tail) :
    readName (name ++ tail) = name := by
  unfold readName
  induction name with
  | nil =>
    rcases h.cases with rfl | ⟨rest, rfl⟩
    · rfl
    · simp
  | cons c name ih =>
    rw [List.mem_cons, not_or] at hplain
    rw [List.cons_append, List.takeWhile_cons, if_pos (by simpa using Ne.symm hplain.1),
      ih hplain.2]

/-- Every path that does not start with a slash is a name and what follows it. -/
theorem exists_cut (hne : path ≠ []) (hhead : path.head? ≠ some slash) :
    ∃ name tail, path = name ++ tail ∧ Cut name tail := by
  refine ⟨path.takeWhile (· ≠ slash), path.dropWhile (· ≠ slash),
    List.takeWhile_append_dropWhile.symm, ?_, ?_, ?_⟩
  · obtain ⟨c, path, rfl⟩ := List.exists_cons_of_ne_nil hne
    have hc : c ≠ slash := by simpa using hhead
    simp [hc]
  · intro hmem
    simpa using List.mem_takeWhile_imp hmem
  · unfold AtEnd
    cases hrest : path.dropWhile (· ≠ slash) with
    | nil => exact .inl rfl
    | cons c rest =>
      right
      have hnot := List.head_dropWhile_not (· ≠ slash) (w := by rw [hrest]; simp)
      simp only [hrest, List.head_cons] at hnot
      rw [List.head?_cons, Option.some_inj]
      exact not_not.mp (of_decide_eq_false hnot)

/-- The string after a name, the slash after it and what comes then. -/
theorem drop_name (name tail s : Bytes) :
    (name ++ (tail.take 1 ++ s)).drop (name.length + (tail.take 1).length) = s := by
  rw [← List.append_assoc, ← List.length_append, List.drop_left]

theorem take_name (name tail s : Bytes) :
    (name ++ (tail.take 1 ++ s)).take (name.length + (tail.take 1).length) =
      name ++ tail.take 1 := by
  rw [← List.append_assoc, ← List.length_append, List.take_left]

/-- `normalize_relative_path` at a name, in terms of its calls of itself. -/
theorem normalizeFrom_name (recur : Bytes → Option (Bytes × Bool)) (hplain : slash ∉ name)
    (htail : AtEnd tail) :
    normalizeFrom recur (name ++ tail) =
      if strncmpZero (name ++ (tail.take 1 ++ afterSlashes tail)) [dot, dot] 2 then
        some (afterSlashes tail, true)
      else if strncmpZero (name ++ (tail.take 1 ++ afterSlashes tail)) [dot] 1 then
        recur (afterSlashes tail)
      else (recur (afterSlashes tail)).bind fun (s, flag) =>
        if flag then recur s else some (name ++ tail.take 1 ++ s, false) := by
  have hread := readName_append hplain htail
  unfold normalizeFrom
  simp only [hread, List.drop_left, restoreCoupler_tail htail, shiftPath, drop_name, take_name]
  simp only [← List.length_append, List.drop_left]

theorem strncmpZero_dotDot (htail : AtEnd tail) :
    strncmpZero (dot :: tail) [dot, dot] 2 = false := by
  rcases htail.cases with rfl | ⟨rest, rfl⟩
  · rfl
  · simp [strncmpZero, slash, dot]

theorem strncmpZero_name (hname : name.head? ≠ some dot) (hne : name ≠ []) (s : Bytes) (n : ℕ)
    (word : Bytes) : strncmpZero (name ++ s) (dot :: word) (n + 1) = false := by
  obtain ⟨c, name, rfl⟩ := List.exists_cons_of_ne_nil hne
  have hc : c ≠ dot := by simpa using hname
  simp [strncmpZero, hc]

theorem atEnd_kept (htail : AtEnd tail) : AtEnd (tail.take 1 ++ afterSlashes tail) := by
  rcases htail with rfl | h
  · exact .inl rfl
  · cases tail with
    | nil => exact .inl rfl
    | cons c tail => exact .inr (by simpa using h)

/-- The three kinds of components. -/
theorem normalizeFrom_component (recur : Bytes → Option (Bytes × Bool)) (h : Cut name tail)
    (hname : IsName name → name.head? ≠ some dot) :
    normalizeFrom recur (name ++ tail) =
      if name = [dot, dot] then some (afterSlashes tail, true)
      else if name = [dot] then recur (afterSlashes tail)
      else (recur (afterSlashes tail)).bind fun (s, flag) =>
        if flag then recur s else some (name ++ tail.take 1 ++ s, false) := by
  rw [normalizeFrom_name recur h.plain h.atEnd]
  by_cases hdd : name = [dot, dot]
  · subst hdd
    rw [if_pos (by simp [strncmpZero]), if_pos rfl]
  · by_cases hd : name = [dot]
    · subst hd
      rw [if_neg (by simp [strncmpZero_dotDot (atEnd_kept h.atEnd)]),
        if_pos (by simp [strncmpZero]), if_neg hdd, if_pos rfl]
    · have hhead := hname ⟨hd, hdd⟩
      rw [if_neg (by simp [strncmpZero_name hhead h.nonempty]),
        if_neg (by simp [strncmpZero_name hhead h.nonempty]), if_neg hdd, if_neg hd]

theorem normalizeRelativePath_of_head {fuel : ℕ} (hne : path ≠ [])
    (hhead : path.head? ≠ some slash) :
    normalizeRelativePath (fuel + 1) path = normalizeFrom (normalizeRelativePath fuel) path := by
  rw [normalizeRelativePath, if_neg hne, restoreCoupler_of_head hhead]
  simp

theorem normalizeRelativePath_slash (fuel : ℕ) (path : Bytes) :
    normalizeRelativePath (fuel + 2) (slash :: path) =
      (normalizeRelativePath (fuel + 2) (afterSlashes path)).map fun (s, flag) =>
        (slash :: s, flag) := by
  have hfrom : normalizeFrom (normalizeRelativePath (fuel + 1)) (afterSlashes path) =
      normalizeRelativePath (fuel + 2) (afterSlashes path) := by
    by_cases hempty : afterSlashes path = []
    · rw [hempty]
      rfl
    · rw [normalizeRelativePath_of_head hempty (afterSlashes_head path)]
  rw [normalizeRelativePath, if_neg (List.cons_ne_nil _ _), restoreCoupler_slash]
  simp only [List.drop_succ_cons, List.drop_zero, List.take_succ_cons, List.take_zero, hfrom]
  rfl

end Slashes

section Components
variable {path tail name : Bytes}

@[simp] theorem components_nil : components [] = [] := by
  simp [components]

@[simp] theorem components_slash (path : Bytes) : components (slash :: path) = components path := by
  simp [components, List.splitOn_cons_eq_if_modifyHead]

theorem components_afterSlashes (path : Bytes) :
    components (afterSlashes path) = components path := by
  unfold afterSlashes
  induction path with
  | nil => rfl
  | cons c path ih =>
    by_cases hc : c = slash
    · subst hc
      simpa using ih
    · simp [hc]

theorem components_name (h : Cut name tail) :
    components (name ++ tail) = name :: components (afterSlashes tail) := by
  obtain ⟨hne, hplain, htail⟩ := h
  rw [components_afterSlashes]
  rcases htail.cases with rfl | ⟨rest, rfl⟩
  · simp [components, List.splitOn_eq_singleton hplain, hne]
  · rw [components_slash]
    unfold components
    rw [List.splitOn_append_cons_self, List.splitOn_eq_singleton hplain]
    simp [hne]

/-- A path of slashes only ends in one. -/
theorem getLast?_slashes (hempty : afterSlashes tail = []) (hne : tail ≠ []) :
    tail.getLast? = some slash := by
  have hsplit : tail.takeWhile (· = slash) = tail := by
    have happend := List.takeWhile_append_dropWhile (p := (· = slash)) (l := tail)
    rw [afterSlashes] at hempty
    rw [hempty, List.append_nil] at happend
    exact happend
  have hmem : tail.getLast hne ∈ tail.takeWhile (· = slash) := by
    rw [hsplit]
    exact List.getLast_mem hne
  rw [List.getLast?_eq_some_getLast hne]
  simpa using List.mem_takeWhile_imp hmem

/-- How a path ends, in terms of what comes after its first component. -/
theorem endsOpen_name (h : Cut name tail) :
    EndsOpen (name ++ tail) ↔
      if afterSlashes tail = [] then tail ≠ [] ∨ ¬ IsName name
      else EndsOpen (afterSlashes tail) := by
  have hcomp := components_name h
  unfold EndsOpen
  rw [hcomp, List.getLast?_append]
  by_cases hempty : afterSlashes tail = []
  · rw [if_pos hempty, hempty, components_nil]
    by_cases htne : tail = []
    · have hlast : ¬ name.getLast? = some slash := fun hend => h.plain (List.mem_of_getLast? hend)
      simp [htne, hlast]
    · simp [htne, getLast?_slashes hempty htne]
  · have hsome : ∃ c, (afterSlashes tail).getLast? = some c :=
      ⟨_, List.getLast?_eq_some_getLast hempty⟩
    obtain ⟨c, hc⟩ := hsome
    have hlast : tail.getLast? = some c := by
      have happend : tail = tail.takeWhile (· = slash) ++ afterSlashes tail :=
        List.takeWhile_append_dropWhile.symm
      rw [happend, List.getLast?_append, hc]
      rfl
    obtain ⟨name', tail', heq, hcut⟩ := exists_cut hempty (afterSlashes_head tail)
    have hcomp' := components_name hcut
    rw [if_neg hempty, hlast, hc, heq, hcomp', List.getLast?_cons_cons]
    rfl

/-- A slash in front changes how a path ends only if nothing else is there. -/
theorem endsOpen_slash (path : Bytes) :
    EndsOpen (slash :: path) ↔ afterSlashes path = [] ∨ EndsOpen (afterSlashes path) := by
  unfold EndsOpen
  rw [components_slash, components_afterSlashes]
  by_cases hempty : afterSlashes path = []
  · have hall : afterSlashes (slash :: path) = [] := by
      simpa [afterSlashes] using hempty
    simp [hempty, getLast?_slashes hall]
  · have happend : slash :: path =
        (slash :: path).takeWhile (· = slash) ++ afterSlashes (slash :: path) :=
      List.takeWhile_append_dropWhile.symm
    rw [happend, afterSlashes_slash, List.getLast?_append, List.getLast?_eq_some_getLast hempty]
    simp [hempty]

end Components

end Acos.PathNormal
