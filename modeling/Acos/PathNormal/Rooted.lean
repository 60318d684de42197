import Acos.PathNormal.Dots
import Acos.PathNormal.Idempotent

/-! Absolute paths: the result starts with a slash as long as no `..` is read at the root. The
first one that is makes `normalize_path` write `../` in front of the slash. -/
namespace Acos.PathNormal
open Acos.CString

/-- An absolute path without empty components and without `..`. -/
structure Rooted (path : Bytes) : Prop where
  absolute : path.head? = some slash
  single : ¬ [slash, slash] <:+: path
  noUp : [dot, dot] ∉ components path

section Single
variable {path : Bytes} {out : List Bytes}

theorem squeeze_head (path : Bytes) : (squeeze path).head? = path.head? := by
  induction path with
  | nil => rfl
  | cons c path ih =>
    rw [squeeze]
    split_ifs with hmore
    · rw [ih, hmore.2, hmore.1, List.head?_cons]
    · rfl

theorem squeeze_single (path : Bytes) : ¬ [slash, slash] <:+: squeeze path := by
  induction path with
  | nil => simp [squeeze]
  | cons c path ih =>
    rw [squeeze]
    split_ifs with hmore
    · exact ih
    · rw [List.infix_cons_iff, not_or]
      refine ⟨fun hpre => hmore ?_, ih⟩
      rw [List.cons_prefix_cons] at hpre
      obtain ⟨after, heq⟩ := hpre.2
      rw [← squeeze_head path, ← heq]
      exact ⟨hpre.1.symm, rfl⟩

theorem squeeze_join (ends : Bool) (hout : ∀ c ∈ out, c ≠ [] ∧ slash ∉ c) :
    squeeze (join ends out) = join ends out := by
  induction out with
  | nil => rfl
  | cons c out ih =>
    obtain ⟨hne, hplain⟩ := hout c List.mem_cons_self
    have hrest : ∀ d ∈ out, d ≠ [] ∧ slash ∉ d := fun d hd => hout d (List.mem_cons_of_mem c hd)
    by_cases hlast : out = []
    · cases ends with
      | true =>
        have hname := squeeze_name hplain (show AtEnd [slash] from .inr rfl)
        simpa [hlast, join, afterSlashes, squeeze] using hname
      | false =>
        have hname := squeeze_name hplain (show AtEnd [] from .inl rfl)
        simpa [hlast, join, afterSlashes, squeeze] using hname
    · have hhead := join_head ends hrest
      rw [join_cons _ _ hlast, squeeze_name hplain (.inr rfl), afterSlashes_slash,
        afterSlashes_of_head hhead, ih hrest]
      simp

end Single

section Above
variable {stack cs : List Bytes} {c : Bytes}

theorem dotDot_mem_cancel (h : [dot, dot] ∈ stack) (c : Bytes) : [dot, dot] ∈ cancel stack c := by
  by_cases hd : c = [dot]
  · rwa [hd, cancel_dot]
  · by_cases hdd : c = [dot, dot]
    · cases stack with
      | nil => cases h
      | cons top stack =>
        by_cases hname : IsName top
        · rw [hdd, cancel_dotDot hname]
          exact (List.mem_cons.mp h).resolve_left (Ne.symm hname.2)
        · simp [cancel, hdd, hname]
    · rw [cancel_name ⟨hd, hdd⟩]
      exact List.mem_cons_of_mem _ h

theorem dotDot_mem_foldl (h : [dot, dot] ∈ stack) (cs : List Bytes) :
    [dot, dot] ∈ cs.foldl cancel stack := by
  induction cs generalizing stack with
  | nil => exact h
  | cons c cs ih => exact ih (dotDot_mem_cancel h c)

/-- As long as no `..` is left, there is a name on the stack for each that has not been
cancelled. -/
theorem foldl_cancel_names (h : [dot, dot] ∉ cs.foldl cancel []) :
    (∀ c ∈ cs.foldl cancel [], IsName c) ∧
      (cs.foldl cancel []).length + cs.count [dot, dot] = (cs.filter (IsName ·)).length := by
  induction cs using List.reverseRecOn with
  | nil => simp
  | append_singleton cs c ih =>
    simp only [List.foldl_append, List.foldl_cons, List.foldl_nil] at h ⊢
    obtain ⟨hnames, hlen⟩ := ih fun hmem => h (dotDot_mem_cancel hmem c)
    simp only [List.count_append, List.filter_append, List.length_append]
    by_cases hd : c = [dot]
    · rw [hd, cancel_dot]
      refine ⟨hnames, ?_⟩
      simpa [IsName] using hlen
    · by_cases hdd : c = [dot, dot]
      · cases hstack : cs.foldl cancel [] with
        | nil => simp [hstack, hdd, cancel] at h
        | cons top stack =>
          rw [hstack] at hnames hlen
          obtain ⟨htop, hrest⟩ := List.forall_mem_cons.mp hnames
          rw [hdd, cancel_dotDot htop]
          refine ⟨hrest, ?_⟩
          have hfilter : List.filter (IsName ·) [[dot, dot]] = [] := by decide
          rw [List.length_cons] at hlen
          rw [List.count_singleton_self, hfilter, List.length_nil]
          omega
      · have hname : IsName c := ⟨hd, hdd⟩
        have hfilter : List.filter (IsName ·) [c] = [c] := by simp [hname]
        have hcount : List.count [dot, dot] [c] = 0 := by simp [hdd]
        rw [cancel_name hname, hfilter, hcount, List.length_cons, List.length_singleton]
        exact ⟨List.forall_mem_cons.mpr ⟨hname, hnames⟩, by omega⟩

theorem count_le_of_prefix (h : [dot, dot] ∉ cs.foldl cancel []) {before : List Bytes}
    (hpre : before <+: cs) :
    before.count [dot, dot] ≤ (before.filter (IsName ·)).length := by
  obtain ⟨after, rfl⟩ := hpre
  rw [List.foldl_append] at h
  have hnames := (foldl_cancel_names fun hmem => h (dotDot_mem_foldl hmem after)).2
  omega

end Above

section Main
variable {path : Bytes}

/-- The loop writes `../` at the start if the first call returns 1. -/
theorem normalizePath_above {fuel : ℕ} {rest result : Bytes}
    (hrun : normalizeRelativePath fuel path = some (rest, true))
    (h : normalizePath (fuel + 1) path = some result) : result.head? = some dot := by
  rw [normalizePath, normalizeLoop, hrun] at h
  obtain ⟨left, hloop, heq⟩ := Option.map_eq_some_iff.mp h
  obtain ⟨after, _, hleft⟩ := Option.map_eq_some_iff.mp hloop
  rw [← heq, ← hleft]
  rfl

theorem normalizePath_below {fuel : ℕ} {rest : Bytes}
    (hrun : normalizeRelativePath fuel path = some (slash :: rest, false)) :
    normalizePath (fuel + 1) path = some (slash :: rest) := by
  rw [normalizePath, normalizeLoop, hrun]
  rfl

theorem rooted_slash {ends : Bool} (hdots : NoDots (join ends (reduce path))) :
    Rooted (slash :: join ends (reduce path)) := by
  have hplain := reduce_plain path
  refine ⟨rfl, ?_, ?_⟩
  · have hsqueeze : squeeze (slash :: join ends (reduce path)) =
        slash :: join ends (reduce path) := by
      rw [squeeze_slash, afterSlashes_of_head (join_head ends hplain), squeeze_join ends hplain]
    rw [← hsqueeze]
    exact squeeze_single _
  · intro hmem
    rw [components_slash] at hmem
    exact hdots _ hmem rfl

/-- A `..` that is left over has been read at the root. -/
theorem Surplus.above {rest : Bytes} (h : Surplus (afterSlashes path) rest) :
    ¬ NeverAboveRoot (slash :: path) := by
  intro hnever
  obtain ⟨before, hsplit, hcount⟩ := h.split
  have hcomp : components (slash :: path) = before ++ components rest := by
    rw [components_slash, ← components_afterSlashes, hsplit]
  have hle := hnever rfl before ⟨_, hcomp.symm⟩
  omega

theorem Normalized.below {rest : Bytes} {out : List Bytes}
    (h : Normalized (afterSlashes path) rest out) (hdots : NoDots rest) :
    NeverAboveRoot (slash :: path) ∧ Rooted (slash :: rest) := by
  have hreduce : reduce (afterSlashes path) = out :=
    reduce_of_fold (by rw [h.fold, List.append_nil])
  have hrest := h.eq
  rw [← hreduce] at hrest
  rw [hrest] at hdots
  refine ⟨fun _ before hpre => ?_, by rw [hrest]; exact rooted_slash hdots⟩
  rw [components_slash, ← components_afterSlashes] at hpre
  refine count_le_of_prefix (fun hmem => ?_) hpre
  unfold NoDots at hdots
  rw [components_join_reduce, reduce] at hdots
  exact hdots _ (List.mem_reverse.mpr hmem) rfl

/-- For an absolute path `normalize_path` leaves an absolute path without `..` exactly when no
component is read as a `..` at the root. -/
theorem normalize_path_rooted_iff {fuel : ℕ} (hhead : path.head? = some slash)
    (hfuel : path.length + 1 < fuel) :
    ∃ result, normalizePath fuel path = some result ∧
      (Rooted result ↔ NeverAboveRoot (readAs path)) := by
  obtain ⟨path, rfl⟩ := exists_slash hhead
  have hlen := readAs_length_le path
  have hafter := afterSlashes_length_le (readAs path)
  have hplain := namesPlain_readAs (slash :: path)
  rw [List.length_cons] at hfuel
  rw [← normalizePath_readAs]
  rw [readAs_slash] at hplain ⊢
  have hplain' : NamesPlain (afterSlashes (readAs path)) := by
    unfold NamesPlain
    rw [components_afterSlashes, ← components_slash]
    exact hplain
  obtain ⟨fuel, rfl⟩ := Nat.exists_eq_add_of_le' (show 3 ≤ fuel by omega)
  obtain ⟨⟨rest, flag⟩, hrun, hout⟩ :=
    normalize_outcome (show (afterSlashes (readAs path)).length < fuel + 2 by omega) hplain'
      (afterSlashes_head _)
  have hfirst := normalizeRelativePath_slash fuel (readAs path)
  rw [hrun, Option.map_some] at hfirst
  cases flag with
  | true =>
    obtain ⟨result, hres⟩ := normalizePath_total
      (show (slash :: readAs path).length + 1 < fuel + 3 by rw [List.length_cons]; omega)
    have hdot := normalizePath_above hfirst hres
    refine ⟨result, hres, fun h => ?_, fun h => absurd h hout.above⟩
    have hslash := h.absolute
    rw [hdot] at hslash
    exact absurd hslash (by decide)
  | false =>
    obtain ⟨out, hnorm⟩ := hout
    have hdots := normalizeRelativePath_noDots_name
      (show (afterSlashes (readAs path)).length < fuel + 2 by omega) (afterSlashes_head _) hrun
    obtain ⟨hnever, hrooted⟩ := hnorm.below hdots
    exact ⟨slash :: rest, normalizePath_below hfirst, fun _ => hnever, fun _ => hrooted⟩

/-- `//a/../..b/c`, in which `..b` is read as a `..` at the root. -/
def aboveRoot : Bytes :=
  [slash, slash, 97, slash, dot, dot, slash, dot, dot, 98, slash, 99]

theorem normalize_path_rooted_above :
    ∃ result, normalizePath 14 aboveRoot = some result ∧
      (Rooted result ↔ NeverAboveRoot (readAs aboveRoot)) :=
  normalize_path_rooted_iff rfl (by decide)

theorem normalize_path_parent_of_root :
    normalizePath 5 [slash, dot, dot] = some [dot, dot, slash, slash] ∧
      ¬ Rooted [dot, dot, slash, slash] :=
  ⟨by decide, fun h => absurd h.absolute (by decide)⟩

end Main

end Acos.PathNormal
