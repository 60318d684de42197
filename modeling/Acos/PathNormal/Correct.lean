import Acos.PathNormal.Components

/-! The result of `normalize_path` is the lexical normal form. A call of
`normalize_relative_path` either normalises its string, or stops after the first `..` that
cancels no name and leaves the rest of the string as it is. -/
namespace Acos.PathNormal
open Acos.CString

/-- Components that are neither `.` nor `..` do not begin with a dot. -/
def NamesPlain (path : Bytes) : Prop := ∀ c ∈ components path, IsName c → c.head? ≠ some dot

section Cancel
variable {stack : List Bytes} {component top : Bytes}

theorem cancel_dot (stack : List Bytes) : cancel stack [dot] = stack := by
  simp [cancel]

theorem cancel_name (h : IsName component) : cancel stack component = component :: stack := by
  simp [cancel, h.1, h.2]

theorem cancel_dotDot (h : IsName top) : cancel (top :: stack) [dot, dot] = stack := by
  simp [cancel, h]

theorem cancel_dotDot_replicate (k : ℕ) :
    cancel (List.replicate k [dot, dot]) [dot, dot] = List.replicate (k + 1) [dot, dot] := by
  cases k with
  | zero => rfl
  | succ k => simp [cancel, IsName, List.replicate_succ]

theorem mem_foldl_cancel {c : Bytes} {cs : List Bytes} (h : c ∈ cs.foldl cancel stack) :
    c ∈ stack ∨ c ∈ cs := by
  induction cs generalizing stack with
  | nil => exact .inl h
  | cons d cs ih =>
    rcases ih h with hmem | hmem
    · have hcase : c ∈ stack ∨ c = d := by
        unfold cancel at hmem
        split_ifs at hmem
        · exact .inl hmem
        · split at hmem
          · exact .inr (List.mem_singleton.mp hmem)
          · split_ifs at hmem
            · exact .inl (List.mem_cons_of_mem _ hmem)
            · exact (List.mem_cons.mp hmem).symm
        · exact (List.mem_cons.mp hmem).symm
      exact hcase.imp id fun heq => by simp [heq]
    · exact .inr (List.mem_cons_of_mem _ hmem)

end Cancel

section Spec
variable {path rest : Bytes}

/-- The string left is what follows the first `..` that cancels no name. -/
structure Surplus (path rest : Bytes) : Prop where
  split : ∃ before, components path = before ++ components rest ∧
    before.count [dot, dot] = (before.filter (IsName ·)).length + 1
  fold : ∀ stack, (components path).foldl cancel stack =
    (components rest).foldl cancel (cancel stack [dot, dot])
  shorter : rest.length < path.length
  head : rest.head? ≠ some slash
  ends : EndsOpen path ↔ rest = [] ∨ EndsOpen rest

/-- The string left is made of the components that are left. -/
structure Normalized (path rest : Bytes) (out : List Bytes) : Prop where
  fold : ∀ stack, (components path).foldl cancel stack = out.reverse ++ stack
  eq : rest = join (EndsOpen path) out

def Outcome (path : Bytes) : Bytes × Bool → Prop
  | (rest, true) => Surplus path rest
  | (rest, false) => ∃ out, Normalized path rest out

/-- A path all of whose names are cancelled does not end in a name. -/
theorem endsOpen_of_cancelled (hne : path ≠ []) (hhead : path.head? ≠ some slash)
    (h : (components path).foldl cancel [] = []) : EndsOpen path := by
  obtain ⟨name, tail, heq, hcut⟩ := exists_cut hne hhead
  have hcomp : components path ≠ [] := by
    rw [heq, components_name hcut]
    exact List.cons_ne_nil _ _
  by_contra hends
  unfold EndsOpen at hends
  rw [not_or] at hends
  have hlast := List.getLast?_eq_some_getLast hcomp
  have hname : IsName ((components path).getLast hcomp) := by
    by_contra hnot
    exact hends.2 ⟨_, hlast, hnot⟩
  rw [← List.dropLast_concat_getLast hcomp, List.foldl_append, List.foldl_cons, List.foldl_nil,
    cancel_name hname] at h
  exact List.cons_ne_nil _ _ h

/-- Joining a component in front: a slash follows it unless it is the last and the path ends
in it. -/
theorem join_cons (ends : Bool) (c : Bytes) {out : List Bytes} (hne : out ≠ []) :
    join ends (c :: out) = c ++ slash :: join ends out := by
  cases out with
  | nil => exact absurd rfl hne
  | cons d out => rfl

theorem outcome_dotDot {tail : Bytes} (h : Cut [dot, dot] tail) :
    Surplus ([dot, dot] ++ tail) (afterSlashes tail) := by
  have hcomp := components_name h
  have hends := endsOpen_name h
  have hlen := afterSlashes_length_le tail
  refine ⟨⟨[[dot, dot]], by rw [hcomp]; rfl, by simp [IsName]⟩, ?_, ?_,
    afterSlashes_head tail, ?_⟩
  · intro stack
    rw [hcomp, List.foldl_cons]
  · simp only [List.length_append, List.length_cons, List.length_nil]
    omega
  · rw [hends]
    split_ifs with hempty
    · simp [hempty, IsName]
    · simp [hempty]

/-- What a path ends in only matters for its normal form if something is left of it. -/
theorem join_ends {p q : Prop} [Decidable p] [Decidable q] {out : List Bytes}
    (h : out ≠ [] → (p ↔ q)) : join p out = join q out := by
  by_cases hout : out = []
  · rw [hout]
    rfl
  · rw [decide_eq_decide.mpr (h hout)]

theorem Normalized.out_nil {out : List Bytes} (h : Normalized [] rest out) : out = [] := by
  have hfold := h.fold []
  simpa using hfold.symm

theorem outcome_dot {tail : Bytes} {result : Bytes × Bool} (h : Cut [dot] tail)
    (hout : Outcome (afterSlashes tail) result) : Outcome ([dot] ++ tail) result := by
  have hcomp := components_name h
  have hends := endsOpen_name h
  have hlen := afterSlashes_length_le tail
  have hfold (stack : List Bytes) : (components ([dot] ++ tail)).foldl cancel stack =
      (components (afterSlashes tail)).foldl cancel stack := by
    rw [hcomp, List.foldl_cons, cancel_dot]
  obtain ⟨rest, flag⟩ := result
  cases flag with
  | true =>
    obtain ⟨⟨before, hsplit, hcount⟩, hrest, hshort, hhead, hrends⟩ := hout
    have hne : afterSlashes tail ≠ [] := List.ne_nil_of_length_pos (by omega)
    rw [if_neg hne] at hends
    refine ⟨⟨[dot] :: before, by rw [hcomp, hsplit]; rfl, ?_⟩, ?_, ?_, hhead, ?_⟩
    · simpa [IsName] using hcount
    · intro stack
      rw [hfold, hrest]
    · simp only [List.length_append, List.length_cons, List.length_nil]
      omega
    · rw [hends, hrends]
  | false =>
    obtain ⟨out, hnorm⟩ := hout
    refine ⟨out, fun stack => (hfold stack).trans (hnorm.fold stack), ?_⟩
    rw [hnorm.eq]
    apply join_ends
    intro hne
    rw [hends]
    split_ifs with hempty
    · rw [hempty] at hnorm
      exact absurd hnorm.out_nil hne
    · rfl

/-- A name that the first `..` left over from the rest cancels. -/
theorem outcome_cancelled {name tail s : Bytes} {result : Bytes × Bool} (h : Cut name tail)
    (hname : IsName name) (hs : Surplus (afterSlashes tail) s) (hout : Outcome s result) :
    Outcome (name ++ tail) result := by
  obtain ⟨⟨before, hsplit, hcount⟩, hrest, hshort, hhead, hrends⟩ := hs
  have hcomp := components_name h
  have hne : afterSlashes tail ≠ [] := List.ne_nil_of_length_pos (by omega)
  have hends := endsOpen_name h
  rw [if_neg hne, hrends] at hends
  have hlen := afterSlashes_length_le tail
  have hfold (stack : List Bytes) : (components (name ++ tail)).foldl cancel stack =
      (components s).foldl cancel stack := by
    rw [hcomp, List.foldl_cons, cancel_name hname, hrest, cancel_dotDot hname]
  obtain ⟨rest, flag⟩ := result
  cases flag with
  | true =>
    obtain ⟨⟨before', hsplit', hcount'⟩, hrest', hshort', hhead', hrends'⟩ := hout
    have hs : s ≠ [] := List.ne_nil_of_length_pos (by omega)
    refine ⟨⟨name :: (before ++ before'), by rw [hcomp, hsplit, hsplit']; simp, ?_⟩, ?_, ?_,
      hhead', ?_⟩
    · simp only [List.count_cons, List.count_append, List.filter_cons, List.filter_append,
        hname, decide_true, if_true, List.length_cons, List.length_append, beq_iff_eq, hname.2,
        if_false]
      omega
    · intro stack
      rw [hfold, hrest']
    · rw [List.length_append]
      omega
    · simp only [hends, hs, false_or, hrends']
  | false =>
    obtain ⟨out, hnorm⟩ := hout
    refine ⟨out, fun stack => (hfold stack).trans (hnorm.fold stack), ?_⟩
    rw [hnorm.eq]
    apply join_ends
    intro hne
    have hs : s ≠ [] := by
      rintro rfl
      exact hne hnorm.out_nil
    simp only [hends, hs, false_or]

/-- A name that stays. -/
theorem outcome_kept {name tail s : Bytes} {out : List Bytes} (h : Cut name tail)
    (hname : IsName name) (hs : Normalized (afterSlashes tail) s out) :
    Normalized (name ++ tail) (name ++ tail.take 1 ++ s) (name :: out) := by
  have hcomp := components_name h
  have hends := endsOpen_name h
  refine ⟨?_, ?_⟩
  · intro stack
    rw [hcomp, List.foldl_cons, cancel_name hname, hs.fold]
    simp
  · have hslash : tail ≠ [] → tail.take 1 = [slash] := by
      intro htail
      obtain ⟨rest, rfl⟩ := h.atEnd.cases.resolve_left htail
      rfl
    have htail : afterSlashes tail ≠ [] → tail ≠ [] := by
      rintro hne rfl
      exact hne rfl
    rw [hs.eq]
    by_cases hempty : afterSlashes tail = []
    · rw [hempty] at hs
      rw [hs.out_nil]
      simp only [join, hends, hempty, if_true, hname, not_true_eq_false, or_false]
      by_cases hnil : tail = []
      · simp [hnil]
      · simp [hnil, hslash hnil]
    · rw [if_neg hempty] at hends
      rw [hslash (htail hempty)]
      by_cases hout : out = []
      · have hopen : EndsOpen (afterSlashes tail) := by
          apply endsOpen_of_cancelled hempty (afterSlashes_head tail)
          rw [hs.fold, hout]
          rfl
        simp [hout, join, hends, hopen]
      · have hjoin : join (EndsOpen (name ++ tail)) (name :: out) =
            join (EndsOpen (afterSlashes tail)) (name :: out) := join_ends fun _ => hends
        rw [hjoin, join_cons _ _ hout]
        simp

theorem normalize_outcome {fuel : ℕ} (hfuel : path.length < fuel) (hplain : NamesPlain path)
    (hhead : path.head? ≠ some slash) :
    ∃ result, normalizeRelativePath fuel path = some result ∧ Outcome path result := by
  induction fuel generalizing path with
  | zero => omega
  | succ fuel ih =>
    by_cases hempty : path = []
    · subst hempty
      exact ⟨([], false), rfl, [], fun _ => rfl, rfl⟩
    · obtain ⟨name, tail, rfl, hcut⟩ := exists_cut hempty hhead
      have hcomp := components_name hcut
      have hlen := afterSlashes_length_le tail
      have hnamelen := List.length_pos_iff.mpr hcut.nonempty
      rw [List.length_append] at hfuel
      have hplain' : NamesPlain (afterSlashes tail) := fun c hc =>
        hplain c (by rw [hcomp]; exact List.mem_cons_of_mem _ hc)
      have hdots : IsName name → name.head? ≠ some dot :=
        hplain name (by rw [hcomp]; exact List.mem_cons_self)
      rw [normalizeRelativePath_of_head hempty hhead, normalizeFrom_component _ hcut hdots]
      obtain ⟨⟨s, flag⟩, hrec, hout⟩ := ih (by omega) hplain' (afterSlashes_head tail)
      by_cases hdd : name = [dot, dot]
      · subst hdd
        exact ⟨_, if_pos rfl, outcome_dotDot hcut⟩
      · by_cases hd : name = [dot]
        · subst hd
          rw [if_neg hdd, if_pos rfl]
          exact ⟨_, hrec, outcome_dot hcut hout⟩
        · rw [if_neg hdd, if_neg hd, hrec, Option.bind_some]
          cases flag with
          | true =>
            obtain ⟨before, hsplit, _⟩ := hout.split
            have hshort := hout.shorter
            have hplain'' : NamesPlain s := fun c hc =>
              hplain' c (by rw [hsplit]; exact List.mem_append_right _ hc)
            obtain ⟨result, hagain, hresult⟩ := ih (by omega) hplain'' hout.head
            exact ⟨result, hagain, outcome_cancelled hcut ⟨hd, hdd⟩ hout hresult⟩
          | false =>
            obtain ⟨out, hnorm⟩ := hout
            exact ⟨_, rfl, _, outcome_kept hcut ⟨hd, hdd⟩ hnorm⟩

/-- The loop writes the `..` that are left over in front of what is left at the end. -/
theorem normalizeLoop_spec {fuel : ℕ} (hfuel : path.length + 1 < fuel) (hplain : NamesPlain path)
    (hhead : path.head? ≠ some slash) :
    ∃ out, normalizeLoop fuel path = some (join (EndsOpen path) out) ∧
      ∀ k, (components path).foldl cancel (List.replicate k [dot, dot]) =
        out.reverse ++ List.replicate k [dot, dot] := by
  induction fuel generalizing path with
  | zero => omega
  | succ fuel ih =>
    obtain ⟨⟨rest, flag⟩, hrun, hout⟩ :=
      normalize_outcome (show path.length < fuel by omega) hplain hhead
    rw [normalizeLoop, hrun, Option.bind_some]
    cases flag with
    | true =>
      obtain ⟨⟨before, hsplit, _⟩, hfold, hshort, hhead', hends⟩ := hout
      have hplain' : NamesPlain rest := fun c hc =>
        hplain c (by rw [hsplit]; exact List.mem_append_right _ hc)
      obtain ⟨out, hloop, hrest⟩ := ih (by omega) hplain' hhead'
      refine ⟨[dot, dot] :: out, ?_, ?_⟩
      · simp only [if_true, hloop, Option.map_some, Option.some_inj]
        by_cases hnil : out = []
        · have hopen : EndsOpen path := by
            rw [hends]
            by_cases hrnil : rest = []
            · exact .inl hrnil
            · refine .inr (endsOpen_of_cancelled hrnil hhead' ?_)
              have hzero := hrest 0
              simpa [hnil] using hzero
          simp [hnil, join, hopen, dotDotSlash]
        · have hrne : rest ≠ [] := by
            rintro rfl
            have hzero := hrest 0
            exact hnil (by simpa using hzero.symm)
          have hjoin : join (EndsOpen path) ([dot, dot] :: out) =
              join (EndsOpen rest) ([dot, dot] :: out) :=
            join_ends fun _ => by simp only [hends, hrne, false_or]
          rw [hjoin, join_cons _ _ hnil]
          rfl
      · intro k
        rw [hfold, cancel_dotDot_replicate, hrest]
        simp [List.replicate_succ]
    | false =>
      obtain ⟨out, hnorm⟩ := hout
      refine ⟨out, ?_, fun k => hnorm.fold _⟩
      rw [← hnorm.eq]
      rfl

end Spec

section Main
variable {path : Bytes}

theorem reduce_of_fold {out : List Bytes} (h : (components path).foldl cancel [] = out.reverse) :
    reduce path = out := by
  rw [reduce, h, List.reverse_reverse]

theorem join_eq_nil (ends : Bool) {out : List Bytes} (hne : ∀ c ∈ out, c ≠ []) :
    join ends out = [] ↔ out = [] := by
  cases out with
  | nil => simp [join]
  | cons c out =>
    have hc := hne c List.mem_cons_self
    cases out with
    | nil => cases ends <;> simp [join, hc]
    | cons d out => simp [join]

theorem reduce_ne_nil (path : Bytes) : ∀ c ∈ reduce path, c ≠ [] := by
  intro c hc
  rw [reduce, List.mem_reverse] at hc
  rcases mem_foldl_cancel hc with hmem | hmem
  · cases hmem
  · simpa using (List.mem_filter.mp hmem).2

/-- No prefix of the components of an absolute path has more `..` than names. -/
def NeverAboveRoot (path : Bytes) : Prop :=
  path.head? = some slash → ∀ before, before <+: components path →
    before.count [dot, dot] ≤ (before.filter (IsName ·)).length

theorem normalizePath_relative {fuel : ℕ} (hplain : NamesPlain path)
    (hhead : path.head? ≠ some slash) (hfuel : path.length + 1 < fuel) :
    normalizePath fuel path = some (normalForm path) := by
  obtain ⟨out, hloop, hfold⟩ := normalizeLoop_spec hfuel hplain hhead
  have hreduce : reduce path = out := reduce_of_fold (by simpa using hfold 0)
  have hnil := join_eq_nil (EndsOpen path) (reduce_ne_nil path)
  rw [hreduce] at hnil
  simp only [normalizePath, hloop, Option.map_some, normalForm, if_neg hhead, hreduce,
    List.length_eq_zero_iff, hnil]

theorem normalizePath_absolute {fuel : ℕ} (hplain : NamesPlain (slash :: path))
    (habove : ∀ before, before <+: components (slash :: path) →
      before.count [dot, dot] ≤ (before.filter (IsName ·)).length)
    (hfuel : path.length + 2 < fuel) :
    normalizePath fuel (slash :: path) = some (normalForm (slash :: path)) := by
  obtain ⟨fuel, rfl⟩ := Nat.exists_eq_add_of_le' (show 3 ≤ fuel by omega)
  have hlen := afterSlashes_length_le path
  have hcomp : components (slash :: path) = components (afterSlashes path) := by
    rw [components_slash, components_afterSlashes]
  have hplain' : NamesPlain (afterSlashes path) := by
    unfold NamesPlain
    rw [← hcomp]
    exact hplain
  obtain ⟨⟨rest, flag⟩, hrun, hout⟩ :=
    normalize_outcome (show (afterSlashes path).length < fuel + 2 by omega) hplain'
      (afterSlashes_head path)
  cases flag with
  | true =>
    obtain ⟨before, hsplit, hcount⟩ := hout.split
    have hle := habove before ⟨_, by rw [hcomp, hsplit]⟩
    omega
  | false =>
    obtain ⟨out, hnorm⟩ := hout
    have hreduce : reduce (slash :: path) = out := by
      apply reduce_of_fold
      rw [hcomp, hnorm.fold, List.append_nil]
    have hjoin : rest = join (EndsOpen (slash :: path)) out := by
      rw [hnorm.eq]
      apply join_ends
      intro hne
      have hrest : afterSlashes path ≠ [] := by
        intro hempty
        rw [hempty] at hnorm
        exact hne hnorm.out_nil
      simp only [endsOpen_slash, hrest, false_or]
    rw [normalizePath, normalizeLoop, normalizeRelativePath_slash, hrun]
    simp [normalForm, hreduce, hjoin]

/-- With enough fuel `normalize_path` leaves the lexical normal form of its path. -/
theorem normalize_path_normalForm {fuel : ℕ} (hplain : NamesPlain path)
    (habove : NeverAboveRoot path) (hfuel : path.length + 1 < fuel) :
    normalizePath fuel path = some (normalForm path) := by
  by_cases hhead : path.head? = some slash
  · obtain ⟨path, rfl⟩ := exists_slash hhead
    exact normalizePath_absolute hplain (habove rfl) hfuel
  · exact normalizePath_relative hplain hhead hfuel

/-- `a/./../../b/`. -/
def climbing : Bytes :=
  [97, slash, dot, slash, dot, dot, slash, dot, dot, slash, 98, slash]

theorem normalize_path_climbing :
    normalizePath 20 climbing = some [dot, dot, slash, 98, slash] ∧
      normalizePath 20 climbing = some (normalForm climbing) := by
  refine ⟨by decide, normalize_path_normalForm ?_ ?_ (by decide)⟩
  · unfold NamesPlain
    decide
  · intro hhead
    cases hhead

end Main

end Acos.PathNormal
