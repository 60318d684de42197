import Acos.PathNormal.Reading

/-! The normal form of a path is its own normal form. -/
namespace Acos.PathNormal
open Acos.CString

section Join
variable {path c : Bytes} {out : List Bytes}

/-- A component: not empty, and without slashes. -/
theorem component_plain (h : c ∈ components path) : c ≠ [] ∧ slash ∉ c := by
  obtain ⟨hmem, hne⟩ := List.mem_filter.mp h
  exact ⟨by simpa using hne, slash_notMem_splitOn hmem⟩

theorem mem_reduce (h : c ∈ reduce path) : c ∈ components path := by
  rw [reduce, List.mem_reverse] at h
  exact (mem_foldl_cancel h).resolve_left List.not_mem_nil

theorem reduce_plain (path : Bytes) : ∀ c ∈ reduce path, c ≠ [] ∧ slash ∉ c :=
  fun _ hc => component_plain (mem_reduce hc)

theorem components_join (ends : Bool) (hout : ∀ c ∈ out, c ≠ [] ∧ slash ∉ c) :
    components (join ends out) = out := by
  induction out with
  | nil => exact components_nil
  | cons c out ih =>
    obtain ⟨hne, hplain⟩ := hout c List.mem_cons_self
    have hrest := ih fun d hd => hout d (List.mem_cons_of_mem c hd)
    by_cases hlast : out = []
    · have hcut : Cut c (if ends then [slash] else []) := by
        refine ⟨hne, hplain, ?_⟩
        cases ends
        · exact .inl rfl
        · exact .inr rfl
      have hjoin : join ends [c] = c ++ if ends then [slash] else [] := by
        cases ends <;> simp [join]
      rw [hlast, hjoin, components_name hcut, components_afterSlashes]
      cases ends <;> simp
    · have hcut : Cut c (slash :: join ends out) := ⟨hne, hplain, .inr rfl⟩
      rw [join_cons _ _ hlast, components_name hcut, components_afterSlashes, components_slash,
        hrest]

theorem components_join_reduce (ends : Bool) (path : Bytes) :
    components (join ends (reduce path)) = reduce path :=
  components_join ends (reduce_plain path)

theorem join_head (ends : Bool) (hout : ∀ c ∈ out, c ≠ [] ∧ slash ∉ c) :
    (join ends out).head? ≠ some slash := by
  cases out with
  | nil => simp [join]
  | cons c out =>
    obtain ⟨hne, hplain⟩ := hout c List.mem_cons_self
    obtain ⟨d, c, rfl⟩ := List.exists_cons_of_ne_nil hne
    have hd : d ≠ slash := fun heq => hplain (by simp [heq])
    by_cases hlast : out = []
    · cases ends <;> simp [hlast, join, hd]
    · simp [join_cons _ _ hlast, hd]

theorem join_getLast (ends : Bool) (hout : ∀ c ∈ out, c ≠ [] ∧ slash ∉ c) (hne : out ≠ []) :
    (join ends out).getLast? = some slash ↔ ends := by
  induction out with
  | nil => exact absurd rfl hne
  | cons c out ih =>
    obtain ⟨_, hplain⟩ := hout c List.mem_cons_self
    have hrest : ∀ d ∈ out, d ≠ [] ∧ slash ∉ d := fun d hd => hout d (List.mem_cons_of_mem c hd)
    by_cases hlast : out = []
    · cases ends with
      | true => simp [hlast, join]
      | false =>
        have hnot : c.getLast? ≠ some slash := fun h => hplain (List.mem_of_getLast? h)
        simpa [hlast, join] using hnot
    · have hjoin : join ends out ≠ [] :=
        mt (join_eq_nil ends fun d hd => (hrest d hd).1).mp hlast
      obtain ⟨d, rest, heq⟩ := List.exists_cons_of_ne_nil hjoin
      have hih := ih hrest hlast
      rw [heq] at hih
      rw [join_cons _ _ hlast, heq, List.getLast?_append, List.getLast?_cons_cons, ← hih,
        List.getLast?_eq_some_getLast (List.cons_ne_nil d rest)]
      rfl

end Join

section Reduce
variable {path c : Bytes} {stack : List Bytes}

/-- A stack that comes about again when its components are put on it one by one. -/
def Settled (stack : List Bytes) : Prop := stack.reverse.foldl cancel [] = stack

theorem Settled.cons (h : Settled stack) (hpush : cancel stack c = c :: stack) :
    Settled (c :: stack) := by
  unfold Settled at *
  rw [List.reverse_cons, List.foldl_append, h, List.foldl_cons, List.foldl_nil, hpush]

theorem Settled.tail (h : Settled (c :: stack)) (hname : IsName c) : Settled stack := by
  unfold Settled at *
  rw [List.reverse_cons, List.foldl_append, List.foldl_cons, List.foldl_nil,
    cancel_name hname] at h
  exact (List.cons_eq_cons.mp h).2

theorem Settled.cancel (h : Settled stack) (c : Bytes) : Settled (cancel stack c) := by
  by_cases hd : c = [dot]
  · rw [hd, cancel_dot]
    exact h
  · by_cases hdd : c = [dot, dot]
    · cases stack with
      | nil =>
        rw [hdd]
        exact rfl
      | cons top stack =>
        by_cases hname : IsName top
        · rw [hdd, cancel_dotDot hname]
          exact h.tail hname
        · have hpush : PathNormal.cancel (top :: stack) c = c :: top :: stack := by
            simp [PathNormal.cancel, hdd, hname]
          rw [hpush]
          exact h.cons hpush
    · have hpush : PathNormal.cancel stack c = c :: stack := cancel_name ⟨hd, hdd⟩
      rw [hpush]
      exact h.cons hpush

theorem settled_foldl (cs : List Bytes) (h : Settled stack) : Settled (cs.foldl cancel stack) := by
  induction cs generalizing stack with
  | nil => exact h
  | cons c cs ih => exact ih (h.cancel c)

/-- What is left of what is left. -/
theorem reduce_join_reduce (ends : Bool) (path : Bytes) :
    reduce (join ends (reduce path)) = reduce path := by
  have hsettled : Settled ((components path).foldl cancel []) := settled_foldl _ rfl
  rw [reduce, components_join_reduce, reduce, hsettled]

/-- The last component stays if it is a name. -/
theorem reduce_getLast (hlast : (components path).getLast? = some c) (hname : IsName c) :
    (reduce path).getLast? = some c := by
  obtain ⟨before, hsplit⟩ := List.getLast?_eq_some_iff.mp hlast
  rw [reduce, hsplit, List.foldl_append, List.foldl_cons, List.foldl_nil, cancel_name hname,
    List.reverse_cons, List.getLast?_append]
  rfl

theorem endsOpen_join_reduce (hne : reduce path ≠ []) :
    EndsOpen (join (EndsOpen path) (reduce path)) ↔ EndsOpen path := by
  have hslash := join_getLast (EndsOpen path) (reduce_plain path) hne
  constructor
  · rintro (hend | ⟨c, hlast, hnot⟩)
    · simpa using hslash.mp hend
    · rw [components_join_reduce] at hlast
      by_contra hends
      have hcomp : components path ≠ [] := by
        intro hempty
        exact hne (by simp [reduce, hempty])
      have hlast' := List.getLast?_eq_some_getLast hcomp
      have hname : IsName ((components path).getLast hcomp) := by
        by_contra hopen
        exact hends (.inr ⟨_, hlast', hopen⟩)
      rw [reduce_getLast hlast' hname, Option.mem_some_iff] at hlast
      exact hnot (hlast ▸ hname)
  · intro hends
    exact .inl (hslash.mpr (by simpa using hends))

theorem normalForm_relative (hhead : path.head? ≠ some slash) :
    normalForm path =
      if reduce path = [] then [dot, slash] else join (EndsOpen path) (reduce path) := by
  unfold normalForm
  rw [if_neg hhead]

theorem normalForm_head (hhead : path.head? ≠ some slash) :
    (normalForm path).head? ≠ some slash := by
  rw [normalForm_relative hhead]
  split_ifs
  · decide
  · exact join_head _ (reduce_plain path)

theorem NamesPlain.normalForm (hplain : NamesPlain path) (hhead : path.head? ≠ some slash) :
    NamesPlain (normalForm path) := by
  rw [normalForm_relative hhead]
  split_ifs
  · unfold NamesPlain
    decide
  · intro c hc
    rw [components_join_reduce] at hc
    exact hplain c (mem_reduce hc)

theorem normalForm_normalForm (hhead : path.head? ≠ some slash) :
    normalForm (normalForm path) = normalForm path := by
  by_cases hempty : reduce path = []
  · rw [normalForm_relative hhead, if_pos hempty]
    decide
  · have hends := endsOpen_join_reduce hempty
    have hform := normalForm_relative hhead
    rw [if_neg hempty] at hform
    rw [normalForm_relative (normalForm_head hhead), hform, reduce_join_reduce, if_neg hempty]
    simp only [hends]

end Reduce

/-- `normalize_path` leaves what it leaves of a relative path. -/
theorem normalize_path_idempotent {fuel : ℕ} {path : Bytes} (hhead : path.head? ≠ some slash)
    (hfuel : path.length + 1 < fuel) :
    ∃ result, normalizePath fuel path = some result ∧ ∀ fuel', result.length + 1 < fuel' →
      normalizePath fuel' result = some result := by
  have hlen := readAs_length_le path
  have hrun := normalizePath_relative (namesPlain_readAs path) (readAs_head hhead)
    (show (readAs path).length + 1 < fuel by omega)
  rw [normalizePath_readAs] at hrun
  refine ⟨_, hrun, fun fuel' hfuel' => ?_⟩
  have hplain := (namesPlain_readAs path).normalForm (readAs_head hhead)
  rw [normalizePath_relative hplain (normalForm_head (readAs_head hhead)) hfuel',
    normalForm_normalForm (readAs_head hhead)]

/-- `a/.../../..git//b`. -/
def dotted : Bytes :=
  [97, slash, dot, dot, dot, slash, dot, dot, slash, dot, dot, 103, slash, slash, 98]

theorem normalize_path_idempotent_dotted :
    ∃ result, normalizePath 17 dotted = some result ∧ ∀ fuel', result.length + 1 < fuel' →
      normalizePath fuel' result = some result :=
  normalize_path_idempotent (by decide) (by decide)

end Acos.PathNormal
