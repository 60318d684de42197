import Acos.HttpServer.Processes
import Acos.PathNormal.Correct
import Mathlib.Data.List.Induction

/-! Where the path of a response leads. `make_response` joins the base directory and the token
of the request as they are, so every `..` that the token cannot cancel with a name of its own
leads out of the base directory. -/
namespace Acos.HttpServer
open Acos.CString Acos.PathNormal

def normalizeBasePath (base_path : Bytes) : Bytes :=
  if base_path.getLast? = some slash then base_path.dropLast else base_path

def dotDot : Bytes := [dot, dot]

/-- The components that a path resolves to; above the root there is the root again. -/
def resolve (path : Bytes) : List Bytes :=
  if path.head? = some slash then (reduce path).dropWhile (· = dotDot) else reduce path

/-- The path leads through names only from where the directory is. -/
def Inside (directory path : Bytes) : Prop :=
  ∃ names, (∀ c ∈ names, IsName c) ∧ resolve path = resolve directory ++ names

/-- `/..`, as often as `k` says. -/
def ups (k : ℕ) : Bytes := (List.replicate k (slash :: dotDot)).flatten

section Reduce
variable {stack : List Bytes}

theorem components_append (path path' : Bytes) :
    components (path ++ slash :: path') = components path ++ components path' := by
  unfold components
  rw [List.splitOn_append_cons_self, List.filter_append]

theorem components_slash (path : Bytes) : components (slash :: path) = components path :=
  components_append [] path

theorem components_ups (path : Bytes) (k : ℕ) :
    components (path ++ ups k) = components path ++ List.replicate k dotDot := by
  induction k generalizing path with
  | zero => simp [ups]
  | succ k ih =>
    have hsplit : path ++ ups (k + 1) = (path ++ slash :: dotDot) ++ ups k := by
      simp [ups, List.replicate_succ]
    have hdots : components dotDot = [dotDot] := by decide
    rw [hsplit, ih, components_append, hdots, List.append_assoc, List.singleton_append,
      List.replicate_succ]

/-- The surplus of `..` in the components is cancelled with the stack below; the names that are
left stay above it. -/
theorem foldl_cancel_surplus (cs : List Bytes) :
    ∃ k names, (∀ c ∈ names, IsName c) ∧ ∀ stack,
      cs.foldl cancel stack = names ++ (List.replicate k dotDot).foldl cancel stack := by
  induction cs using List.reverseRecOn with
  | nil => exact ⟨0, [], by simp, fun stack => rfl⟩
  | append_singleton cs c ih =>
    obtain ⟨k, names, hnames, hfold⟩ := ih
    by_cases hdot : c = [dot]
    · refine ⟨k, names, hnames, fun stack => ?_⟩
      rw [List.foldl_append, hfold, hdot]
      exact cancel_dot _
    by_cases hup : c = dotDot
    · cases names with
      | nil =>
        refine ⟨k + 1, [], by simp, fun stack => ?_⟩
        rw [List.foldl_append, hfold, hup, List.replicate_succ', List.foldl_append]
        rfl
      | cons name names =>
        refine ⟨k, names, fun d hd => hnames d (by simp [hd]), fun stack => ?_⟩
        rw [List.foldl_append, hfold, hup]
        exact cancel_dotDot (hnames name (by simp))
    · refine ⟨k, c :: names, ?_, fun stack => ?_⟩
      · intro d hd
        rcases List.mem_cons.mp hd with heq | hd
        · rw [heq]
          exact ⟨hdot, hup⟩
        · exact hnames d hd
      · rw [List.foldl_append, hfold]
        exact cancel_name ⟨hdot, hup⟩

theorem foldl_cancel_ups (k : ℕ) :
    (List.replicate k dotDot).foldl cancel [] = List.replicate k dotDot := by
  induction k with
  | zero => rfl
  | succ k ih =>
    rw [List.replicate_succ', List.foldl_append, ih, ← List.replicate_succ']
    exact cancel_dotDot_replicate k

/-- A path behind a directory: names, after as many `..` as the path has too many. -/
theorem reduce_append (path : Bytes) :
    ∃ k names, reduce path = List.replicate k dotDot ++ names ∧ (∀ c ∈ names, IsName c) ∧
      ∀ directory, reduce (directory ++ slash :: path) = reduce (directory ++ ups k) ++ names := by
  obtain ⟨k, names, hnames, hfold⟩ := foldl_cancel_surplus (components path)
  refine ⟨k, names.reverse, ?_, ?_, ?_⟩
  · rw [reduce, hfold, foldl_cancel_ups, List.reverse_append, List.reverse_replicate]
  · intro c hc
    exact hnames c (List.mem_reverse.mp hc)
  · intro directory
    rw [reduce, reduce, components_append, components_ups, List.foldl_append, List.foldl_append,
      hfold, List.reverse_append]

end Reduce

theorem dropWhile_dotDot_append {names : List Bytes} (hnames : ∀ c ∈ names, IsName c)
    (cs : List Bytes) :
    (cs ++ names).dropWhile (· = dotDot) = cs.dropWhile (· = dotDot) ++ names := by
  induction cs with
  | nil =>
    cases names with
    | nil => rfl
    | cons name names =>
      have hne : name ≠ dotDot := (hnames name (by simp)).2
      simp [hne]
  | cons c cs ih =>
    by_cases hc : c = dotDot
    · simp [hc, ih]
    · simp [hc]

theorem reduce_slash (path : Bytes) : reduce (slash :: path) = reduce path := by
  rw [reduce, components_slash, reduce]

theorem components_normalizeBasePath (base_path : Bytes) :
    components (normalizeBasePath base_path) = components base_path := by
  unfold normalizeBasePath
  split_ifs with hlast
  · have hsplit := List.dropLast_append_getLast? slash hlast
    have hempty : components [] = [] := rfl
    nth_rewrite 2 [← hsplit]
    rw [components_append, hempty, List.append_nil]
  · rfl

theorem head?_normalizeBasePath {base_path : Bytes} (hne : base_path ≠ []) (path : Bytes) :
    (normalizeBasePath base_path ++ slash :: path).head? = some slash ↔
      base_path.head? = some slash := by
  obtain ⟨c, rest, rfl⟩ := List.exists_cons_of_ne_nil hne
  unfold normalizeBasePath
  split_ifs with hlast
  · cases rest with
    | nil =>
      rw [List.getLast?_singleton] at hlast
      simp [hlast]
    | cons d rest => simp
  · simp

theorem readRequestHead_length {request filename : Bytes}
    (h : readRequestHead request = some filename) : 1 < filename.length := by
  unfold readRequestHead at h
  split at h
  · cases h
  · split_ifs at h
    split at h
    · cases h
    · split_ifs at h
      split at h
      · cases h
      · split_ifs at h
        cases h
        omega

/-- The target and the path have room in `filename` and in `filepath`. -/
def Fits (base_path filename : Bytes) : Prop :=
  filename.length < MAX_FILENAME_LEN ∧
    (base_path ++ slash :: skipSlash filename).length < MAX_FILEPATH_LEN

/-- The path that the process hands to its next call: `stat`, `execl` or `open`. -/
def Pc.path : Pc → Option Bytes
  | .stat filepath => some filepath
  | .exec filepath => some filepath
  | .openFile filepath => some filepath
  | _ => none

/-- Where the server and its child can be while they answer one request, whatever the calls of the
system find. -/
inductive Responding (base_path filename : Bytes) : Pc → Prop where
  | call : Responding base_path filename (makeResponse base_path filename)
  | act {p p' : Process} {a : Act} (h : Responding base_path filename p.pc)
      (hin : p.pc ≠ .checkStop) (hact : act base_path p a = some p') :
      Responding base_path filename p'.pc
  | parent {filepath : Bytes} {readEnd : ℕ} (child : ℤ)
      (h : Responding base_path filename (.fork filepath readEnd)) :
      Responding base_path filename (.storeChild child readEnd)
  | child {filepath : Bytes} {readEnd : ℕ}
      (h : Responding base_path filename (.fork filepath readEnd)) :
      Responding base_path filename (.exec filepath)

/-- The places of an answer, with no other path in them. -/
def Pc.Names (path : Bytes) : Pc → Prop
  | .stat filepath | .pipe filepath | .fork filepath _ | .exec filepath | .openFile filepath =>
    filepath = path
  | .accept | .readRequest => False
  | _ => True

section Paths
variable {base_path request filename path : Bytes} {pc : Pc}

/-- The path of an accepted request. -/
theorem makeResponse_eq (base_path : Bytes) (h : readRequestHead request = some filename) :
    makeResponse base_path filename = .stat (base_path ++ slash :: skipSlash filename) := by
  have hlen := readRequestHead_length h
  have hskip := (skipSlash_length filename).2
  unfold makeResponse
  dsimp only
  rw [if_neg (by omega)]
  rfl

theorem reduce_skipSlash (filename : Bytes) : reduce (skipSlash filename) = reduce filename := by
  unfold skipSlash
  split
  next rest => exact (reduce_slash rest).symm
  · rfl

theorem Pc.Names.path_eq (h : pc.Names path) {filepath : Bytes} (hpath : pc.path = some filepath) :
    filepath = path := by
  cases pc with
  | stat | exec | openFile =>
    obtain rfl := Option.some.inj hpath
    exact h
  | _ => cases hpath

theorem afterStat_names (path : Bytes) (result : StatResult) :
    (afterStat path result).Names path := by
  cases result with
  | failed => trivial
  | found st_mode =>
    rw [afterStat]
    split_ifs
    · trivial
    · exact rfl
    · exact rfl

theorem afterReturn_names (f : Func) (value : ℤ) : (afterReturn f value).Names path := by
  cases f with
  | execute_file =>
    rw [afterReturn]
    split_ifs
    · trivial
    · trivial
  | make_response => trivial
  | handle_request => trivial

/-- A step hands the path on. -/
theorem act_names {p p' : Process} {a : Act} (h : p.pc.Names path) (hin : p.pc ≠ .checkStop)
    (hact : act base_path p a = some p') : p'.pc.Names path := by
  unfold act at hact
  split at hact
  case h_1 heq => exact absurd heq hin
  case h_2 heq =>
    rw [heq] at h
    exact h.elim
  case h_3 heq =>
    rw [heq] at h
    exact h.elim
  case h_4 filepath result heq =>
    cases hact
    rw [heq] at h
    obtain rfl : filepath = path := h
    exact afterStat_names _ _
  case h_6 heq =>
    cases hact
    rw [heq] at h
    exact h
  case h_8 =>
    cases hact
    dsimp only
    split_ifs
    · trivial
    · trivial
  case h_10 =>
    cases hact
    dsimp only
    split_ifs
    · trivial
    · trivial
  case h_11 =>
    split_ifs at hact
    cases hact
    trivial
  case h_12 =>
    cases hact
    exact afterReturn_names _ _
  case h_13 => cases hact
  -- the other calls leave no path behind
  all_goals
    cases hact
    trivial

theorem Responding.names (hhead : readRequestHead request = some filename)
    (h : Responding base_path filename pc) :
    pc.Names (base_path ++ slash :: skipSlash filename) := by
  induction h with
  | call =>
    rw [makeResponse_eq base_path hhead]
    exact rfl
  | act _ hin hact ih => exact act_names ih hin hact
  | parent child _ _ => trivial
  | child _ ih => exact ih

end Paths

/-- What every accepted request that fits the arrays leads to: one path, of which the system is
asked for the attributes and which is opened or executed. It goes from the base directory up once
for each `..` that the token has too many, and then down the names that are left of the token. -/
theorem response_path_resolved (base_dir request filename : Bytes) (hbase : base_dir ≠ [])
    (hhead : readRequestHead request = some filename)
    (hfits : Fits (normalizeBasePath base_dir) filename) :
    ∃ filepath k names, filepath = normalizeBasePath base_dir ++ slash :: skipSlash filename ∧
      filename.length < MAX_FILENAME_LEN ∧ filepath.length < MAX_FILEPATH_LEN ∧
      makeResponse (normalizeBasePath base_dir) filename = .stat filepath ∧
      (∀ pc path, Responding (normalizeBasePath base_dir) filename pc → pc.path = some path →
        path = filepath) ∧
      reduce filename = List.replicate k dotDot ++ names ∧ (∀ c ∈ names, IsName c) ∧
      resolve filepath = resolve (base_dir ++ ups k) ++ names ∧
      (k = 0 → Inside base_dir filepath) := by
  obtain ⟨k, names, hreduce, hnames, hjoined⟩ := reduce_append (skipSlash filename)
  have hresolve : resolve (normalizeBasePath base_dir ++ slash :: skipSlash filename) =
      resolve (base_dir ++ ups k) ++ names := by
    have hsame : reduce (normalizeBasePath base_dir ++ ups k) = reduce (base_dir ++ ups k) := by
      rw [reduce, reduce, components_ups, components_ups, components_normalizeBasePath]
    have hroot : (base_dir ++ ups k).head? = base_dir.head? := by
      rw [List.head?_append_of_ne_nil _ hbase]
    unfold resolve
    rw [hjoined, hsame, hroot]
    by_cases habs : base_dir.head? = some slash
    · rw [if_pos ((head?_normalizeBasePath hbase (skipSlash filename)).mpr habs), if_pos habs,
        dropWhile_dotDot_append hnames]
    · rw [if_neg (mt (head?_normalizeBasePath hbase (skipSlash filename)).mp habs), if_neg habs]
  refine ⟨_, k, names, rfl, hfits.1, hfits.2, makeResponse_eq _ hhead, ?_, ?_, hnames, hresolve, ?_⟩
  · exact fun pc path hpc hpath => (hpc.names hhead).path_eq hpath
  · rw [← reduce_skipSlash, hreduce]
  · intro hk
    rw [hk] at hresolve
    refine ⟨names, hnames, ?_⟩
    rw [hresolve]
    simp [ups]

/-- `GET /a HTTP/1.1` and a blank line, for the directory `b/`. -/
def plainRequest : Bytes :=
  [71, 69, 84, 32, 47, 97, 32, 72, 84, 84, 80, 47, 49, 46, 49, 13, 10, 13, 10]

theorem response_path_plain :
    ∃ filepath k names, filepath = normalizeBasePath [98, 47] ++ slash :: skipSlash [47, 97] ∧
      [47, 97].length < MAX_FILENAME_LEN ∧ filepath.length < MAX_FILEPATH_LEN ∧
      makeResponse (normalizeBasePath [98, 47]) [47, 97] = .stat filepath ∧
      (∀ pc path, Responding (normalizeBasePath [98, 47]) [47, 97] pc → pc.path = some path →
        path = filepath) ∧
      reduce [47, 97] = List.replicate k dotDot ++ names ∧ (∀ c ∈ names, IsName c) ∧
      resolve filepath = resolve ([98, 47] ++ ups k) ++ names ∧
      (k = 0 → Inside [98, 47] filepath) :=
  response_path_resolved [98, 47] plainRequest [47, 97] (List.cons_ne_nil _ _) (by decide)
    ⟨by decide, by decide⟩

/-- `GET /../a HTTP/1.1` and a blank line. -/
def climbingRequest : Bytes :=
  [71, 69, 84, 32, 47, 46, 46, 47, 97, 32, 72, 84, 84, 80, 47, 49, 46, 49, 13, 10, 13, 10]

theorem response_path_outside : ¬ ∀ base_dir request filename filepath, base_dir ≠ [] →
    readRequestHead request = some filename →
    makeResponse (normalizeBasePath base_dir) filename = .stat filepath →
      Inside base_dir filepath := by
  intro hall
  obtain ⟨names, -, hnames⟩ := hall [98] climbingRequest [47, 46, 46, 47, 97]
    [98, 47, 46, 46, 47, 97] (List.cons_ne_nil _ _) (by decide) (by decide)
  have hpath : resolve [98, 47, 46, 46, 47, 97] = [[97]] := by decide
  have hbase : resolve [98] = [[98]] := by decide
  rw [hpath, hbase] at hnames
  simp at hnames

end Acos.HttpServer
