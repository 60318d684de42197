import Acos.Lib.Lists
import Acos.MergeFs.Model

/-! Listing a directory: the table of `custom_readdir` holds the first distinct names that the
layers deliver, up to its size, and exactly these are reported. -/
namespace Acos.MergeFs
open Acos.CString Acos.Lists

/-- A name that does not begin with a dot. -/
def Visible (entity : EntryName) : Prop := entity.bytes.head? ≠ some 46

instance (entity : EntryName) : Decidable (Visible entity) :=
  inferInstanceAs (Decidable (entity.bytes.head? ≠ some 46))

/-- The visible names among the entries of a directory. -/
def visibleNames (entities : List EntryName) : List Bytes :=
  (entities.filter fun entity => decide (Visible entity)).map EntryName.bytes

/-- The visible names of all the layers that can be opened, in the order of their delivery. -/
def deliveredNames (kernel : Kernel) (directories : List Bytes) (path_ : Bytes) : List Bytes :=
  directories.flatMap fun directory =>
    visibleNames ((kernel.opendir (directory ++ path_)).getD [])

/-- The table with these names in its first slots. -/
def table (names : List Bytes) : List Bytes :=
  names ++ List.replicate (max_number_of_files - names.length) []

/-- What is reported of the names delivered so far. -/
def reported (names : List Bytes) : List Bytes := names.eraseDups.take max_number_of_files

theorem strncmpEq_whole (slot path : Bytes) :
    strncmpEq slot path (path.length + 1) = decide (slot = path) := by
  unfold strncmpEq
  rw [List.take_of_length_le (Nat.le_succ path.length)]
  by_cases h : slot = path
  · rw [h, List.take_of_length_le (Nat.le_succ path.length)]
  · have htake : slot.take (path.length + 1) ≠ path := by
      intro heq
      have hlen := congrArg List.length heq
      rw [List.length_take] at hlen
      rw [List.take_of_length_le (by omega)] at heq
      exact h heq
    simp [h, htake]

/-- A new name takes the first free slot of the table, if there is one. -/
theorem checkNewFile_slots {names : List Bytes} (hnames : ∀ name ∈ names, name ≠ [])
    (path : Bytes) (free : ℕ) :
    checkNewFile path (names ++ List.replicate free []) =
      if path ∈ names then (names ++ List.replicate free [], false)
      else if 0 < free then (names ++ [path] ++ List.replicate (free - 1) [], true)
      else (names, false) := by
  induction names with
  | nil =>
    cases free with
    | zero => rfl
    | succ free => simp [List.replicate_succ, checkNewFile]
  | cons name names ih =>
    have hname := hnames name (by simp)
    have ih := ih fun n hn => hnames n (by simp [hn])
    rw [List.cons_append, checkNewFile, if_neg hname, strncmpEq_whole]
    by_cases heq : name = path
    · simp [heq]
    · have hne : ¬ path = name := fun h => heq h.symm
      simp only [heq, decide_false, Bool.false_eq_true, ↓reduceIte, ih, List.mem_cons, hne,
        false_or]
      split_ifs <;> simp

theorem reported_length_le (names : List Bytes) :
    (reported names).length ≤ max_number_of_files := by
  unfold reported
  rw [List.length_take]
  exact Nat.min_le_left _ _

theorem mem_of_mem_reported {names : List Bytes} {name : Bytes} (h : name ∈ reported names) :
    name ∈ names :=
  List.mem_eraseDups.mp (List.mem_of_mem_take h)

/-- One more name delivered. -/
theorem reported_concat (names : List Bytes) (path : Bytes) :
    reported (names ++ [path]) =
      if path ∈ reported names ∨ max_number_of_files ≤ (reported names).length then reported names
      else reported names ++ [path] := by
  have hlen : (reported names).length = min max_number_of_files names.eraseDups.length := by
    simp [reported]
  by_cases hfull : max_number_of_files ≤ names.eraseDups.length
  · rw [if_pos (by omega)]
    unfold reported
    by_cases hmem : path ∈ names
    · rw [eraseDups_concat_of_mem hmem]
    · rw [eraseDups_concat_of_notMem hmem, List.take_append_of_le_length hfull]
  · have hall : reported names = names.eraseDups := List.take_of_length_le (by omega)
    rw [hall, reported]
    simp only [List.mem_eraseDups]
    by_cases hmem : path ∈ names
    · rw [if_pos (Or.inl hmem), eraseDups_concat_of_mem hmem, List.take_of_length_le (by omega)]
    · rw [if_neg (by rw [not_or]; exact ⟨hmem, hfull⟩), eraseDups_concat_of_notMem hmem,
        List.take_of_length_le]
      rw [List.length_append, List.length_singleton]
      omega

/-- The table and the names for `filler` after some visible names have been delivered. -/
def after (names : List Bytes) : List Bytes × List Bytes :=
  (table (reported names), [46] :: [46, 46] :: reported names)

theorem after_nil : after [] = (List.replicate max_number_of_files [], [[46], [46, 46]]) := rfl

theorem checkNewFile_table {names : List Bytes} (hnames : ∀ name ∈ names, name ≠ [])
    (path : Bytes) :
    checkNewFile path (table (reported names)) =
      (table (reported (names ++ [path])),
        decide (path ∉ reported names ∧ (reported names).length < max_number_of_files)) := by
  have hle := reported_length_le names
  have hne : ∀ name ∈ reported names, name ≠ [] := fun name h => hnames name (mem_of_mem_reported h)
  unfold table
  rw [checkNewFile_slots hne, reported_concat]
  by_cases hmem : path ∈ reported names
  · simp [hmem]
  · by_cases hfree : (reported names).length < max_number_of_files
    · rw [if_neg hmem, if_pos (by omega), if_neg (by simp [hmem]; omega)]
      simp [hmem, hfree, Nat.sub_sub]
    · rw [if_neg hmem, if_neg (by omega), if_pos (Or.inr (by omega))]
      simp [hfree, show max_number_of_files - (reported names).length = 0 by omega]

theorem readEntity_after {names : List Bytes} (hnames : ∀ name ∈ names, name ≠ [])
    (entity : EntryName) :
    readEntity (after names) entity = after (names ++ visibleNames [entity]) := by
  unfold readEntity after
  by_cases hvisible : entity.bytes.head? ≠ some 46
  · have hone : visibleNames [entity] = [entity.bytes] := by simp [visibleNames, Visible, hvisible]
    simp only [ne_eq, hvisible, not_false_eq_true, ↓reduceIte, hone,
      checkNewFile_table hnames entity.bytes, decide_eq_true_eq]
    rw [reported_concat]
    by_cases hnew : entity.bytes ∉ reported names ∧ (reported names).length < max_number_of_files
    · rw [if_pos hnew, if_neg (by rw [not_or]; exact ⟨hnew.1, by omega⟩)]
      rfl
    · have hold : entity.bytes ∈ reported names ∨
          max_number_of_files ≤ (reported names).length := by
        by_contra hnot
        rw [not_or] at hnot
        exact hnew ⟨hnot.1, by omega⟩
      rw [if_neg hnew, if_pos hold]
  · have hnone : visibleNames [entity] = [] := by
      simp only [visibleNames, Visible, hvisible, List.filter_cons, decide_false,
        Bool.false_eq_true, ↓reduceIte, List.filter_nil, List.map_nil]
    simp only [hvisible, ↓reduceIte, hnone, List.append_nil]

theorem visibleNames_ne_nil {entities : List EntryName} {name : Bytes}
    (h : name ∈ visibleNames entities) : name ≠ [] := by
  obtain ⟨entity, -, rfl⟩ := List.mem_map.mp h
  exact entity.nonempty

theorem readEntities_after {names : List Bytes} (hnames : ∀ name ∈ names, name ≠ [])
    (entities : List EntryName) :
    entities.foldl readEntity (after names) = after (names ++ visibleNames entities) := by
  induction entities generalizing names with
  | nil => simp [visibleNames]
  | cons entity entities ih =>
    have hnext : ∀ name ∈ names ++ visibleNames [entity], name ≠ [] := by
      intro name hname
      rcases List.mem_append.mp hname with hname | hname
      · exact hnames name hname
      · exact visibleNames_ne_nil hname
    have hsplit : visibleNames (entity :: entities) =
        visibleNames [entity] ++ visibleNames entities := by
      unfold visibleNames
      rw [← List.map_append, ← List.filter_append]
      rfl
    rw [List.foldl_cons, readEntity_after hnames, ih hnext, List.append_assoc, hsplit]

theorem readLayers_after {kernel : Kernel} {path_ : Bytes} {directories names : List Bytes}
    (hfits : ∀ directory ∈ directories, (directory ++ path_).length < max_path_size)
    (hnames : ∀ name ∈ names, name ≠ []) :
    readLayers kernel path_ directories (after names) =
      some (after (names ++ deliveredNames kernel directories path_)) := by
  induction directories generalizing names with
  | nil => simp [readLayers, deliveredNames]
  | cons directory directories ih =>
    have hshort := hfits directory (by simp)
    have hrest : ∀ d ∈ directories, (d ++ path_).length < max_path_size :=
      fun d hd => hfits d (by simp [hd])
    have hlayer : deliveredNames kernel (directory :: directories) path_ =
        visibleNames ((kernel.opendir (directory ++ path_)).getD []) ++
          deliveredNames kernel directories path_ := by
      simp [deliveredNames]
    rw [readLayers, if_neg (by omega), hlayer]
    cases hopen : kernel.opendir (directory ++ path_) with
    | none =>
      simp only [Option.getD_none]
      rw [ih hrest hnames]
      rfl
    | some entities =>
      simp only [Option.getD_some]
      rw [readEntities_after hnames, ih hrest, List.append_assoc]
      intro name hname
      rcases List.mem_append.mp hname with hname | hname
      · exact hnames name hname
      · exact visibleNames_ne_nil hname

/-- A visible entry of that name is in at least one layer. -/
def OccursIn (kernel : Kernel) (directories : List Bytes) (path_ name : Bytes) : Prop :=
  ∃ directory ∈ directories, ∃ entities, kernel.opendir (directory ++ path_) = some entities ∧
    ∃ entity ∈ entities, Visible entity ∧ entity.bytes = name

theorem mem_deliveredNames {kernel : Kernel} {directories : List Bytes} {path_ name : Bytes} :
    name ∈ deliveredNames kernel directories path_ ↔ OccursIn kernel directories path_ name := by
  have hnames (entities : List EntryName) : name ∈ visibleNames entities ↔
      ∃ entity ∈ entities, Visible entity ∧ entity.bytes = name := by
    simp [visibleNames, and_assoc]
  unfold deliveredNames OccursIn
  simp only [List.mem_flatMap, hnames]
  apply exists_congr
  intro directory
  apply and_congr_right
  intro _
  cases kernel.opendir (directory ++ path_) <;> simp

/-- Where the paths fit their buffers, the reported names are the first `max_number_of_files`
distinct visible ones that the layers deliver, in that order; so they are all of them if there
are no more. -/
theorem readdir_reports {kernel : Kernel} {fs : FileSystem} {path : Bytes}
    (hpath : path.length < max_path_size)
    (hfits : ∀ directory ∈ fs.directories,
      (directory ++ readdirPath path).length < max_path_size) :
    ∃ names, customReaddir kernel fs path = some ([46] :: [46, 46] :: names) ∧
      names = (deliveredNames kernel fs.directories (readdirPath path)).eraseDups.take
        max_number_of_files ∧ names.Nodup ∧
      (∀ name ∈ names, OccursIn kernel fs.directories (readdirPath path) name) ∧
      ((deliveredNames kernel fs.directories (readdirPath path)).eraseDups.length ≤
          max_number_of_files →
        ∀ name, OccursIn kernel fs.directories (readdirPath path) name → name ∈ names) := by
  refine ⟨reported (deliveredNames kernel fs.directories (readdirPath path)), ?_, rfl, ?_, ?_, ?_⟩
  · rw [customReaddir, if_neg (by omega), ← after_nil, readLayers_after hfits (by simp)]
    rfl
  · exact (nodup_eraseDups _).sublist (List.take_sublist _ _)
  · intro name hname
    exact mem_deliveredNames.mp (mem_of_mem_reported hname)
  · intro hfew name hname
    unfold reported
    rw [List.take_of_length_le hfew, List.mem_eraseDups]
    exact mem_deliveredNames.mpr hname

/-- A name of one byte. -/
def letter (c : UInt8) (h : c ≠ 0) : EntryName :=
  ⟨[c], by simp, by simpa using h, by simp [max_path_size]⟩

/-- One layer `l`, with these entries at its top. -/
def oneLayer (entities : List EntryName) : Kernel where
  stat _ := .error ⟨ENOENT, by decide⟩
  openFile _ := .error ⟨ENOENT, by decide⟩
  opendir path := if path = [108] then some entities else none

theorem oneLayer_few : [([108] : Bytes)].length ≤ max_number_of_files := by decide

theorem oneLayer_short : ∀ directory ∈ [([108] : Bytes)], directory.length < max_path_size := by
  simp [max_path_size]

def oneLayerSystem : FileSystem := ⟨[[108]], oneLayer_few, oneLayer_short⟩

theorem readdir_two_entries :
    ∃ names, customReaddir (oneLayer [letter 97 (by decide), letter 98 (by decide)]) oneLayerSystem
      [47] = some ([46] :: [46, 46] :: names) ∧ names.Nodup := by
  obtain ⟨names, hnames, -, hnodup, -⟩ :=
    @readdir_reports (oneLayer [letter 97 (by decide), letter 98 (by decide)]) oneLayerSystem [47]
      (by decide) (by decide)
  exact ⟨names, hnames, hnodup⟩

/-- 101 names, the bytes from 100 to 200. -/
def manyNames : List EntryName :=
  (List.finRange 101).map fun k => letter (UInt8.ofNat (k.val + 100)) (by
    intro h
    have hval := congrArg UInt8.toNat h
    rw [UInt8.toNat_ofNat', UInt8.toNat_zero] at hval
    omega)

/-- The 101st distinct name is not reported. -/
theorem readdir_many_names :
    OccursIn (oneLayer manyNames) oneLayerSystem.directories (readdirPath [47]) [200] ∧
      customReaddir (oneLayer manyNames) oneLayerSystem [47] =
        some ([46] :: [46, 46] :: (List.range 100).map fun k => [UInt8.ofNat (k + 100)]) ∧
      [200] ∉ (List.range 100).map fun k => [UInt8.ofNat (k + 100)] := by
  refine ⟨?_, by decide +kernel, by decide +kernel⟩
  apply mem_deliveredNames.mp
  decide +kernel

end Acos.MergeFs
