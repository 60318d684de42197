import Acos.GccOutput.Model
import Mathlib.Data.Finset.Card
import Mathlib.Order.Interval.Finset.Nat

/-! The lines with errors are counted by comparing each one with the last, so a line that comes up
again after another one is counted again. Of the form of a diagnostic only a part is compared. -/
namespace Acos.GccOutput
open Acos.CString Acos.MachineInt Acos.Scanf

inductive Kind where
  | error
  | warning
  deriving DecidableEq

def Kind.text : Kind → Bytes
  | .error => errorText
  | .warning => warningText

/-- `file:line:column: error ...` -/
def diagnosticText (program_name : Bytes) (kind : Kind) (line column : ℕ) (text : Bytes) : Bytes :=
  program_name ++ 58 :: (decimal line ++ 58 :: (decimal column ++ 58 :: 32 :: (kind.text ++ text)))

/-- The text has the form of a diagnostic; its line number is that of a source line in C. -/
def IsDiagnostic (program_name text : Bytes) : Prop :=
  ∃ kind line column rest, 0 < line ∧ line < 2 ^ 31 ∧
    text = diagnosticText program_name kind line column rest

/-- A line that the compiler prints: a diagnostic, or one that has not that form. -/
inductive Item (program_name : Bytes) where
  | diagnostic (kind : Kind) (line column : ℕ) (text after : Bytes) (pos : 0 < line)
      (fits : line < 2 ^ 31)
  | other (line : Line) (form : ¬ IsDiagnostic program_name line.text)

def Item.line {program_name : Bytes} : Item program_name → Line
  | .diagnostic kind line column text after _ _ =>
    ⟨diagnosticText program_name kind line column text, after⟩
  | .other line _ => line

/-- The line number of a diagnostic of the kind. -/
def Item.number {program_name : Bytes} (kind : Kind) : Item program_name → Option ℕ
  | .diagnostic k line _ _ _ _ _ => if k = kind then some line else none
  | .other _ _ => none

/-- The line numbers of the diagnostics of a kind, in their order. -/
def numbers {program_name : Bytes} (kind : Kind) (items : List (Item program_name)) : List ℕ :=
  items.filterMap (Item.number kind)

/-- How many source lines have a diagnostic of the kind. -/
def sourceLines {program_name : Bytes} (kind : Kind) (items : List (Item program_name)) : ℕ :=
  (numbers kind items).toFinset.card

/-- The number that the loop reads in a line which it takes for one of the kind. -/
def readAs (program_name : Bytes) (kind : Kind) (line : Line) : Option ℤ :=
  (message program_name line.buffer).bind fun (str_no, line_ptr) =>
    if strncmpEq line_ptr kind.text kind.text.length then some str_no else none

/-- The numbers read in all lines that are taken for ones of the kind. -/
def readings {program_name : Bytes} (kind : Kind) (items : List (Item program_name)) : List ℤ :=
  items.filterMap fun item => readAs program_name kind item.line

/-- How many numbers but -1 are read in other lines only. -/
def misread {program_name : Bytes} (kind : Kind) (items : List (Item program_name)) : ℕ :=
  ((readings kind items).toFinset \
    insert (-1) ((numbers kind items).toFinset.image Nat.cast)).card

/-- How often a number comes up again after another one; `seen` holds those before, the last one
first. -/
def returns : List ℤ → List ℤ → ℕ
  | _, [] => 0
  | seen, x :: xs => (if x ∈ seen ∧ seen.head? ≠ some x then 1 else 0) + returns (x :: seen) xs

/-- How often a number differs from the one before it. -/
def changes : ℤ → List ℤ → ℕ
  | _, [] => 0
  | last, x :: xs => (if x ≠ last then 1 else 0) + changes x xs

section
variable {program_name : Bytes}

/-- A number that is not the one before it is new, or it returns. -/
theorem changes_eq (last : ℤ) (seen xs : List ℤ) :
    changes last xs =
      (xs.toFinset \ (last :: seen).toFinset).card + returns (last :: seen) xs := by
  induction xs generalizing last seen with
  | nil => simp [changes, returns]
  | cons x xs ih =>
    have hseen : (x :: last :: seen).toFinset = insert x (last :: seen).toFinset :=
      List.toFinset_cons
    have hall : (x :: xs).toFinset = insert x xs.toFinset := List.toFinset_cons
    have hhead : (last :: seen).head? ≠ some x ↔ x ≠ last := by simp [eq_comm]
    rw [changes, returns, ih x (last :: seen), hseen, hall, Finset.sdiff_insert]
    simp only [hhead]
    by_cases hx : x ∈ last :: seen
    · have hmem : x ∈ (last :: seen).toFinset := List.mem_toFinset.mpr hx
      have hnot : x ∉ xs.toFinset \ (last :: seen).toFinset :=
        fun h => (Finset.mem_sdiff.mp h).2 hmem
      rw [Finset.insert_sdiff_of_mem _ hmem, Finset.erase_eq_of_notMem hnot]
      simp only [hx, true_and]
      omega
    · have hmem : x ∉ (last :: seen).toFinset := mt List.mem_toFinset.mp hx
      have hne : x ≠ last := fun h => hx (h ▸ List.mem_cons_self)
      have hcard := Finset.card_erase_add_one
        (Finset.mem_insert_self x (xs.toFinset \ (last :: seen).toFinset))
      rw [Finset.erase_insert_eq_erase] at hcard
      rw [Finset.insert_sdiff_of_notMem _ hmem, ← hcard]
      simp only [hx, hne, ne_eq, false_and, if_false, not_false_eq_true, if_true]
      omega

theorem startsWith_text (kind kind' : Kind) (text : Bytes) :
    strncmpEq (kind.text ++ text) kind'.text kind'.text.length = decide (kind = kind') := by
  cases kind <;> cases kind' <;> simp [strncmpEq, Kind.text, errorText, warningText]

/-- The loop reads a diagnostic. -/
theorem message_diagnostic (program_name : Bytes) (kind : Kind) {line : ℕ} (column : ℕ)
    (text after : Bytes) (hpos : 0 < line) (hfits : line < 2 ^ 31) :
    message program_name
        (Line.buffer ⟨diagnosticText program_name kind line column text, after⟩) =
      some ((line : ℤ), kind.text ++ (text ++ 0 :: after)) := by
  have hbuffer : Line.buffer ⟨diagnosticText program_name kind line column text, after⟩ =
      program_name ++ 58 :: (decimal line ++ 58 :: (decimal column ++ 58 :: 32 ::
        (kind.text ++ (text ++ 0 :: after)))) := by
    simp [Line.buffer, diagnosticText]
  have hname : strncmpEq
      (program_name ++ 58 :: (decimal line ++ 58 :: (decimal column ++ 58 :: 32 ::
        (kind.text ++ (text ++ 0 :: after))))) program_name program_name.length = true := by
    simp [strncmpEq]
  have hdrop : ∀ rest : Bytes,
      (program_name ++ 58 :: rest).drop (program_name.length + 1) = rest := fun rest => by
    rw [← List.drop_drop, List.drop_left]
    rfl
  have hline : i32 (min (2 ^ 63 - 1) (line : ℤ)) = line := by
    rw [min_eq_right (by omega), i32_natCast hfits]
  have hne : ((line : ℤ) = 0) = False := eq_false (by omega)
  rw [hbuffer, message, if_pos hname, hdrop]
  simp only [strtol_decimal line (show isdigit 58 = false from rfl),
    strtol_decimal column (show isdigit 58 = false from rfl), hline, hne, if_false,
    List.drop_succ_cons, List.drop_zero]

/-- The last line number of a kind. -/
def Counters.last (c : Counters) : Kind → ℤ
  | .error => c.last_err_no
  | .warning => c.last_warn_no

def Counters.count (c : Counters) : Kind → ℤ
  | .error => c.error_lines
  | .warning => c.warning_lines

/-- A line changes a counter and its last number only if it is taken for one of the kind. -/
theorem countLine_readAs (c : Counters) (line : Line) (k : Kind) :
    ((countLine program_name c line).count k = (readAs program_name k line).elim (c.count k)
        fun n => i32 (c.count k + if n ≠ c.last k then 1 else 0)) ∧
      (countLine program_name c line).last k = (readAs program_name k line).getD (c.last k) := by
  unfold countLine readAs
  cases message program_name line.buffer with
  | none => exact ⟨rfl, rfl⟩
  | some found =>
    obtain ⟨number, text⟩ := found
    have hfive : errorText.length = 5 := rfl
    have hseven : warningText.length = 7 := rfl
    cases herror : strncmpEq text errorText 5 <;>
      cases hwarning : strncmpEq text warningText 7 <;> cases k <;>
      simp only [Option.bind_some, Kind.text, hfive, hseven, herror, hwarning] <;>
      exact ⟨rfl, rfl⟩

/-- What the loop adds to a counter. -/
theorem foldl_count (k : Kind) (lines : List Line) (c : Counters)
    (hc : i32 (c.count k) = c.count k) :
    (lines.foldl (countLine program_name) c).count k =
      i32 (c.count k + changes (c.last k) (lines.filterMap (readAs program_name k))) := by
  induction lines generalizing c with
  | nil =>
    rw [List.filterMap_nil, changes, Nat.cast_zero, add_zero]
    exact hc.symm
  | cons line lines ih =>
    obtain ⟨hcount, hlast⟩ := @countLine_readAs program_name c line k
    rw [List.foldl_cons]
    cases hread : readAs program_name k line with
    | none =>
      rw [hread, Option.elim_none] at hcount
      rw [hread, Option.getD_none] at hlast
      rw [List.filterMap_cons_none hread, ih _ (by rw [hcount, hc]), hcount, hlast]
    | some n =>
      rw [hread, Option.elim_some] at hcount
      rw [hread, Option.getD_some] at hlast
      rw [List.filterMap_cons_some hread, ih _ (by rw [hcount]; unfold i32; omega), hcount, hlast,
        changes]
      split_ifs
      · unfold i32
        push_cast
        omega
      · unfold i32
        push_cast
        omega

/-- The loop reads a diagnostic as what it is. -/
theorem readAs_diagnostic (program_name : Bytes) (k kind : Kind) {line : ℕ} (column : ℕ)
    (text after : Bytes) (hpos : 0 < line) (hfits : line < 2 ^ 31) :
    readAs program_name k ⟨diagnosticText program_name kind line column text, after⟩ =
      if kind = k then some (line : ℤ) else none := by
  have hstarts := startsWith_text kind k (text ++ 0 :: after)
  rw [readAs, message_diagnostic program_name kind column text after hpos hfits, Option.bind_some]
  simp only [hstarts, decide_eq_true_eq]

/-- Every line number of a diagnostic is read. -/
theorem numbers_subset (k : Kind) (items : List (Item program_name)) :
    (numbers k items).toFinset.image Nat.cast ⊆ (readings k items).toFinset := by
  intro n hn
  obtain ⟨line, hline, rfl⟩ := Finset.mem_image.mp hn
  obtain ⟨item, hitem, hnumber⟩ := List.mem_filterMap.mp (List.mem_toFinset.mp hline)
  rw [List.mem_toFinset]
  refine List.mem_filterMap.mpr ⟨item, hitem, ?_⟩
  cases item with
  | diagnostic kind line' column text after hpos hfits =>
    rw [Item.number, Option.ite_none_right_eq_some, Option.some.injEq] at hnumber
    obtain ⟨rfl, rfl⟩ := hnumber
    exact (readAs_diagnostic program_name kind kind column text after hpos hfits).trans (if_pos rfl)
  | other => cases hnumber

theorem numbers_range (k : Kind) (items : List (Item program_name)) :
    ∀ line ∈ numbers k items, 0 < line ∧ line < 2 ^ 31 := by
  intro line hline
  obtain ⟨item, _, hitem⟩ := List.mem_filterMap.mp hline
  cases item with
  | diagnostic kind line' column text after hpos hfits =>
    rw [Item.number, Option.ite_none_right_eq_some] at hitem
    obtain rfl := Option.some.inj hitem.2
    exact ⟨hpos, hfits⟩
  | other => cases hitem

theorem sourceLines_lt (k : Kind) (items : List (Item program_name)) :
    sourceLines k items < 2 ^ 31 := by
  have hsub : (numbers k items).toFinset ⊆ (Finset.range (2 ^ 31)).erase 0 := by
    intro line hline
    obtain ⟨hpos, hlt⟩ := numbers_range k items line (List.mem_toFinset.mp hline)
    rw [Finset.mem_erase, Finset.mem_range]
    exact ⟨hpos.ne', hlt⟩
  have hcard := Finset.card_le_card hsub
  rw [Finset.card_erase_of_mem (by simp), Finset.card_range] at hcard
  unfold sourceLines
  omega

/-- What the loop adds besides the source lines. -/
theorem changes_readings (k : Kind) (items : List (Item program_name)) :
    changes (-1) (readings k items) =
      sourceLines k items + (misread k items + returns [-1] (readings k items)) := by
  have hminus : (-1 : ℤ) ∉ (numbers k items).toFinset.image Nat.cast := by
    intro h
    obtain ⟨line, -, hline⟩ := Finset.mem_image.mp h
    omega
  have hsub : (numbers k items).toFinset.image (Nat.cast : ℕ → ℤ) ⊆
      (readings k items).toFinset \ {-1} := by
    intro n hn
    rw [Finset.mem_sdiff, Finset.mem_singleton]
    exact ⟨numbers_subset k items hn, fun h => hminus (h ▸ hn)⟩
  have hcard := Finset.card_sdiff_add_card_eq_card hsub
  have hsame : ((readings k items).toFinset \ {-1}) \
      (numbers k items).toFinset.image (Nat.cast : ℕ → ℤ) =
        (readings k items).toFinset \
          insert (-1) ((numbers k items).toFinset.image Nat.cast) := by
    rw [sdiff_sdiff_left, Finset.insert_eq]
    rfl
  rw [hsame, Finset.card_image_of_injective _ Nat.cast_injective] at hcard
  have hstart : ([-1] : List ℤ).toFinset = {-1} := rfl
  rw [changes_eq, hstart, ← hcard]
  unfold sourceLines misread
  omega

/-- A counter ends up right if it is not increased too often. -/
theorem count_eq_iff (k : Kind) (items : List (Item program_name)) :
    ((items.map Item.line).foldl (countLine program_name) ⟨0, 0, -1, -1⟩).count k =
      sourceLines k items ↔
        (misread k items + returns [-1] (readings k items)) % 2 ^ 32 = 0 := by
  have hlt := sourceLines_lt k items
  have hstart :
      i32 ((Counters.mk 0 0 (-1) (-1)).count k) = (Counters.mk 0 0 (-1) (-1)).count k := by
    cases k <;> decide
  have hcount := @foldl_count program_name k (items.map Item.line) ⟨0, 0, -1, -1⟩ hstart
  have hzero : (Counters.mk 0 0 (-1) (-1)).count k = 0 := by cases k <;> rfl
  have hlast : (Counters.mk 0 0 (-1) (-1)).last k = -1 := by cases k <;> rfl
  have hreadings : (items.map Item.line).filterMap (readAs program_name k) = readings k items :=
    List.filterMap_map ..
  rw [hcount, hzero, hlast, hreadings, changes_readings]
  unfold i32
  omega

end

/-- The printed numbers are those of the source lines with errors and with warnings exactly when no
number is read in other lines only and none comes up again after another one, as far as an `int`
can tell. -/
theorem printed_iff (program_name : Bytes) (items : List (Item program_name)) :
    printed program_name (items.map Item.line) =
        ((sourceLines .error items : ℤ), (sourceLines .warning items : ℤ)) ↔
      (misread .error items + returns [-1] (readings .error items)) % 2 ^ 32 = 0 ∧
        (misread .warning items + returns [-1] (readings .warning items)) % 2 ^ 32 = 0 := by
  rw [printed, Prod.mk.injEq]
  exact and_congr (count_eq_iff .error items) (count_eq_iff .warning items)

theorem not_isDiagnostic {program_name text : Bytes}
    (h : ¬ program_name ++ [58] <+: text) : ¬ IsDiagnostic program_name text := by
  rintro ⟨kind, line, column, rest, -, -, rfl⟩
  apply h
  exact ⟨_, List.append_assoc program_name [58] _⟩

/-- Two errors in line 5 of `a.c`, a line that is no diagnostic, and a warning for line 7. -/
def inOrder : List (Item [97, 46, 99]) :=
  [.diagnostic .error 5 1 [10] [] (by decide) (by decide),
   .other ⟨[32, 32, 32, 94, 10], []⟩ (not_isDiagnostic (by decide)),
   .diagnostic .error 5 9 [10] [] (by decide) (by decide),
   .diagnostic .warning 7 1 [10] [] (by decide) (by decide)]

theorem inOrder_readings (k : Kind) :
    readings k inOrder = if k = .error then [5, 5] else [7] := by
  have hother : readAs [97, 46, 99] k ⟨[32, 32, 32, 94, 10], []⟩ = none := by
    cases k <;> rfl
  cases k <;> simp [readings, inOrder, Item.line, readAs_diagnostic, hother]

theorem printed_in_order : printed [97, 46, 99] (inOrder.map Item.line) = (1, 1) := by
  apply (printed_iff [97, 46, 99] inOrder).mpr
  simp only [misread, inOrder_readings]
  decide

/-- Errors in the lines 5, 7 and 5 of `a.c`. -/
def backAndForth : List (Item [97, 46, 99]) :=
  [.diagnostic .error 5 1 [10] [] (by decide) (by decide),
   .diagnostic .error 7 1 [10] [] (by decide) (by decide),
   .diagnostic .error 5 9 [10] [] (by decide) (by decide)]

theorem printed_back_and_forth :
    printed [97, 46, 99] (backAndForth.map Item.line) ≠
      ((sourceLines .error backAndForth : ℤ), (sourceLines .warning backAndForth : ℤ)) := by
  have hreadings : readings .error backAndForth = [5, 7, 5] := by
    simp [readings, backAndForth, Item.line, readAs_diagnostic]
  rw [printed, Ne, Prod.mk.injEq]
  intro h
  have hzero := (count_eq_iff .error backAndForth).mp h.1
  rw [misread, hreadings] at hzero
  exact absurd hzero (by decide)

/-- `a.c 5 1: error` is read as an error in line 5, since the separators are not compared. -/
example : readAs [97, 46, 99] .error ⟨[97, 46, 99, 32, 53, 32, 49, 58, 32] ++ errorText, []⟩ =
    some 5 := by decide

end Acos.GccOutput
