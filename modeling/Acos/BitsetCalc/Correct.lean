import Acos.Lib.BitSet
import Acos.Lib.CString

/-! The set calculator of `bitset-calc/main.c`. Its sets are masks of 64 bits for 62 characters; a
complement also sets the two bits that stand for none. -/
namespace Acos.BitsetCalc
open Acos.BitSet Acos.CString

def BUNCH_SIZE : ℕ := 62

/-- The shift is one byte wide. -/
def getCharMask (c : UInt8) : BitVec 64 :=
  let shift : UInt8 :=
    if 48 ≤ c ∧ c ≤ 57 then c - 48
    else if 65 ≤ c ∧ c ≤ 90 then c - 65 + 10
    else c - 97 + (10 + 26)
  1#64 <<< shift.toNat

def getBunchCharByIndex (i : ℕ) : UInt8 :=
  if i < 10 then UInt8.ofNat (48 + i)
  else if i < 10 + 26 then UInt8.ofNat (65 + i - 10)
  else UInt8.ofNat (97 + i - (10 + 26))

/-- The loop over the characters of the first line. -/
def readLoop : Bytes → BitVec 64 → BitVec 64 → BitVec 64
  | [], result_many, _ => result_many
  | sym :: input, result_many, curr_many =>
    if sym = 10 then result_many
    else if sym = 124 then readLoop input (result_many ||| curr_many) 0
    else if sym = 38 then readLoop input (result_many &&& curr_many) 0
    else if sym = 94 then readLoop input (result_many ^^^ curr_many) 0
    else if sym = 126 then readLoop input (~~~result_many) curr_many
    else readLoop input result_many (curr_many ||| getCharMask sym)

/-- What the program prints for its input. -/
def main (input : Bytes) : Bytes :=
  ((List.range BUNCH_SIZE).filter fun i => readLoop input 0 0 &&& (1#64 <<< i) ≠ 0).map
    getBunchCharByIndex

/-- The digits and letters in the order in which they are printed. -/
def alphabet : Bytes :=
  (List.range' 48 10 ++ List.range' 65 26 ++ List.range' 97 26).map UInt8.ofNat

def characters : Finset UInt8 := alphabet.toFinset

/-- The result and the set that the next operator applies to it. -/
structure Sets where
  result : Finset UInt8
  pending : Finset UInt8

/-- What a character of the line does: `|`, `&`, `^` and `~`, or one more character. -/
def Sets.apply (s : Sets) (sym : UInt8) : Sets :=
  if sym = 124 then ⟨s.result ∪ s.pending, ∅⟩
  else if sym = 38 then ⟨s.result ∩ s.pending, ∅⟩
  else if sym = 94 then ⟨symmDiff s.result s.pending, ∅⟩
  else if sym = 126 then ⟨characters \ s.result, s.pending⟩
  else ⟨s.result, insert sym s.pending⟩

/-- The set that a line describes. -/
def meaning (line : Bytes) : Finset UInt8 := (line.foldl Sets.apply ⟨∅, ∅⟩).result

/-- A character of the language of lines. -/
def IsSymbol (sym : UInt8) : Prop := sym ∈ alphabet ∨ sym ∈ [124, 38, 94, 126]

theorem IsSymbol.ne_newline {sym : UInt8} (h : IsSymbol sym) : sym ≠ 10 := by
  rintro rfl
  exact absurd h (by unfold IsSymbol; decide)

theorem alphabet_eq : (List.range BUNCH_SIZE).map getBunchCharByIndex = alphabet := by decide

theorem getBunchCharByIndex_mem {i : ℕ} (hi : i < BUNCH_SIZE) :
    getBunchCharByIndex i ∈ characters := by
  rw [characters, List.mem_toFinset, ← alphabet_eq]
  exact List.mem_map_of_mem (List.mem_range.mpr hi)

theorem getBunchCharByIndex_inj {i k : ℕ} (hi : i < BUNCH_SIZE) (hk : k < BUNCH_SIZE)
    (h : getBunchCharByIndex i = getBunchCharByIndex k) : i = k := by
  have hnodup : ((List.range BUNCH_SIZE).map getBunchCharByIndex).Nodup := by decide
  exact List.inj_on_of_nodup_map hnodup (List.mem_range.mpr hi) (List.mem_range.mpr hk) h

/-- The two mappings between characters and indices belong together. -/
theorem getCharMask_getBunchCharByIndex {k : ℕ} (hk : k < BUNCH_SIZE) :
    getCharMask (getBunchCharByIndex k) = 1#64 <<< k := by
  have hall : ∀ k < BUNCH_SIZE, getCharMask (getBunchCharByIndex k) = 1#64 <<< k := by decide
  exact hall k hk

/-- The masks represent the sets. -/
structure Simulates (result_many curr_many : BitVec 64) (s : Sets) : Prop where
  result : Represents getBunchCharByIndex BUNCH_SIZE result_many s.result
  pending : Represents getBunchCharByIndex BUNCH_SIZE curr_many s.pending

section Loop
variable {result_many curr_many : BitVec 64} {s : Sets}

theorem Simulates.insert {sym : UInt8} (h : Simulates result_many curr_many s)
    (hsym : sym ∈ alphabet) :
    Simulates result_many (curr_many ||| getCharMask sym) ⟨s.result, insert sym s.pending⟩ := by
  rw [← alphabet_eq] at hsym
  obtain ⟨k, hk, rfl⟩ := List.mem_map.mp hsym
  rw [List.mem_range] at hk
  refine ⟨h.result, ?_⟩
  rw [getCharMask_getBunchCharByIndex hk]
  exact h.pending.insert hk (by decide) fun i hi => getBunchCharByIndex_inj hi hk

theorem readLoop_simulates {line : Bytes} (h : Simulates result_many curr_many s)
    (hline : ∀ sym ∈ line, IsSymbol sym) (ending : Bytes)
    (hending : ending = [] ∨ ending.head? = some 10) :
    Represents getBunchCharByIndex BUNCH_SIZE (readLoop (line ++ ending) result_many curr_many)
      (line.foldl Sets.apply s).result := by
  induction line generalizing result_many curr_many s with
  | nil =>
    rcases hending with rfl | hten
    · exact h.result
    · obtain ⟨rest, rfl⟩ := List.head?_eq_some_iff.mp hten
      exact h.result
  | cons sym line ih =>
    obtain ⟨hsym, hrest⟩ := List.forall_mem_cons.mp hline
    rw [List.cons_append, List.foldl_cons, readLoop, if_neg hsym.ne_newline, Sets.apply]
    split_ifs with hor hand hxor hnot
    · exact ih ⟨h.result.union h.pending, represents_empty⟩ hrest
    · exact ih ⟨h.result.inter h.pending, represents_empty⟩ hrest
    · exact ih ⟨h.result.symmDiff h.pending, represents_empty⟩ hrest
    · have hcompl := h.result.compl (by decide) fun i hi => getBunchCharByIndex_mem hi
      exact ih ⟨hcompl, h.pending⟩ hrest
    · exact ih (h.insert (hsym.resolve_right (by simp [hor, hand, hxor, hnot]))) hrest

end Loop

theorem Sets.apply_subset {s : Sets} {sym : UInt8} (hsym : IsSymbol sym)
    (h : s.result ⊆ characters ∧ s.pending ⊆ characters) :
    (s.apply sym).result ⊆ characters ∧ (s.apply sym).pending ⊆ characters := by
  obtain ⟨hresult, hpending⟩ := h
  rw [Sets.apply]
  split_ifs with hor hand hxor hnot
  · exact ⟨Finset.union_subset hresult hpending, Finset.empty_subset _⟩
  · exact ⟨Finset.inter_subset_left.trans hresult, Finset.empty_subset _⟩
  · exact ⟨Finset.symmDiff_subset_union.trans (Finset.union_subset hresult hpending),
      Finset.empty_subset _⟩
  · exact ⟨Finset.sdiff_subset, hpending⟩
  · have hmem : sym ∈ alphabet := hsym.resolve_right (by simp [hor, hand, hxor, hnot])
    exact ⟨hresult, Finset.insert_subset (List.mem_toFinset.mpr hmem) hpending⟩

theorem meaning_subset {line : Bytes} (hline : ∀ sym ∈ line, IsSymbol sym) :
    meaning line ⊆ characters := by
  have hfold : ∀ s : Sets, s.result ⊆ characters ∧ s.pending ⊆ characters →
      (line.foldl Sets.apply s).result ⊆ characters := by
    induction line with
    | nil => exact fun s h => h.1
    | cons sym line ih =>
      obtain ⟨hsym, hrest⟩ := List.forall_mem_cons.mp hline
      exact fun s h => ih hrest _ (Sets.apply_subset hsym h)
  exact hfold _ ⟨Finset.empty_subset _, Finset.empty_subset _⟩

/-- For every line of digits, letters and operators, whatever follows it, the program prints the
characters of the set that the line describes, in order and each once. -/
theorem bitset_calc_correct (line ending : Bytes) (hline : ∀ sym ∈ line, IsSymbol sym)
    (hending : ending = [] ∨ ending.head? = some 10) :
    main (line ++ ending) = alphabet.filter (· ∈ meaning line) ∧
      (main (line ++ ending)).Nodup ∧ ∀ c, c ∈ main (line ++ ending) ↔ c ∈ meaning line := by
  have hstart : Simulates 0 0 ⟨∅, ∅⟩ := ⟨represents_empty, represents_empty⟩
  have hloop := readLoop_simulates hstart hline ending hending
  have hmain : main (line ++ ending) = alphabet.filter (· ∈ meaning line) := by
    rw [meaning, ← alphabet_eq, ← hloop.filter, main]
    congr 1
    apply List.filter_congr
    intro i hi
    have hwidth : i < 64 := (List.mem_range.mp hi).trans (by decide)
    rw [Bool.eq_iff_iff, decide_eq_true_eq]
    exact and_bit_ne_zero hwidth
  refine ⟨hmain, ?_, fun c => ?_⟩
  · rw [hmain]
    exact List.Nodup.filter _ (by decide)
  · rw [hmain, List.mem_filter, decide_eq_true_eq]
    exact and_iff_right_of_imp fun hc => List.mem_toFinset.mp (meaning_subset hline hc)

/-- `ab|b&~` -/
def someLine : Bytes := [97, 98, 124, 98, 38, 126]

theorem someLine_symbols : ∀ sym ∈ someLine, IsSymbol sym := by
  have hletters : (97 : UInt8) ∈ alphabet ∧ (98 : UInt8) ∈ alphabet := by decide
  simp [someLine, IsSymbol, hletters]

theorem bitset_calc_some_line :
    main (someLine ++ [10]) = alphabet.filter (· ∈ meaning someLine) ∧
      (main (someLine ++ [10])).Nodup ∧ ∀ c, c ∈ main (someLine ++ [10]) ↔ c ∈ meaning someLine :=
  bitset_calc_correct someLine [10] someLine_symbols (.inr rfl)

end Acos.BitsetCalc
