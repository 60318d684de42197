import Acos.Lib.MachineInt
import Acos.Lib.Nested
import Acos.PrintList.Digits

/-! `number_reader` of `inf18-0_posix_threads_simple-create-join/main.c`, first in the main thread.
The threads share the streams, and `pthread_create` succeeds. -/
namespace Acos.CreateJoin
open Acos.CString Acos.MachineInt Acos.Nested Acos.PrintList Acos.Scanf Acos.Transition

/-- `%d`: the number and the rest of the stream, or none. What is no `int` is cut to 32 bits. -/
def scanf (stream : Bytes) : Option (ℤ × Bytes) :=
  if (strtol stream).2.length < stream.length then some (i32 (strtol stream).1, (strtol stream).2)
  else none

structure Streams where
  input : Bytes
  output : Bytes
  deriving DecidableEq, Repr

/-- Up to `pthread_join`. A thread has its `value` once it has been read. -/
def enter (s : Streams) (value : Option ℤ) (_ : Unit) :
    Option (Streams × Option ℤ × Option (Option ℤ)) :=
  match scanf s.input with
  | none => some (s, value, none)
  | some (v, rest) => some ({ s with input := rest }, some v, some none)

def printed (v : ℤ) : Bytes := decimalInt v ++ [10]

/-- Behind `pthread_join`. -/
def finish (s : Streams) (value : Option ℤ) : Streams × Option ℤ :=
  ({ s with output := s.output ++ value.elim [] printed }, value)

def number_reader : Program Streams (Option ℤ) Unit := ⟨enter, finish⟩

theorem scanf_length {stream rest : Bytes} {v : ℤ} (h : scanf stream = some (v, rest)) :
    rest.length < stream.length := by
  unfold scanf at h
  split_ifs at h with hless
  cases h
  exact hless

/-- All numbers up to the first text that is none. -/
def numbers (stream : Bytes) : List ℤ :=
  match _h : scanf stream with
  | none => []
  | some (v, rest) => v :: numbers rest
termination_by stream.length
decreasing_by exact scanf_length ‹_›

section
variable {stream rest : Bytes} {v : ℤ} {vs : List ℤ}

theorem numbers_eq_nil (h : scanf stream = none) : numbers stream = [] := by
  rw [numbers, h]

theorem numbers_eq_cons (h : scanf stream = some (v, rest)) :
    numbers stream = v :: numbers rest := by
  rw [numbers, h]

theorem numbers_range (stream : Bytes) : ∀ v ∈ numbers stream, -2 ^ 31 ≤ v ∧ v < 2 ^ 31 := by
  induction hn : stream.length using Nat.strong_induction_on generalizing stream with
  | h n ih =>
    cases hscan : scanf stream with
    | none =>
      rw [numbers_eq_nil hscan]
      exact nofun
    | some r =>
      obtain ⟨v, rest⟩ := r
      rw [numbers_eq_cons hscan, List.forall_mem_cons]
      refine ⟨?_, ih _ (hn ▸ scanf_length hscan) rest rfl⟩
      unfold scanf at hscan
      split_ifs at hscan
      cases hscan
      unfold i32
      omega

theorem strtol_printed (h : -2 ^ 31 ≤ v ∧ v < 2 ^ 31) (rest : Bytes) :
    strtol (printed v ++ rest) = (v, 10 :: rest) := by
  have hend : isdigit 10 = false := by decide
  rw [printed, decimalInt, List.append_assoc, List.append_assoc, List.singleton_append]
  by_cases hneg : v < 0
  · have hdrop : (45 :: (decimal v.natAbs ++ 10 :: rest)).dropWhile isspace =
        45 :: (decimal v.natAbs ++ 10 :: rest) := rfl
    have hstop : ∀ b ∈ (10 :: rest).head?, isdigit b = false := by simp [hend]
    obtain ⟨htake, hleft⟩ := span_append (decimal_isdigit v.natAbs) hstop
    rw [if_pos hneg, List.singleton_append]
    simp only [strtol, hdrop, List.head?_cons, or_true, if_true, List.tail_cons, htake, hleft,
      decimal_ne_nil, if_false, value_decimal]
    congr 1
    omega
  · rw [if_neg hneg, List.nil_append, strtol_decimal v.natAbs hend]
    congr 1
    omega

/-- What stands behind white space and a sign. -/
def unsigned (text : Bytes) : Bytes :=
  let s := text.dropWhile isspace
  if s.head? = some 43 ∨ s.head? = some 45 then s.tail else s

theorem unsigned_length (text : Bytes) : (unsigned text).length ≤ text.length := by
  have hsub : (text.dropWhile isspace).length ≤ text.length :=
    (List.dropWhile_sublist isspace).length_le
  unfold unsigned
  simp only
  split_ifs
  · exact (List.tail_sublist _).length_le.trans hsub
  · exact hsub

/-- There is a number where there are digits. -/
theorem scanf_eq (stream : Bytes) : scanf stream =
    if (unsigned stream).takeWhile isdigit = [] then none
    else some (i32 (strtol stream).1, (unsigned stream).dropWhile isdigit) := by
  have hsnd : (strtol stream).2 = if (unsigned stream).takeWhile isdigit = [] then stream
      else (unsigned stream).dropWhile isdigit := apply_ite Prod.snd _ _ _
  unfold scanf
  by_cases hdigits : (unsigned stream).takeWhile isdigit = []
  · rw [hsnd, if_pos hdigits, if_pos hdigits, if_neg (lt_irrefl _)]
  · have hpos := List.length_pos_iff.mpr hdigits
    have hsum := congrArg List.length
      (List.takeWhile_append_dropWhile (p := isdigit) (l := unsigned stream))
    have hlength := unsigned_length stream
    rw [List.length_append] at hsum
    rw [hsnd, if_neg hdigits, if_neg hdigits, if_pos (by omega)]

/-- White space is skipped. -/
theorem scanf_newline (stream : Bytes) : scanf (10 :: stream) = scanf stream := by
  have hdrop : (10 :: stream).dropWhile isspace = stream.dropWhile isspace :=
    List.dropWhile_cons_of_pos (by decide)
  have hunsigned : unsigned (10 :: stream) = unsigned stream := by
    rw [unsigned, hdrop, unsigned]
  have hvalue : (strtol (10 :: stream)).1 = (strtol stream).1 := by
    simp only [strtol, hdrop]
    split_ifs <;> rfl
  rw [scanf_eq, scanf_eq, hunsigned, hvalue]

theorem numbers_newline (stream : Bytes) : numbers (10 :: stream) = numbers stream := by
  cases hscan : scanf stream with
  | none => rw [numbers_eq_nil hscan, numbers_eq_nil ((scanf_newline stream).trans hscan)]
  | some r => rw [numbers_eq_cons hscan, numbers_eq_cons ((scanf_newline stream).trans hscan)]

/-- The numbers of a listing. -/
theorem numbers_printed (h : ∀ v ∈ vs, -2 ^ 31 ≤ v ∧ v < 2 ^ 31) :
    numbers (vs.flatMap printed) = vs := by
  induction vs with
  | nil => exact numbers_eq_nil rfl
  | cons v vs ih =>
    obtain ⟨hv, hvs⟩ := List.forall_mem_cons.mp h
    have hscan : scanf (printed v ++ vs.flatMap printed) = some (v, 10 :: vs.flatMap printed) := by
      have hpos := List.length_pos_iff.mpr (decimal_ne_nil v.natAbs)
      rw [scanf, strtol_printed hv, if_pos, i32_of_range hv.1 hv.2]
      simp only [printed, decimalInt, List.length_append, List.length_cons, List.length_nil]
      omega
    rw [List.flatMap_cons, numbers_eq_cons hscan, numbers_newline, ih hvs]

end

section
variable {s s' : Streams} {x x' : Option ℤ}

theorem calls_reversed (h : Calls number_reader s x s' x') :
    s'.output = s.output ++ (numbers s.input).reverse.flatMap printed := by
  induction h with
  | @leaf s x _ s' x' h =>
    simp only [number_reader, enter] at h
    cases hscan : scanf s.input with
    | none =>
      rw [hscan] at h
      cases h
      have hnil : numbers s.input = [] := by
        rw [numbers, hscan]
      rw [hnil, List.reverse_nil, List.flatMap_nil, List.append_nil]
    | some r =>
      rw [hscan] at h
      cases h
  | @call s x _ s₁ x₁ y s₂ y' h hcall ih =>
    simp only [number_reader, enter] at h
    cases hscan : scanf s.input with
    | none =>
      rw [hscan] at h
      cases h
    | some r =>
      obtain ⟨v, rest⟩ := r
      rw [hscan] at h
      cases h
      have hcons : numbers s.input = v :: numbers rest := by
        rw [numbers, hscan]
      rw [hcons, List.reverse_cons, List.flatMap_append, List.flatMap_singleton,
        ← List.append_assoc, ← ih]
      rfl

/-- In every order of the threads' steps all of them end, and the numbers have been printed in the
opposite order, so that the program gives them back in the first one when it reads its own
output. -/
theorem inevitably_reversed (input : Bytes) :
    Inevitably (next number_reader) (fun t => (∃ x, t.workers 0 = some (.done x)) ∧ t.Ended ∧
        t.shared.output = (numbers input).reverse.flatMap printed ∧
        numbers t.shared.output = (numbers input).reverse)
      (initial ⟨input, []⟩ none) := by
  have hlive (s : Streams) (x : Option ℤ) : ∃ l, (number_reader.enter s x l).isSome := by
    refine ⟨(), ?_⟩
    simp only [number_reader, enter]
    cases scanf s.input <;> rfl
  have hrun : Inevitably (next number_reader) (Returned number_reader ⟨input, []⟩ none)
      (initial ⟨input, []⟩ none) := by
    refine inevitably_returned (fun s _ => s.input.length) hlive fun {s x l s' x' y} h => ?_
    simp only [number_reader, enter] at h
    cases hscan : scanf s.input with
    | none =>
      rw [hscan] at h
      cases h
    | some r =>
      rw [hscan] at h
      cases h
      exact scanf_length hscan
  refine hrun.mono fun t ⟨x, hx, hcalls, hended⟩ => ?_
  have hout : t.shared.output = (numbers input).reverse.flatMap printed := by
    simpa using calls_reversed hcalls
  refine ⟨⟨x, hx⟩, hended, hout, ?_⟩
  rw [hout, numbers_printed fun v hv => numbers_range input v (List.mem_reverse.mp hv)]

end

end Acos.CreateJoin
