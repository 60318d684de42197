import Acos.Lib.Scanf
import Acos.Lib.WaitStatus

/-! The word counter of `inf11-2_posix_fork_proc-count-words/main.c`: each process reads one
word and forks the process for the rest, and the count comes back through exit statuses. -/
namespace Acos.CountWords
open Acos.CString Acos.Scanf Acos.WaitStatus

/-- The size of `buffer`. -/
def buffer_size : ℕ := 4096

/-- How a process ends, and what it and the processes below it have printed. -/
structure Outcome where
  printed : Bytes
  ending : Ending

/-- `main` from the loop on, in the process that the first `k` calls of `fork` lead to, where
`fork j` says whether call `j` succeeds. The outcome is `none` where a word and its terminator
are written past the end of `buffer`. -/
def main (fork : ℕ → Bool) (k : ℕ) (in_child : Bool) (stream : Bytes) : Option Outcome :=
  match h : scanString stream with
  | (none, _) => some ⟨if in_child then [] else [48, 10], .exited 0⟩
  | (some word, rest) =>
    if buffer_size ≤ word.length then none
    else if fork k then
      (main fork (k + 1) true rest).map fun child =>
        let words_count := WEXITSTATUS child.ending.status + 1
        if in_child then ⟨child.printed, .exited words_count⟩
        else ⟨child.printed ++ (decimal words_count ++ [10]), .exited 0⟩
    else some ⟨[], .exited 0⟩
termination_by stream.length
decreasing_by exact (scanString_some h).2

/-- How many processes below process `k` successive forks make for `n` words. -/
def chain (fork : ℕ → Bool) (k : ℕ) : ℕ → ℕ
  | 0 => 0
  | n + 1 => if fork k then chain fork (k + 1) n + 1 else 0

/-- What is left of the count of a chain of `n` processes. -/
def wrap (n : ℕ) : ℕ := if n = 0 then 0 else (n - 1) % 256 + 1

theorem wrap_succ (n : ℕ) : wrap n % 256 + 1 = wrap (n + 1) := by
  unfold wrap
  split_ifs <;> omega

theorem wrap_le (n : ℕ) : wrap n ≤ n := by
  unfold wrap
  split_ifs <;> omega

theorem wrap_eq_iff (n : ℕ) : wrap n = n ↔ n ≤ 256 := by
  unfold wrap
  split_ifs <;> omega

theorem chain_le (fork : ℕ → Bool) (k n : ℕ) : chain fork k n ≤ n := by
  induction n generalizing k with
  | zero => simp [chain]
  | succ n ih =>
    have hrest := ih (k + 1)
    simp only [chain]
    split_ifs <;> omega

/-- The chain is as long as the text when no fork fails. -/
theorem chain_eq_iff (fork : ℕ → Bool) (k n : ℕ) :
    chain fork k n = n ↔ ∀ j < n, fork (k + j) = true := by
  induction n generalizing k with
  | zero => simp [chain]
  | succ n ih =>
    have hshift : (∀ j < n + 1, fork (k + j) = true) ↔
        fork k = true ∧ ∀ j < n, fork (k + 1 + j) = true := by
      constructor
      · intro h
        refine ⟨h 0 (by omega), fun j hj => ?_⟩
        have hnext := h (j + 1) (by omega)
        rwa [show k + (j + 1) = k + 1 + j by omega] at hnext
      · rintro ⟨hfirst, hrest⟩ j hj
        cases j with
        | zero => exact hfirst
        | succ j =>
          have hnext := hrest j (by omega)
          rwa [show k + 1 + j = k + (j + 1) by omega] at hnext
    rw [hshift, ← ih (k + 1)]
    simp only [chain]
    split_ifs with hfork
    · simp [hfork]
    · simp [hfork]

/-- A text whose words fit the buffer with their terminator. -/
def Short (text : Bytes) : Prop := ∀ word ∈ words text, word.length < buffer_size

theorem Short.rest {stream word rest : Bytes} (hshort : Short stream)
    (h : scanString stream = (some word, rest)) : word.length < buffer_size ∧ Short rest := by
  unfold Short at hshort
  rw [(scanString_some h).1] at hshort
  exact ⟨hshort word (by simp), fun w hw => hshort w (by simp [hw])⟩

/-- A process below the first prints nothing and hands on the length of its chain, as far as
an exit status carries it. -/
theorem main_child (fork : ℕ → Bool) (k : ℕ) (stream : Bytes) (hshort : Short stream) :
    main fork k true stream =
      some ⟨[], .exited (wrap (chain fork k (words stream).length) : ℕ)⟩ := by
  induction hn : stream.length using Nat.strong_induction_on generalizing k stream with
  | _ n ih =>
    rw [main]
    split
    · next rest hscan =>
      simp [scanString_none hscan, chain, wrap]
    · next word rest hscan =>
      obtain ⟨hword, hrest⟩ := hshort.rest hscan
      obtain ⟨hwords, hlen⟩ := scanString_some hscan
      rw [if_neg (by omega), ih rest.length (by omega) (k + 1) rest hrest rfl]
      cases hfork : fork k with
      | true => simp [hwords, chain, hfork, ← wrap_succ]
      | false => simp [hwords, chain, hfork, wrap]

/-- The first process prints the length of its chain, if it has one. -/
theorem main_first (fork : ℕ → Bool) (text : Bytes) (hshort : Short text) :
    (main fork 0 false text).map Outcome.printed =
      some (if words text ≠ [] ∧ fork 0 = false then []
        else decimal (wrap (chain fork 0 (words text).length)) ++ [10]) := by
  rw [main]
  split
  · next rest hscan =>
    simp [scanString_none hscan, chain, wrap, decimal, digit]
  · next word rest hscan =>
    obtain ⟨hword, hrest⟩ := hshort.rest hscan
    obtain ⟨hwords, hlen⟩ := scanString_some hscan
    rw [if_neg (by omega), main_child fork 1 rest hrest]
    cases hfork : fork 0 with
    | true => simp [hwords, chain, hfork, wrap_succ]
    | false => simp [hwords]

/-- The counter prints the number of words if and only if there are at most 256 of them and
no fork fails. -/
theorem count_words_iff (fork : ℕ → Bool) (text : Bytes) (hshort : Short text) :
    (main fork 0 false text).map Outcome.printed = some (decimal (words text).length ++ [10]) ↔
      (words text).length ≤ 256 ∧ ∀ k < (words text).length, fork k = true := by
  have hforks := chain_eq_iff fork 0 (words text).length
  simp only [Nat.zero_add] at hforks
  have hchain := chain_le fork 0 (words text).length
  have hwrap := wrap_le (chain fork 0 (words text).length)
  rw [main_first fork text hshort, Option.some.injEq]
  split_ifs with hnone
  · obtain ⟨hne, hfail⟩ := hnone
    have hpos := List.length_pos_iff.mpr hne
    constructor
    · intro h
      simp at h
    · rintro ⟨-, hall⟩
      rw [hall 0 hpos] at hfail
      exact absurd hfail (by decide)
  · rw [List.append_cancel_right_eq, decimal_injective.eq_iff, ← hforks]
    constructor
    · intro h
      have hfull : chain fork 0 (words text).length = (words text).length := by omega
      rw [hfull] at h
      exact ⟨(wrap_eq_iff _).mp h, hfull⟩
    · rintro ⟨hle, hfull⟩
      rw [hfull]
      exact (wrap_eq_iff _).mpr hle

/-- `n` words of one letter. -/
def letters (n : ℕ) : Bytes := (List.replicate n [97, 32]).flatten

theorem words_letters (n : ℕ) : words (letters n) = List.replicate n [97] := by
  induction n with
  | zero => rfl
  | succ n ih =>
    have hcons : letters (n + 1) = [97] ++ 32 :: letters n := rfl
    rw [hcons, words_append_space (by decide), words_of_word (by simp) (by simp [isspace]), ih]
    rfl

theorem short_letters (n : ℕ) : Short (letters n) := by
  intro word hword
  rw [words_letters] at hword
  rw [List.eq_of_mem_replicate hword]
  decide

theorem count_three_letters : Short (letters 3) ∧
    (main (fun _ => true) 0 false (letters 3)).map Outcome.printed =
      some (decimal (words (letters 3)).length ++ [10]) :=
  ⟨short_letters 3, (count_words_iff (fun _ => true) (letters 3) (short_letters 3)).mpr
    (by simp [words_letters])⟩

/-- For 257 words the counter prints `1`. -/
theorem count_257_letters : Short (letters 257) ∧ (words (letters 257)).length = 257 ∧
    (main (fun _ => true) 0 false (letters 257)).map Outcome.printed = some [49, 10] ∧
    [49, 10] ≠ decimal 257 ++ [10] := by
  have hchain : chain (fun _ => true) 0 257 = 257 := by
    apply (chain_eq_iff _ 0 257).mpr
    intro j _
    rfl
  have hlen : (words (letters 257)).length = 257 := by rw [words_letters, List.length_replicate]
  refine ⟨short_letters 257, hlen, ?_, ?_⟩
  · rw [main_first _ _ (short_letters 257), hlen, hchain]
    simp [wrap, decimal, digit]
  · simp [decimal, digit]

end Acos.CountWords
