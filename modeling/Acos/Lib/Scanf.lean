import Acos.Lib.CString
import Mathlib.Algebra.Group.Nat.Defs
import Mathlib.Algebra.Order.Ring.Int

/-! Decimal numbers and words as text, and the `scanf` conversions that read them. -/
namespace Acos.Scanf
open Acos.CString

def digit (d : ℕ) : UInt8 := UInt8.ofNat (48 + d)

/-- The decimal digits of `n`, as `%u` prints them. -/
def decimal (n : ℕ) : Bytes :=
  if n < 10 then [digit n] else decimal (n / 10) ++ [digit (n % 10)]

/-- The number that a string of digits stands for. -/
def value (digits : Bytes) : ℕ := digits.foldl (fun v c => 10 * v + (c.toNat - 48)) 0

/-- `%u` with a target of `w` bits: the number, if any, and the rest of the stream. The whole
is `none` where the number does not fit, which C leaves undefined. -/
def scanUnsigned (w : ℕ) (stream : Bytes) : Option (Option ℕ × Bytes) :=
  let s := stream.dropWhile isspace
  let negative := s.head? = some 45
  let s := if s.head? = some 43 ∨ s.head? = some 45 then s.tail else s
  let digits := s.takeWhile isdigit
  let rest := s.dropWhile isdigit
  if digits = [] then some (none, rest)
  else if value digits < 2 ^ w then
    some (some (if negative then (2 ^ w - value digits) % 2 ^ w else value digits), rest)
  else none

/-- `strtol` in base 10, with values of 64 bits: the number, and the text behind it; that is all of
the text where there is no number. -/
def strtol (text : Bytes) : ℤ × Bytes :=
  let s := text.dropWhile isspace
  let negative := s.head? = some 45
  let s := if s.head? = some 43 ∨ s.head? = some 45 then s.tail else s
  let digits := s.takeWhile isdigit
  if digits = [] then (0, text)
  else
    (if negative then max (-2 ^ 63) (-value digits) else min (2 ^ 63 - 1) (value digits),
      s.dropWhile isdigit)

/-- `%s`: the word, if the stream has one, and the rest. -/
def scanString (stream : Bytes) : Option Bytes × Bytes :=
  match stream.dropWhile isspace with
  | [] => (none, [])
  | s => (some (s.takeWhile (!isspace ·)), s.dropWhile (!isspace ·))

/-- The words of a text: its longest pieces without white space. -/
def words (text : Bytes) : List Bytes := (text.splitOnP isspace).filter (· ≠ [])

theorem digit_toNat {d : ℕ} (h : d < 10) : (digit d).toNat = 48 + d := by
  unfold digit
  rw [UInt8.toNat_ofNat']
  omega

theorem isdigit_digit {d : ℕ} (h : d < 10) : isdigit (digit d) = true := by
  have hd := digit_toNat h
  simp only [isdigit, Bool.and_eq_true, decide_eq_true_eq, UInt8.le_iff_toNat_le, hd]
  simp
  omega

theorem isdigit_range {c : UInt8} (h : isdigit c = true) : 48 ≤ c.toNat ∧ c.toNat ≤ 57 := by
  simpa [isdigit, UInt8.le_iff_toNat_le] using h

/-- A digit is neither space, nor sign, nor line end, nor terminator. -/
theorem isdigit_not_special {c : UInt8} (h : isdigit c = true) :
    isspace c = false ∧ c ≠ 43 ∧ c ≠ 45 ∧ c ≠ 10 ∧ c ≠ 0 := by
  have hr := isdigit_range h
  refine ⟨?_, ?_, ?_, ?_, ?_⟩
  · have hne : c ≠ 32 := by
      rintro rfl
      simp at hr
    have hgt : ¬ c ≤ 13 := by
      rw [UInt8.le_iff_toNat_le]
      simp
      omega
    simp [isspace, hne, hgt]
  all_goals
    rintro rfl
    simp at hr

theorem decimal_isdigit (n : ℕ) : ∀ c ∈ decimal n, isdigit c = true := by
  induction n using decimal.induct with
  | case1 n h =>
    rw [decimal, if_pos h]
    intro c hc
    rw [List.mem_singleton.mp hc]
    exact isdigit_digit h
  | case2 n h ih =>
    rw [decimal, if_neg h]
    intro c hc
    rcases List.mem_append.mp hc with hc | hc
    · exact ih c hc
    · rw [List.mem_singleton.mp hc]
      exact isdigit_digit (Nat.mod_lt n (by omega))

theorem decimal_ne_nil (n : ℕ) : decimal n ≠ [] := by
  rw [decimal]
  split_ifs <;> simp

theorem value_decimal (n : ℕ) : value (decimal n) = n := by
  induction n using decimal.induct with
  | case1 n h =>
    rw [decimal, if_pos h]
    simp [value, digit_toNat h]
  | case2 n h ih =>
    rw [decimal, if_neg h]
    have hd := digit_toNat (Nat.mod_lt n (show 10 > 0 by omega))
    have hv : value (decimal (n / 10) ++ [digit (n % 10)]) =
        10 * value (decimal (n / 10)) + ((digit (n % 10)).toNat - 48) := by
      simp [value]
    rw [hv, ih, hd]
    omega

theorem decimal_length_le {n k : ℕ} (hk : 0 < k) (h : n < 10 ^ k) : (decimal n).length ≤ k := by
  induction k generalizing n with
  | zero => omega
  | succ k ih =>
    rw [decimal]
    split_ifs with hsmall
    · simp
    · have hpos : 0 < k := by
        by_contra hzero
        have hk : k = 0 := by omega
        subst hk
        omega
      have hdiv : n / 10 < 10 ^ k := by
        rw [Nat.pow_succ] at h
        omega
      have hrest := ih hpos hdiv
      simp
      omega

theorem decimal_length_mono {n m : ℕ} (h : n ≤ m) : (decimal n).length ≤ (decimal m).length := by
  induction m using decimal.induct generalizing n with
  | case1 m hm =>
    rw [decimal, if_pos (Nat.lt_of_le_of_lt h hm), decimal, if_pos hm]
    exact le_rfl
  | case2 m hm ih =>
    rw [decimal.eq_def m, if_neg hm, List.length_append, List.length_singleton]
    by_cases hn : n < 10
    · rw [decimal, if_pos hn]
      exact Nat.le_add_left 1 _
    · rw [decimal, if_neg hn, List.length_append, List.length_singleton]
      exact Nat.succ_le_succ (ih (Nat.div_le_div_right h))

theorem decimal_injective : Function.Injective decimal := by
  intro m n h
  rw [← value_decimal m, h, value_decimal]

/-- Reading back a number that was printed, after spaces and before a byte that is no digit. -/
theorem scanUnsigned_decimal {w n : ℕ} {rest : Bytes} {c : UInt8} (spaces : Bytes)
    (hspaces : ∀ b ∈ spaces, isspace b = true) (hc : isdigit c = false) :
    scanUnsigned w (spaces ++ (decimal n ++ c :: rest)) =
      if n < 2 ^ w then some (some n, c :: rest) else none := by
  obtain ⟨d, ds, hds⟩ := List.exists_cons_of_ne_nil (decimal_ne_nil n)
  have hd : isdigit d = true := decimal_isdigit n d (by simp [hds])
  obtain ⟨hspace, hplus, hminus, _⟩ := isdigit_not_special hd
  have hdrop : (spaces ++ (decimal n ++ c :: rest)).dropWhile isspace = decimal n ++ c :: rest :=
    (span_append hspaces (by simp [hds, hspace])).2
  have hhead : (decimal n ++ c :: rest).head? = some d := by simp [hds]
  have hend : ∀ b ∈ (c :: rest).head?, isdigit b = false := by simp [hc]
  obtain ⟨htake, hleft⟩ := span_append (decimal_isdigit n) hend
  simp only [scanUnsigned, hdrop, hhead, Option.some.injEq, hplus, hminus, or_self, if_false,
    htake, hleft, decimal_ne_nil, value_decimal]

theorem strtol_decimal (n : ℕ) {rest : Bytes} {c : UInt8} (hc : isdigit c = false) :
    strtol (decimal n ++ c :: rest) = (min (2 ^ 63 - 1) (n : ℤ), c :: rest) := by
  obtain ⟨d, ds, hds⟩ := List.exists_cons_of_ne_nil (decimal_ne_nil n)
  obtain ⟨hspace, hplus, hminus, _⟩ :=
    isdigit_not_special (decimal_isdigit n d (by simp [hds]))
  have hdrop : (decimal n ++ c :: rest).dropWhile isspace = decimal n ++ c :: rest := by
    rw [hds, List.cons_append, List.dropWhile_cons_of_neg (by simp [hspace])]
  have hhead : (decimal n ++ c :: rest).head? = some d := by simp [hds]
  have hend : ∀ b ∈ (c :: rest).head?, isdigit b = false := by simp [hc]
  obtain ⟨htake, hleft⟩ := span_append (decimal_isdigit n) hend
  simp only [strtol, hdrop, hhead, Option.some.injEq, hplus, hminus, or_self, if_false, htake,
    hleft, decimal_ne_nil, value_decimal]

theorem scanString_word {spaces word rest : Bytes} {c : UInt8}
    (hspaces : ∀ b ∈ spaces, isspace b = true) (hne : word ≠ [])
    (hword : ∀ b ∈ word, isspace b = false) (hc : isspace c = true) :
    scanString (spaces ++ (word ++ c :: rest)) = (some word, c :: rest) := by
  obtain ⟨d, ds, rfl⟩ := List.exists_cons_of_ne_nil hne
  have hdrop : (spaces ++ (d :: ds ++ c :: rest)).dropWhile isspace = d :: ds ++ c :: rest :=
    (span_append hspaces (by simp [hword d])).2
  have hsplit : (d :: ds ++ c :: rest).takeWhile (!isspace ·) = d :: ds ∧
      (d :: ds ++ c :: rest).dropWhile (!isspace ·) = c :: rest :=
    span_append (fun b hb => by simp [hword b hb]) (by simp [hc])
  simp only [scanString, hdrop]
  simp only [List.cons_append] at hsplit ⊢
  rw [hsplit.1, hsplit.2]

@[simp] theorem words_nil : words [] = [] := rfl

/-- White space separates what is before it from what is after it. -/
theorem words_append_space {c : UInt8} (hc : isspace c = true) (front back : Bytes) :
    words (front ++ c :: back) = words front ++ words back := by
  unfold words
  rw [List.splitOnP_append_cons front back hc, List.filter_append]

theorem words_of_word {word : Bytes} (hne : word ≠ []) (h : ∀ c ∈ word, isspace c = false) :
    words word = [word] := by
  unfold words
  rw [List.splitOnP_eq_singleton h]
  simp [hne]

theorem words_dropWhile (text : Bytes) : words (text.dropWhile isspace) = words text := by
  induction text with
  | nil => rfl
  | cons c text ih =>
    rw [List.dropWhile_cons]
    split_ifs with hc
    · have hsplit := words_append_space hc [] text
      simp only [List.nil_append] at hsplit
      rw [ih, hsplit]
      simp
    · rfl

/-- `%s` finds no word in a text without words. -/
theorem scanString_none {stream rest : Bytes} (h : scanString stream = (none, rest)) :
    words stream = [] := by
  rw [← words_dropWhile]
  unfold scanString at h
  cases hdrop : stream.dropWhile isspace with
  | nil => simp
  | cons c s => simp [hdrop] at h

/-- `%s` reads the first word and leaves the others. -/
theorem scanString_some {stream word rest : Bytes} (h : scanString stream = (some word, rest)) :
    words stream = word :: words rest ∧ rest.length < stream.length := by
  have hlen : (stream.dropWhile isspace).length ≤ stream.length :=
    (List.dropWhile_sublist isspace).length_le
  unfold scanString at h
  rw [← words_dropWhile]
  cases hdrop : stream.dropWhile isspace with
  | nil => simp [hdrop] at h
  | cons c s =>
    have hc : isspace c = false := by
      have hnot := List.head_dropWhile_not isspace (l := stream) (by simp [hdrop])
      simpa [hdrop] using hnot
    rw [hdrop] at h hlen
    obtain ⟨hword, hrest⟩ := Prod.mk.inj h
    have hword := Option.some.inj hword
    have happend : word ++ rest = c :: s := by
      rw [← hword, ← hrest]
      exact List.takeWhile_append_dropWhile
    have hne : word ≠ [] := by
      rw [← hword]
      simp [hc]
    have hplain : ∀ b ∈ word, isspace b = false := by
      intro b hb
      rw [← hword] at hb
      simpa using List.mem_takeWhile_imp hb
    constructor
    · rw [← happend]
      cases hleft : rest with
      | nil => simp [words_of_word hne hplain]
      | cons d rest =>
        have hd : isspace d = true := by
          have hnot := List.head_dropWhile_not (!isspace ·) (l := c :: s) (by simp [hrest, hleft])
          simpa [hrest, hleft] using hnot
        have hskip := words_dropWhile (d :: rest)
        rw [List.dropWhile_cons_of_pos hd, words_dropWhile] at hskip
        rw [words_append_space hd, words_of_word hne hplain, ← hskip]
        rfl
    · have hpos := List.length_pos_iff.mpr hne
      have hsum := congrArg List.length happend
      rw [List.length_append] at hsum
      omega

theorem scanString_subset {stream word rest : Bytes} (h : scanString stream = (some word, rest)) :
    word ⊆ stream ∧ rest ⊆ stream := by
  have hdrop := (List.dropWhile_sublist isspace (l := stream)).subset
  unfold scanString at h
  cases hs : stream.dropWhile isspace with
  | nil => simp [hs] at h
  | cons c s =>
    rw [hs] at h hdrop
    obtain ⟨hword, hrest⟩ := Prod.mk.inj h
    rw [← Option.some.inj hword, ← hrest]
    exact ⟨List.Subset.trans (List.takeWhile_sublist _).subset hdrop,
      List.Subset.trans (List.dropWhile_sublist _).subset hdrop⟩

theorem words_subset {text word : Bytes} (h : word ∈ words text) : word ⊆ text := by
  induction hn : text.length using Nat.strong_induction_on generalizing text with
  | _ n ih =>
    rcases hscan : scanString text with ⟨first, rest⟩
    cases first with
    | none =>
      rw [scanString_none hscan] at h
      cases h
    | some first =>
      obtain ⟨hwords, hlen⟩ := scanString_some hscan
      obtain ⟨hfirst, hrest⟩ := scanString_subset hscan
      rw [hwords, List.mem_cons] at h
      rcases h with rfl | h
      · exact hfirst
      · exact List.Subset.trans (ih _ (hn ▸ hlen) h rfl) hrest

/-- White space that is at least one character long separates. -/
theorem words_append_spaces {spaces : Bytes} (hne : spaces ≠ [])
    (hspaces : ∀ c ∈ spaces, isspace c = true) (front back : Bytes) :
    words (front ++ (spaces ++ back)) = words front ++ words back := by
  induction spaces generalizing front with
  | nil => exact absurd rfl hne
  | cons c spaces ih =>
    obtain ⟨hc, hrest⟩ := List.forall_mem_cons.mp hspaces
    rw [List.cons_append, words_append_space hc]
    cases spaces with
    | nil => rfl
    | cons d spaces => rw [← List.nil_append (d :: spaces ++ back), ih (by simp) hrest, words_nil,
        List.nil_append]

end Acos.Scanf
