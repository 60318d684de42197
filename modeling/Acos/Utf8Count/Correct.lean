import Acos.Lib.CString
import Acos.Lib.MachineInt

/-! The symbol counter of `utf8-count-symbols/main.c`, and the sequences it accepts: one symbol
after the other, each a lead byte with the continuation bytes that its leading ones announce. -/
namespace Acos.Utf8Count
open Acos.CString Acos.MachineInt

/-- The first `i` below 8 for which the bit `7 - i` is not set. -/
def countLeadingOnes (c : UInt8) : ℕ :=
  ((List.range 8).find? fun i => c.toNat &&& (1 <<< (7 - i)) = 0).getD 8

/-- `printf("%d %d", a, b)`. -/
def printValues (a b : ℤ) : String := s!"{a} {b}"

/-- The variables of `main`. -/
structure Counts where
  asciiSymCount : ℤ
  otherSymCount : ℤ
  bytesToSym : ℤ

/-- `main` from the loop on: what it prints and its exit status. -/
def main : Bytes → Counts → String × ℕ
  | [], s => (printValues s.asciiSymCount s.otherSymCount, if s.bytesToSym ≠ 0 then 1 else 0)
  | c :: input, s =>
    let leadingOnes := countLeadingOnes c
    if 4 < leadingOnes ∨ (decide (leadingOnes ≠ 1) ^^ decide (s.bytesToSym = 0)) then
      (printValues s.asciiSymCount s.otherSymCount, 1)
    else if leadingOnes = 1 then main input { s with bytesToSym := i32 (s.bytesToSym - 1) }
    else if leadingOnes = 0 then main input { s with asciiSymCount := i32 (s.asciiSymCount + 1) }
    else main input
      { s with otherSymCount := i32 (s.otherSymCount + 1), bytesToSym := leadingOnes - 1 }

/-- `10xxxxxx` -/
def IsContinuation (c : UInt8) : Prop := 0x80 ≤ c.toNat ∧ c.toNat < 0xC0

/-- How many continuation bytes are announced by `0xxxxxxx`, `110xxxxx`, `1110xxxx` and
`11110xxx`; the other bytes lead no symbol. -/
def announced (c : UInt8) : Option ℕ :=
  if c.toNat < 0x80 then some 0
  else if c.toNat < 0xC0 then none
  else if c.toNat < 0xE0 then some 1
  else if c.toNat < 0xF0 then some 2
  else if c.toNat < 0xF8 then some 3
  else none

/-- A lead byte and exactly the continuation bytes that it announces. -/
inductive IsSymbol : Bytes → Prop
  | mk (c : UInt8) (tail : Bytes) (lead : announced c = some tail.length)
    (continued : ∀ d ∈ tail, IsContinuation d) : IsSymbol (c :: tail)

structure Decomposes (symbols : List Bytes) (input : Bytes) : Prop where
  flatten : symbols.flatten = input
  symbol : ∀ s ∈ symbols, IsSymbol s

def singles (symbols : List Bytes) : ℕ := symbols.countP fun s => s.length = 1

def multis (symbols : List Bytes) : ℕ := symbols.countP fun s => 1 < s.length

/-- What the number of leading ones says about a byte. -/
theorem leading_ones (c : UInt8) : (IsContinuation c ↔ countLeadingOnes c = 1) ∧
    announced c = if countLeadingOnes c = 1 ∨ 4 < countLeadingOnes c then none
      else some (countLeadingOnes c - 1) := by
  have hall : ∀ n < 256, (0x80 ≤ n ∧ n < 0xC0 ↔ countLeadingOnes (UInt8.ofNat n) = 1) ∧
      announced (UInt8.ofNat n) = if countLeadingOnes (UInt8.ofNat n) = 1 ∨
        4 < countLeadingOnes (UInt8.ofNat n) then none
          else some (countLeadingOnes (UInt8.ofNat n) - 1) := by
    decide +kernel
  have hc := hall c.toNat c.toNat_lt
  rwa [UInt8.ofNat_toNat] at hc

theorem leading_ones_of_announced {c : UInt8} {k : ℕ} (h : announced c = some k) :
    countLeadingOnes c ≠ 1 ∧ countLeadingOnes c ≤ 4 ∧ countLeadingOnes c - 1 = k := by
  rw [(leading_ones c).2] at h
  split_ifs at h with hbad
  obtain ⟨hone, hfour⟩ := not_or.mp hbad
  exact ⟨hone, Nat.le_of_not_lt hfour, Option.some.inj h⟩

theorem announced_of_leading_ones {c : UInt8} (hone : countLeadingOnes c ≠ 1)
    (hfour : countLeadingOnes c ≤ 4) : announced c = some (countLeadingOnes c - 1) := by
  rw [(leading_ones c).2, if_neg (by omega)]

section Run
variable {a b : ℕ} {rest : Bytes}

theorem main_continued {tail : Bytes} (hlen : tail.length ≤ 3) (h : ∀ d ∈ tail, IsContinuation d)
    (asciiSymCount otherSymCount : ℤ) :
    main (tail ++ rest) ⟨asciiSymCount, otherSymCount, tail.length⟩ =
      main rest ⟨asciiSymCount, otherSymCount, 0⟩ := by
  induction tail with
  | nil => rfl
  | cons d tail ih =>
    have hone := (leading_ones d).1.mp (h d (by simp))
    rw [List.length_cons] at hlen
    have hdown : i32 (((d :: tail).length : ℤ) - 1) = tail.length := by
      rw [List.length_cons, Nat.cast_succ, add_sub_cancel_right]
      exact i32_natCast (by omega)
    have hne : ¬ ((tail.length : ℤ) + 1 = 0) := by omega
    rw [List.cons_append, main, hone, if_neg (by simp [hne]), if_pos rfl]
    dsimp only
    rw [hdown, ih (by omega) fun e he => h e (by simp [he])]

/-- A symbol is counted, and no byte is owed after it. -/
theorem main_symbol {s : Bytes} (h : IsSymbol s) (hcount : a + b + 1 < 2 ^ 31) :
    main (s ++ rest) ⟨a, b, 0⟩ = main rest
      ⟨(a + singles [s] : ℕ), (b + multis [s] : ℕ), 0⟩ := by
  obtain ⟨c, tail, hlead, hcontinued⟩ := h
  obtain ⟨hone, hfour, hk⟩ := leading_ones_of_announced hlead
  rw [List.cons_append, main, if_neg (by simp [hone]; omega), if_neg hone]
  by_cases hzero : countLeadingOnes c = 0
  · have hnil : tail = [] := List.length_eq_zero_iff.mp (by omega)
    have hnext : i32 ((a : ℤ) + 1) = (a + 1 : ℕ) := i32_natCast (k := a + 1) (by omega)
    rw [if_pos hzero, hnil]
    dsimp only
    rw [hnext]
    rfl
  · have hnext : i32 ((b : ℤ) + 1) = (b + 1 : ℕ) := i32_natCast (k := b + 1) (by omega)
    have howed : (countLeadingOnes c : ℤ) - 1 = tail.length := by omega
    have hmulti : singles [c :: tail] = 0 ∧ multis [c :: tail] = 1 := by
      have hpos : tail ≠ [] := fun hnil => by
        rw [hnil, List.length_nil] at hk
        omega
      simp [singles, multis, hpos, List.length_pos_iff]
    rw [if_neg hzero, howed, hmulti.1, hmulti.2]
    dsimp only
    rw [hnext]
    exact main_continued (by omega) hcontinued _ _

/-- What the program prints for a sequence of symbols. -/
theorem main_symbols {symbols : List Bytes} {input : Bytes} (h : Decomposes symbols input)
    (hcount : a + b + input.length < 2 ^ 31) :
    main input ⟨a, b, 0⟩ =
      (printValues (a + singles symbols : ℕ) (b + multis symbols : ℕ), 0) := by
  obtain ⟨rfl, hsymbols⟩ := h
  induction symbols generalizing a b with
  | nil => rfl
  | cons s symbols ih =>
    obtain ⟨hs, hrest⟩ := List.forall_mem_cons.mp hsymbols
    have hpos : 0 < s.length := by
      obtain ⟨c, tail, -, -⟩ := hs
      exact Nat.succ_pos _
    rw [List.flatten_cons, List.length_append] at hcount
    have hone : singles [s] + multis [s] ≤ 1 := by
      simp only [singles, multis, List.countP_singleton, decide_eq_true_eq]
      split_ifs <;> omega
    have hsum : singles (s :: symbols) = singles [s] + singles symbols ∧
        multis (s :: symbols) = multis [s] + multis symbols :=
      ⟨@List.countP_append _ _ [s] symbols, @List.countP_append _ _ [s] symbols⟩
    rw [List.flatten_cons, main_symbol hs (by omega), ih hrest (by omega), hsum.1, hsum.2,
      Nat.add_assoc, Nat.add_assoc]

/-- A run that ends well has read the bytes that it owed, and symbols. -/
theorem exists_symbols {input : Bytes} {k : ℕ} {asciiSymCount otherSymCount : ℤ} (hk : k ≤ 3)
    (hrun : (main input ⟨asciiSymCount, otherSymCount, k⟩).2 = 0) :
    ∃ (tail : Bytes) (symbols : List Bytes), input = tail ++ symbols.flatten ∧ tail.length = k ∧
      (∀ d ∈ tail, IsContinuation d) ∧ ∀ s ∈ symbols, IsSymbol s := by
  induction input generalizing k asciiSymCount otherSymCount with
  | nil =>
    have hzero : k = 0 := by simpa [main] using hrun
    exact ⟨[], [], rfl, hzero.symm, by simp, by simp⟩
  | cons c input ih =>
    rw [main] at hrun
    dsimp only at hrun
    split_ifs at hrun with hbad hone hzero
    all_goals rw [not_or] at hbad
    · have hne : k ≠ 0 := by simpa [hone] using hbad.2
      obtain ⟨k, rfl⟩ := Nat.exists_eq_succ_of_ne_zero hne
      have hdown : i32 (((k + 1 : ℕ) : ℤ) - 1) = k := by
        rw [Nat.cast_succ, add_sub_cancel_right]
        exact i32_natCast (by omega)
      rw [hdown] at hrun
      obtain ⟨tail, symbols, rfl, hlen, htail, hsymbols⟩ := ih (by omega) hrun
      refine ⟨c :: tail, symbols, rfl, by simp [hlen], ?_, hsymbols⟩
      rw [List.forall_mem_cons]
      exact ⟨(leading_ones c).1.mpr hone, htail⟩
    · have hk0 : k = 0 := by simpa [hone] using hbad.2
      obtain ⟨tail, symbols, rfl, hlen, htail, hsymbols⟩ := ih hk hrun
      have hnil : tail = [] := List.length_eq_zero_iff.mp (by omega)
      have hlead : announced c = some 0 := by
        rw [announced_of_leading_ones hone (by omega), hzero]
      refine ⟨[], [c] :: symbols, by rw [hnil]; rfl, hk0.symm, by simp, ?_⟩
      rw [List.forall_mem_cons]
      exact ⟨.mk c [] hlead (by simp), hsymbols⟩
    · have hk0 : k = 0 := by simpa [hone] using hbad.2
      have howed : (countLeadingOnes c : ℤ) - 1 = (countLeadingOnes c - 1 : ℕ) := by omega
      rw [howed] at hrun
      obtain ⟨tail, symbols, rfl, hlen, htail, hsymbols⟩ := ih (by omega) hrun
      have hlead : announced c = some tail.length := by
        rw [announced_of_leading_ones hone (by omega), hlen]
      refine ⟨[], (c :: tail) :: symbols, rfl, hk0.symm, by simp, ?_⟩
      rw [List.forall_mem_cons]
      exact ⟨.mk c tail hlead htail, hsymbols⟩

theorem main_status (input : Bytes) (s : Counts) : (main input s).2 = 0 ∨ (main input s).2 = 1 := by
  induction input generalizing s with
  | nil =>
    rw [main]
    split_ifs
    · exact .inr rfl
    · exact .inl rfl
  | cons c input ih =>
    rw [main]
    split_ifs
    · exact .inr rfl
    · exact ih _
    · exact ih _
    · exact ih _

end Run

/-- Where a symbol ends is determined by how it starts. -/
theorem IsSymbol.append_inj {s s' rest rest' : Bytes} (h : IsSymbol s) (h' : IsSymbol s')
    (heq : s ++ rest = s' ++ rest') : s = s' ∧ rest = rest' := by
  obtain ⟨c, tail, hlead, -⟩ := h
  obtain ⟨c', tail', hlead', -⟩ := h'
  obtain ⟨rfl, htails⟩ := List.cons.inj heq
  have hlen : tail.length = tail'.length := Option.some.inj (hlead.symm.trans hlead')
  obtain ⟨rfl, rfl⟩ := List.append_inj htails hlen
  exact ⟨rfl, rfl⟩

theorem Decomposes.unique {symbols symbols' : List Bytes} {input : Bytes}
    (h : Decomposes symbols input) (h' : Decomposes symbols' input) : symbols = symbols' := by
  obtain ⟨rfl, hsymbols⟩ := h
  obtain ⟨heq, hsymbols'⟩ := h'
  induction symbols generalizing symbols' with
  | nil =>
    cases symbols' with
    | nil => rfl
    | cons s' symbols' =>
      obtain ⟨c, tail, -, -⟩ := hsymbols' s' (by simp)
      cases heq
  | cons s symbols ih =>
    cases symbols' with
    | nil =>
      obtain ⟨c, tail, -, -⟩ := hsymbols s (by simp)
      cases heq
    | cons s' symbols' =>
      obtain ⟨hs, hrest⟩ := List.forall_mem_cons.mp hsymbols
      obtain ⟨hs', hrest'⟩ := List.forall_mem_cons.mp hsymbols'
      obtain ⟨rfl, htails⟩ := hs'.append_inj hs heq
      rw [ih hrest htails hrest']

/-- The counter exits with 0 on the sequences of symbols, and prints how many of them are single
bytes and how many are not; on every other sequence it exits with 1. -/
theorem utf8_count_correct (input : Bytes) (hlen : input.length < 2 ^ 31) :
    ((main input ⟨0, 0, 0⟩).2 = 0 ↔ ∃ symbols, Decomposes symbols input) ∧
      ((main input ⟨0, 0, 0⟩).2 ≠ 0 → (main input ⟨0, 0, 0⟩).2 = 1) ∧
      ∀ symbols, Decomposes symbols input →
        (main input ⟨0, 0, 0⟩).1 = printValues (singles symbols) (multis symbols) ∧
        ∀ symbols', Decomposes symbols' input → symbols' = symbols := by
  have hrun : ∀ symbols, Decomposes symbols input →
      main input ⟨0, 0, 0⟩ = (printValues (singles symbols) (multis symbols), 0) := by
    intro symbols h
    simpa using main_symbols (a := 0) (b := 0) h (by omega)
  refine ⟨⟨fun hzero => ?_, ?_⟩, (main_status input ⟨0, 0, 0⟩).resolve_left,
    fun symbols h => ⟨?_, fun symbols' h' => h'.unique h⟩⟩
  · obtain ⟨tail, symbols, heq, htail, -, hsymbols⟩ :=
      exists_symbols (k := 0) (Nat.zero_le 3) hzero
    rw [List.length_eq_zero_iff.mp htail, List.nil_append] at heq
    exact ⟨symbols, heq.symm, hsymbols⟩
  · rintro ⟨symbols, h⟩
    rw [hrun symbols h]
  · rw [hrun symbols h]

/-- The letter `a` and a symbol of two bytes. -/
def twoSymbols : Bytes := [0x61, 0xC3, 0xA9]

theorem utf8_count_two_symbols :
    ((main twoSymbols ⟨0, 0, 0⟩).2 = 0 ↔ ∃ symbols, Decomposes symbols twoSymbols) ∧
      ((main twoSymbols ⟨0, 0, 0⟩).2 ≠ 0 → (main twoSymbols ⟨0, 0, 0⟩).2 = 1) ∧
      ∀ symbols, Decomposes symbols twoSymbols →
        (main twoSymbols ⟨0, 0, 0⟩).1 = printValues (singles symbols) (multis symbols) ∧
        ∀ symbols', Decomposes symbols' twoSymbols → symbols' = symbols :=
  utf8_count_correct twoSymbols (by decide)

end Acos.Utf8Count
