import Mathlib.Algebra.BigOperators.Group.List.Basic
import Mathlib.Algebra.Order.Ring.Int
import Mathlib.Data.Nat.Basic

/-! Sums in ones' complement. The words are the numbers up to `n`, which has all bits set; `n`
stands for zero as well. -/
namespace Acos.OnesComplement

/-- The sum of two words: a carry out of the word is added to it. -/
def onesAdd (n a b : ℕ) : ℕ := if a + b ≤ n then a + b else a + b - n

def onesSum (n : ℕ) (ws : List ℕ) : ℕ := ws.foldl (onesAdd n) 0

/-- The word for a number. It is 0 for the number 0 alone. -/
def canonical (n s : ℕ) : ℕ := if s = 0 then 0 else (s - 1) % n + 1

/-- The carries of a sum are added to its lowest word. -/
def foldCarry (n s : ℕ) : ℕ := s / (n + 1) + s % (n + 1)

section
variable {n a b s : ℕ} {ws : List ℕ}

theorem canonical_of_le (h : s ≤ n) : canonical n s = s := by
  unfold canonical
  split_ifs with hzero
  · exact hzero.symm
  · rw [Nat.mod_eq_of_lt (by omega)]
    omega

theorem canonical_le (hn : 0 < n) (s : ℕ) : canonical n s ≤ n := by
  unfold canonical
  split_ifs
  · exact Nat.zero_le n
  · exact Nat.mod_lt _ hn

/-- Multiples of `n` do not count. -/
theorem canonical_add_mul (hs : 0 < s) (q : ℕ) : canonical n (s + n * q) = canonical n s := by
  have hsub : s + n * q - 1 = s - 1 + n * q := Nat.sub_add_comm hs
  rw [canonical, canonical, if_neg (by omega), if_neg (by omega), hsub, Nat.add_mul_mod_self_left]

/-- A number is its word and a multiple of `n`. -/
theorem exists_eq_canonical_add (n s : ℕ) : ∃ q, s = canonical n s + n * q := by
  unfold canonical
  split_ifs with hzero
  · exact ⟨0, by omega⟩
  · refine ⟨(s - 1) / n, ?_⟩
    have hdiv := Nat.mod_add_div (s - 1) n
    omega

theorem canonical_pos (hs : 0 < s) : 0 < canonical n s := by
  rw [canonical, if_neg (by omega)]
  exact Nat.succ_pos _

theorem canonical_add (n a b : ℕ) : canonical n (canonical n a + b) = canonical n (a + b) := by
  obtain ⟨q, hq⟩ := exists_eq_canonical_add n a
  by_cases hzero : a = 0
  · rw [hzero]
    rfl
  · have hpos := canonical_pos (n := n) (Nat.pos_of_ne_zero hzero)
    have hsum : a + b = canonical n a + b + n * q := by omega
    rw [hsum, canonical_add_mul (by omega)]

theorem onesAdd_eq (ha : a ≤ n) (hb : b ≤ n) : onesAdd n a b = canonical n (a + b) := by
  unfold onesAdd
  split_ifs with hcarry
  · exact (canonical_of_le hcarry).symm
  · have hsum : a + b = a + b - n + n * 1 := by omega
    rw [hsum, canonical_add_mul (by omega), canonical_of_le (by omega)]
    omega

theorem foldl_onesAdd (hn : 0 < n) (hws : ∀ w ∈ ws, w ≤ n) (ha : a ≤ n) :
    ws.foldl (onesAdd n) a = canonical n (a + ws.sum) := by
  induction ws generalizing a with
  | nil => exact (canonical_of_le ha).symm
  | cons w ws ih =>
    obtain ⟨hw, hws⟩ := List.forall_mem_cons.mp hws
    rw [List.foldl_cons, onesAdd_eq ha hw, ih hws (canonical_le hn _), canonical_add,
      List.sum_cons, Nat.add_assoc]

/-- The sum of words is the word for their sum. -/
theorem onesSum_eq (hn : 0 < n) (hws : ∀ w ∈ ws, w ≤ n) : onesSum n ws = canonical n ws.sum := by
  rw [onesSum, foldl_onesAdd hn hws (Nat.zero_le n), Nat.zero_add]

theorem canonical_foldCarry (n s : ℕ) : canonical n (foldCarry n s) = canonical n s := by
  have hdiv := Nat.div_add_mod s (n + 1)
  rw [Nat.succ_mul] at hdiv
  by_cases hzero : foldCarry n s = 0
  · rw [foldCarry] at hzero
    have hs : s = 0 := by
      rw [← hdiv, (Nat.add_eq_zero_iff.mp hzero).1, (Nat.add_eq_zero_iff.mp hzero).2]
      rfl
    rw [hs, foldCarry, Nat.zero_div, Nat.zero_mod]
  · have hs : s = foldCarry n s + n * (s / (n + 1)) := by
      rw [foldCarry]
      omega
    conv_rhs => rw [hs, canonical_add_mul (Nat.pos_of_ne_zero hzero)]

/-- A number and the complement of its word make the other zero. -/
theorem canonical_add_complement (hn : 0 < n) (s : ℕ) : canonical n (s + (n - canonical n s)) = n := by
  obtain ⟨q, hq⟩ := exists_eq_canonical_add n s
  have hle := canonical_le hn s
  have hsum : s + (n - canonical n s) = n + n * q := by omega
  rw [hsum, canonical_add_mul hn, canonical_of_le le_rfl]

end

end Acos.OnesComplement
