import Acos.Lib.MachineInt
import Acos.Lib.Nested
import Acos.Lib.Scanf

/-! `main` of `inf11-1-posix_fork_proc-print-numbers/main.c`. Each process has its own copies of the
variables and of the buffer of `stdout`, which is empty when it forks. -/
namespace Acos.PrintNumbers
open Acos.CString Acos.MachineInt Acos.Nested Acos.Scanf Acos.Transition

/-- `status` is what `main` returns. -/
structure Process where
  value : ℤ
  init_value : ℤ
  status : Option ℤ
  deriving DecidableEq, Repr

def start (arg : Bytes) : Process := ⟨i32 (strtol arg).1, i32 (strtol arg).1, none⟩

/-- The loop up to `waitpid`; the child comes to its head again. `forks` says which processes can
start another one, by their values. -/
def enter (forks : ℤ → Bool) (out : Bytes) (p : Process) (_ : Unit) :
    Option (Bytes × Process × Option Process) :=
  if 1 ≤ p.value then
    if forks p.value then some (out, p, some { p with value := p.value - 1 })
    else some (out, { p with status := some 1 }, none)
  else some (out, { p with status := some 0 }, none)

/-- What `printf` puts into the buffer. -/
def text (p : Process) : Bytes :=
  decimal p.value.toNat ++ [if p.value = p.init_value then 10 else 32]

/-- Behind `waitpid`; the buffer is written when the process ends. -/
def finish (out : Bytes) (p : Process) : Bytes × Process :=
  (out ++ text p, { p with status := some 0 })

def program (forks : ℤ → Bool) : Program Bytes Process Unit := ⟨enter forks, finish⟩

/-- The numbers from `k + 1` to `v`, each with what stands behind it; `n` is at the end of the
line. -/
def counted (n k v : ℕ) : Bytes :=
  ((List.range' (k + 1) (v - k)).map fun j => decimal j ++ [if j = n then 10 else 32]).flatten

section
variable {forks : ℤ → Bool} {out out' : Bytes} {p p' : Process} {n k v : ℕ}

/-- The last process, counted downwards, that cannot start another one. -/
theorem exists_stopped (forks : ℤ → Bool) (n : ℕ) : ∃ k ≤ n, (k = 0 ∨ forks k = false) ∧
    ∀ j : ℕ, k < j → j ≤ n → forks j = true := by
  induction n with
  | zero => exact ⟨0, le_rfl, .inl rfl, fun j hlt hle => by omega⟩
  | succ n ih =>
    cases hforks : forks (n + 1 : ℕ) with
    | false => exact ⟨n + 1, le_rfl, .inr hforks, fun j hlt hle => by omega⟩
    | true =>
      obtain ⟨k, hk, hstop, hall⟩ := ih
      refine ⟨k, Nat.le_succ_of_le hk, hstop, fun j hlt hle => ?_⟩
      rcases Nat.lt_or_eq_of_le hle with hlt' | rfl
      · exact hall j hlt (Nat.le_of_lt_succ hlt')
      · exact hforks

theorem counted_succ (hk : k ≤ v) : counted n k (v + 1) =
    counted n k v ++ (decimal (v + 1) ++ [if v + 1 = n then 10 else 32]) := by
  have hlength : v + 1 - k = v - k + 1 := by omega
  have hlast : k + 1 + (v - k) = v + 1 := by omega
  rw [counted, hlength, List.range'_concat, Nat.one_mul, hlast, List.map_append,
    List.flatten_append, List.map_singleton, List.flatten_singleton]
  rfl

/-- The calls print the numbers in ascending order. -/
theorem calls_counted (hstop : k = 0 ∨ forks k = false)
    (hall : ∀ j : ℕ, k < j → j ≤ n → forks j = true)
    (h : Calls (program forks) out p out' p') (hinit : p.init_value.toNat = n)
    (hvalue : p.value.toNat = v) (hle : v ≤ n) (hk : k ≤ v) :
    out' = out ++ counted n k v ∧ p'.status = some (if k = v ∧ 0 < k then 1 else 0) := by
  induction h generalizing v with
  | @leaf out p _ out' p' h =>
    simp only [program, enter] at h
    have hnil : counted n v v = [] := by simp [counted]
    split_ifs at h with hpos hforks
    · cases h
    · cases h
      have hcast : p.value = v := by omega
      rw [hcast] at hforks
      obtain rfl : k = v := by
        by_contra hne
        exact hforks (hall v (by omega) hle)
      exact ⟨by rw [hnil, List.append_nil], by rw [if_pos ⟨rfl, by omega⟩]⟩
    · cases h
      obtain rfl : v = 0 := by omega
      obtain rfl : k = 0 := by omega
      exact ⟨by rw [hnil, List.append_nil], rfl⟩
  | @call out p _ out₁ p₁ child out₂ _ h hcall ih =>
    simp only [program, enter] at h
    have htest : 1 ≤ p.value ∧ forks p.value = true := by
      split_ifs at h with hpos hforks
      · exact ⟨hpos, hforks⟩
      · cases h
      · cases h
    obtain ⟨hpos, hforks⟩ := htest
    rw [if_pos hpos, if_pos hforks] at h
    cases h
    obtain ⟨w, rfl⟩ : ∃ w, v = w + 1 := ⟨v - 1, by omega⟩
    have hcast : p.value = (w + 1 : ℕ) := by omega
    rw [hcast] at hforks
    have hne : k ≠ w + 1 := by
      rintro rfl
      rcases hstop with hzero | hfalse
      · cases hzero
      · rw [hforks] at hfalse
        cases hfalse
    obtain ⟨hout, -⟩ := ih hinit (v := w) (by simp; omega) (by omega) (by omega)
    have htext : text p = decimal (w + 1) ++ [if w + 1 = n then 10 else 32] := by
      have hlast : p.value = p.init_value ↔ w + 1 = n := by omega
      simp only [text, hvalue, hlast]
    refine ⟨?_, ?_⟩
    · rw [counted_succ (by omega), ← List.append_assoc, ← hout, ← htext]
      rfl
    · rw [if_neg fun h => hne h.1]
      rfl

theorem enter_isSome (out : Bytes) (p : Process) : (enter forks out p ()).isSome := by
  unfold enter
  split_ifs <;> rfl

theorem enter_less {child : Process} (h : enter forks out p () = some (out', p', some child)) :
    child.value.toNat < p.value.toNat := by
  unfold enter at h
  split_ifs at h with hpos hforks
  · cases h
    exact (Int.toNat_lt_toNat (by omega)).mpr (Int.sub_one_lt_of_le le_rfl)
  · cases h
  · cases h

/-- Whichever processes cannot start another one, and in every order of their steps: the first
process comes to its end, and what has been printed are the numbers above the last that could not,
in ascending order, on one line. -/
theorem inevitably_counted (forks : ℤ → Bool) (arg : Bytes) :
    ∃ k ≤ (i32 (strtol arg).1).toNat, (k = 0 ∨ forks k = false) ∧
      (∀ j : ℕ, k < j → j ≤ (i32 (strtol arg).1).toNat → forks j = true) ∧
      Inevitably (next (program forks)) (fun t => ∃ p, t.workers 0 = some (.done p) ∧
        t.shared = counted (i32 (strtol arg).1).toNat k (i32 (strtol arg).1).toNat ∧
        p.status = some (if k = (i32 (strtol arg).1).toNat ∧ 0 < k then 1 else 0))
        (initial [] (start arg)) := by
  obtain ⟨k, hk, hstop, hall⟩ := exists_stopped forks (i32 (strtol arg).1).toNat
  refine ⟨k, hk, hstop, hall, ?_⟩
  have hrun : Inevitably (next (program forks)) (Returned (program forks) [] (start arg))
      (initial [] (start arg)) := by
    exact inevitably_returned (fun _ p => p.value.toNat) (fun out p => ⟨(), enter_isSome out p⟩)
      fun h => enter_less h
  refine hrun.mono fun t ⟨p, hp, hcalls, _⟩ => ⟨p, hp, ?_⟩
  exact calls_counted hstop hall hcalls rfl rfl le_rfl hk

end

end Acos.PrintNumbers
