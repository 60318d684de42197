import Mathlib.Algebra.Order.Ring.Int

/-! The status word that `wait` stores for a terminated child, and the macros that read it. -/
namespace Acos.WaitStatus

/-- A signal that can end a process. -/
structure Signal where
  number : ℕ
  pos : 0 < number
  le : number ≤ 64

/-- How a process ends: by `exit` with a code, or by a signal, with or without a core dump. -/
inductive Ending where
  | exited (code : ℤ)
  | killed (signal : Signal) (core : Bool)

/-- Of an exit code only the low eight bits are kept. -/
def Ending.status : Ending → ℕ
  | .exited code => (code % 256).toNat * 256
  | .killed signal core => signal.number + if core then 128 else 0

def WTERMSIG (status : ℕ) : ℕ := status % 128

def WIFEXITED (status : ℕ) : Bool := WTERMSIG status = 0

def WIFSIGNALED (status : ℕ) : Bool := WTERMSIG status ≠ 0 ∧ WTERMSIG status ≠ 127

def WEXITSTATUS (status : ℕ) : ℕ := status / 256 % 256

@[simp] theorem WTERMSIG_exited (code : ℤ) : WTERMSIG (Ending.exited code).status = 0 := by
  simp only [WTERMSIG, Ending.status]
  omega

@[simp] theorem WTERMSIG_killed (signal : Signal) (core : Bool) :
    WTERMSIG (Ending.killed signal core).status = signal.number := by
  have hle := signal.le
  simp only [WTERMSIG, Ending.status]
  split_ifs <;> omega

theorem WIFEXITED_iff (ending : Ending) :
    WIFEXITED ending.status = true ↔ ∃ code, ending = .exited code := by
  cases ending with
  | exited code => simp [WIFEXITED]
  | killed signal core =>
    have hpos := signal.pos
    simp only [WIFEXITED, WTERMSIG_killed, decide_eq_true_eq, reduceCtorEq, exists_false, iff_false]
    omega

theorem WIFSIGNALED_iff (ending : Ending) :
    WIFSIGNALED ending.status = true ↔ ∃ signal core, ending = .killed signal core := by
  cases ending with
  | exited code => simp [WIFSIGNALED]
  | killed signal core =>
    have hpos := signal.pos
    have hle := signal.le
    simp only [WIFSIGNALED, WTERMSIG_killed, decide_eq_true_eq, Ending.killed.injEq, exists_eq',
      exists_and_left, and_true, iff_true]
    omega

@[simp] theorem WEXITSTATUS_exited (code : ℕ) :
    WEXITSTATUS (Ending.exited code).status = code % 256 := by
  simp only [WEXITSTATUS, Ending.status]
  omega

end Acos.WaitStatus
