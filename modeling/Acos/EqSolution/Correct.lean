import Acos.Lib.ArmText
import Mathlib.Data.BitVec
import Mathlib.Order.Bounds.Basic
import Mathlib.Tactic.Ring

/-! `solve` of `eqsolution/main.s`: the search for a root counts up from 0 and computes in words. So
it ends at the first number whose value is a multiple of `2 ^ 32`. -/
namespace Acos.EqSolution
open Acos.ArmText

inductive Label where
  | solve | whilebegin | whileend
  deriving DecidableEq, Repr

/-- `r4` is `x`, `r5` a power of it, `r6` the answer. -/
def whilebeginOps : List Op := [
  .mov .r6 (.reg .r3),
  .mov .r5 (.reg .r4),
  .mul .r7 .r5 .r2,
  .add .r6 .r6 (.reg .r7),
  .mul .r7 .r5 .r4,
  .mov .r5 (.reg .r7),
  .mul .r7 .r5 .r1,
  .add .r6 .r6 (.reg .r7),
  .mul .r7 .r5 .r4,
  .mov .r5 (.reg .r7),
  .mul .r7 .r5 .r0,
  .add .r6 .r6 (.reg .r7),
  .add .r4 .r4 (.imm 1),
  .cmp .r6 (.imm 0)]

def solveOps : List Op := [.push [.r4, .r5, .r6, .r7], .mov .r4 (.imm 0)]

def whileendOps : List Op :=
  [.mov .r0 (.reg .r4), .sub .r0 .r0 (.imm 1), .pop [.r4, .r5, .r6, .r7]]

def code : Label → Block Label Empty
  | .solve => ⟨solveOps, .b .whilebegin⟩
  | .whilebegin => ⟨whilebeginOps, .bc .ne .whilebegin .whileend⟩
  | .whileend => ⟨whileendOps, .bx⟩

/-- The routine calls nothing. -/
def noCall : Routines Empty Unit := fun routine => routine.elim

abbrev Run : State Label Unit → State Label Unit → Prop := Steps code noCall fun _ _ _ => True

/-- The routine comes back with the value `v` and the registers of the caller. -/
def Returns (m : Machine) (v : Word) : Prop :=
  ∃ t, Run ⟨m, (), .at .solve⟩ ⟨t, (), .out (m.reg .lr)⟩ ∧ t.reg .r0 = v ∧
    ∀ r ∈ [Reg.r4, .r5, .r6, .r7, .r8, .r9, .r10, .r11, .sp], t.reg r = m.reg r

/-- `A x ^ 3 + B x ^ 2 + C x + D`. -/
def polynomial (m : Machine) (x : ℤ) : ℤ :=
  (m.reg .r0).toInt * x ^ 3 + (m.reg .r1).toInt * x ^ 2 + (m.reg .r2).toInt * x +
    (m.reg .r3).toInt

/-- The loop begins a round with `x` in `r4`. -/
structure Searching (m s : Machine) (x : ℕ) : Prop where
  x : s.reg .r4 = BitVec.ofNat 32 x
  kept : ∀ r ∈ [Reg.r0, .r1, .r2, .r3, .r8, .r9, .r10, .r11, .lr], s.reg r = m.reg r
  sp : s.reg .sp = m.reg .sp - 16#32
  saved : Machine.Holds s.mem (m.reg .sp - 16#32) [m.reg .r4, m.reg .r5, m.reg .r6, m.reg .r7]

section
variable {m s : Machine} {x : ℕ} {v : Word}

theorem checked_true (m : Machine) (ops : List Op) : Checked (fun _ _ => True) m ops := by
  induction ops generalizing m with
  | nil => trivial
  | cons op ops ih => exact ⟨trivial, ih _⟩

theorem ofInt_eq_zero_iff (z : ℤ) : BitVec.ofInt 32 z = 0 ↔ (2 : ℤ) ^ 32 ∣ z := by
  rw [← BitVec.toNat_inj, BitVec.toNat_ofInt, Int.dvd_iff_emod_eq_zero]
  simp
  omega

/-- The answer of a round is the value of the polynomial modulo `2 ^ 32`. -/
theorem answer_eq (h : Searching m s x) :
    (execs s whilebeginOps).reg .r6 = BitVec.ofInt 32 (polynomial m x) := by
  have hA := h.kept .r0 (by decide)
  have hB := h.kept .r1 (by decide)
  have hC := h.kept .r2 (by decide)
  have hD := h.kept .r3 (by decide)
  have hx : BitVec.ofInt 32 (x : ℤ) = BitVec.ofNat 32 x := BitVec.ofInt_natCast 32 x
  simp only [polynomial, pow_succ, pow_zero, one_mul, BitVec.ofInt_add, BitVec.ofInt_mul,
    BitVec.ofInt_toInt, hx]
  simp [whilebeginOps, h.x, hA, hB, hC, hD]
  ring

theorem searching_start (m : Machine) : Searching m (execs m solveOps) 0 where
  x := by simp [solveOps]
  kept := by simp [solveOps]
  sp := by simp [solveOps]
  saved := @Machine.storeRegs_holds (m.set .sp (m.reg .sp - 16#32)) _ [.r4, .r5, .r6, .r7]
    (by decide)

theorem whilebegin_mem (s : Machine) : (execs s whilebeginOps).mem = s.mem := by
  simp [whilebeginOps]

theorem searching_round (h : Searching m s x) : Searching m (execs s whilebeginOps) (x + 1) where
  x := by simp [whilebeginOps, h.x, BitVec.ofNat_add]
  kept := by
    have hkept := h.kept
    simp only [List.forall_mem_cons] at hkept
    simp [whilebeginOps, hkept]
  sp := by simp [whilebeginOps, h.sp]
  saved := by
    rw [whilebegin_mem]
    exact h.saved

theorem flags_round (h : Searching m s x) : (execs s whilebeginOps).flags.zero =
    decide ((2 : ℤ) ^ 32 ∣ polynomial m x) := by
  have hflag : (execs s whilebeginOps).flags.zero = ((execs s whilebeginOps).reg .r6 == 0) := by
    simp [whilebeginOps, ArmText.compare]
  rw [hflag, answer_eq h, Bool.eq_iff_iff, beq_iff_eq, decide_eq_true_iff, ofInt_eq_zero_iff]

/-- The registers after the loop. -/
theorem whileend_eq (h : Searching m s (x + 1)) :
    (execs s whileendOps).reg .r0 = BitVec.ofNat 32 x ∧
      ∀ r ∈ [Reg.r4, .r5, .r6, .r7, .r8, .r9, .r10, .r11, .sp, .lr],
        (execs s whileendOps).reg r = m.reg r := by
  have hkept := h.kept
  simp only [List.forall_mem_cons] at hkept
  obtain ⟨hr4, hr5, hr6, hr7, -⟩ := h.saved
  have hx : BitVec.ofNat 32 (x + 1) - 1 = BitVec.ofNat 32 x := by
    rw [BitVec.ofNat_add]
    exact add_sub_cancel_right _ _
  constructor
  · simpa [whileendOps, h.x] using hx
  · simp [whileendOps, h.sp, hkept]
    exact ⟨hr4, hr5, hr6, hr7⟩

theorem round_steps (h : Searching m s x) : Run ⟨s, (), .at .whilebegin⟩
    ⟨execs s whilebeginOps, (),
      .at (if (2 : ℤ) ^ 32 ∣ polynomial m x then .whileend else .whilebegin)⟩ := by
  have hblock : Run ⟨s, (), .at .whilebegin⟩ ((Term.bc .ne .whilebegin .whileend).exec noCall
      (execs s whilebeginOps) ()) := Steps.block rfl (checked_true s whilebeginOps)
  simpa [Term.exec, Cond.holds, flags_round h] using hblock

/-- From a round on the search goes on to the first multiple. -/
theorem search_steps {n z : ℕ} (h : Searching m s x) (hz : x + n = z)
    (hbefore : ∀ y < z, ¬ (2 : ℤ) ^ 32 ∣ polynomial m y)
    (hroot : (2 : ℤ) ^ 32 ∣ polynomial m z) :
    ∃ t, Searching m t (z + 1) ∧ Run ⟨s, (), .at .whilebegin⟩ ⟨t, (), .at .whileend⟩ := by
  have hround := round_steps h
  induction n generalizing s x with
  | zero =>
    obtain rfl : x = z := hz
    rw [if_pos hroot] at hround
    exact ⟨_, searching_round h, hround⟩
  | succ n ih =>
    rw [if_neg (hbefore x (by omega))] at hround
    obtain ⟨t, ht, hrest⟩ :=
      ih (searching_round h) (by omega) (round_steps (searching_round h))
    exact ⟨t, ht, hround.trans hrest⟩

/-- The routine returns the first number whose value is a multiple of `2 ^ 32`. -/
theorem returns_first {z : ℕ} (hbefore : ∀ y < z, ¬ (2 : ℤ) ^ 32 ∣ polynomial m y)
    (hroot : (2 : ℤ) ^ 32 ∣ polynomial m z) : Returns m (BitVec.ofNat 32 z) := by
  have hstart : Run ⟨m, (), .at .solve⟩ ⟨execs m solveOps, (), .at .whilebegin⟩ :=
    Steps.block rfl (checked_true m solveOps)
  obtain ⟨t, ht, hsearch⟩ :=
    search_steps (searching_start m) (Nat.zero_add z) hbefore hroot
  have hend : Run ⟨t, (), .at .whileend⟩
      ⟨execs t whileendOps, (), .out ((execs t whileendOps).reg .lr)⟩ :=
    Steps.block rfl (checked_true t whileendOps)
  obtain ⟨hr0, hkept⟩ := whileend_eq ht
  rw [hkept .lr (by decide)] at hend
  exact ⟨_, (hstart.trans hsearch).trans hend, hr0, fun r hr =>
    hkept r (List.mem_append_left [Reg.lr] hr)⟩

theorem Returns.unique {w : Word} (hv : Returns m v) (hw : Returns m w) : v = w := by
  obtain ⟨t, hrun, rfl, -⟩ := hv
  obtain ⟨u, hrun', rfl, -⟩ := hw
  have heq := hrun.unique hrun' (stuck_of_out rfl) (stuck_of_out rfl)
  exact congrArg (fun s => s.machine.reg .r0) heq

/-- The routine returns the least root if and only if no smaller number has a multiple of `2 ^ 32`
as its value. -/
theorem solve_iff (hx : IsLeast {x : ℕ | x < 2 ^ 31 ∧ polynomial m x = 0} x) :
    Returns m (BitVec.ofNat 32 x) ↔ ∀ y < x, ¬ (2 : ℤ) ^ 32 ∣ polynomial m y := by
  obtain ⟨⟨hlt, hzero⟩, -⟩ := hx
  have hroot : (2 : ℤ) ^ 32 ∣ polynomial m x := hzero ▸ dvd_zero _
  constructor
  · intro h y hy hdvd
    have hex : ∃ z : ℕ, (2 : ℤ) ^ 32 ∣ polynomial m z := ⟨y, hdvd⟩
    have hfirst := returns_first (fun z hz => Nat.find_min hex hz) (Nat.find_spec hex)
    have hle := Nat.find_min' hex hdvd
    have heq := congrArg BitVec.toNat (h.unique hfirst)
    rw [BitVec.toNat_ofNat, BitVec.toNat_ofNat, Nat.mod_eq_of_lt (by omega),
      Nat.mod_eq_of_lt (by omega)] at heq
    omega
  · exact fun hbefore => returns_first hbefore hroot

end

/-- The machine with the coefficients in its registers. -/
def coefficients (A B C D : ℤ) : Machine where
  reg r := BitVec.ofInt 32 (match r with
    | .r0 => A
    | .r1 => B
    | .r2 => C
    | .r3 => D
    | _ => 0)
  mem _ := 0
  flags := ⟨false, false⟩

theorem isLeast_two {m : Machine} (hzero : polynomial m 0 ≠ 0) (hone : polynomial m 1 ≠ 0)
    (htwo : polynomial m 2 = 0) : IsLeast {x : ℕ | x < 2 ^ 31 ∧ polynomial m x = 0} 2 := by
  refine ⟨⟨by decide, htwo⟩, fun y hy => ?_⟩
  match y with
  | 0 => exact absurd hy.2 hzero
  | 1 => exact absurd hy.2 hone
  | y + 2 => exact Nat.le_add_left 2 y

theorem solve_two : Returns (coefficients 0 0 1 (-2)) (BitVec.ofNat 32 2) :=
  (solve_iff (isLeast_two (by decide) (by decide) (by decide))).mpr (by decide)

/-- The value at 1 is `2 ^ 32`, the least root is 2. -/
theorem solve_not_least : ¬ ∀ (m : Machine) (x : ℕ),
    IsLeast {x : ℕ | x < 2 ^ 31 ∧ polynomial m x = 0} x → Returns m (BitVec.ofNat 32 x) := by
  intro h
  have htwo := h (coefficients (-1700000000) 1850000000 2055032704 2089934592) 2
    (isLeast_two (by decide) (by decide) (by decide))
  exact absurd (htwo.unique (returns_first (by decide) (by decide) : Returns _ (BitVec.ofNat 32 1)))
    (by decide)

end Acos.EqSolution
