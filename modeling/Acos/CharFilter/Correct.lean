import Acos.CharFilter.Model
import Acos.ReversePrint.Correct

/-! The loop prints what lies between its two bounds. The upper one lets the colon through as well. -/
namespace Acos.CharFilter
open Acos.ArmText Acos.CString
open Acos.ReversePrint (caller charWord charWord_ne charWord_toUInt8 ofNat_slt)

/-- What the program leaves alone on the way. -/
structure Framed (m s : Machine) : Prop where
  sp : s.reg .sp = m.reg .sp - 4#32
  link : s.mem (m.reg .sp - 4#32) = m.reg .lr
  saved : ∀ r ∈ [Reg.r4, .r5, .r6, .r7, .r8, .r9, .r10, .r11], s.reg r = m.reg r

section
variable {stdin stdout behind : Word} {m s s' : Machine} {w : World} {c : UInt8}

abbrev Run (behind : Word) (lib : Library stdin stdout (m.reg .sp - 4#32)) :
    State Label World → State Label World → Prop :=
  Steps (code stdin stdout behind) lib.call Unchecked

variable (behind : Word) (lib : Library stdin stdout (m.reg .sp - 4#32))

theorem checked (s : Machine) (w : World) (ops : List Op) : Checked (Unchecked w) s ops := by
  induction ops generalizing s with
  | nil => trivial
  | cons op ops ih => exact ⟨trivial, ih _⟩

theorem Framed.of_eq (h : Framed m s) (hmem : s'.mem = s.mem)
    (hreg : ∀ r ∈ [Reg.r4, .r5, .r6, .r7, .r8, .r9, .r10, .r11, .sp], s'.reg r = s.reg r) :
    Framed m s' :=
  ⟨(hreg .sp (by decide)).trans h.sp, hmem ▸ h.link,
    fun r hr => (hreg r (List.mem_append_left [Reg.sp] hr)).trans (h.saved r hr)⟩

/-- The frame outlives a call. -/
theorem Framed.called (h : Framed m s) (routine : Routine) (w : World) :
    Framed m (lib.call routine s w).1 := by
  have hsaved := lib.saved h.sp routine w
  refine ⟨(hsaved .sp (by decide)).trans h.sp, (lib.frame h.sp routine w).trans h.link, ?_⟩
  exact fun r hr => (hsaved r (List.mem_append_left [Reg.sp] hr)).trans (h.saved r hr)

/-- A call of `fgetc`. -/
theorem get_steps (h : Framed m s) (w : World) :
    ∃ s', Run behind lib ⟨s, w, .at .getsymbol⟩ ⟨s', { w with input := w.input.tail }, .at .got⟩ ∧
      Framed m s' ∧ s'.reg .r0 = w.input.head?.elim (-1) charWord := by
  have hframed : Framed m (execs s (getOps stdin)) :=
    h.of_eq (by simp [getOps]) (by simp [getOps])
  obtain ⟨hr0, hworld⟩ := lib.fgetc hframed.sp (by simp [getOps]) w
  have hcall : Run behind lib ⟨s, w, .at .getsymbol⟩
      ((Term.bl .fgetc .got).exec lib.call (execs s (getOps stdin)) w) :=
    Steps.block rfl (checked _ _ _)
  rw [Term.exec, hworld] at hcall
  exact ⟨_, hcall, hframed.called lib .fgetc w, hr0⟩

/-- A call of `fputc`, back to the loop. -/
theorem put_steps (h : Framed m s) (w : World) (hr0 : s.reg .r0 = charWord c) :
    ∃ s', Run behind lib ⟨s, w, .at .put⟩
        ⟨s', { w with output := w.output ++ [c] }, .at .getsymbol⟩ ∧ Framed m s' := by
  have hframed : Framed m (execs s (putOps stdout)) :=
    h.of_eq (by simp [putOps]) (by simp [putOps])
  have hworld := lib.fputc hframed.sp (by simp [putOps]) w
  have hchar : (execs s (putOps stdout)).reg .r0 = charWord c := by simpa [putOps] using hr0
  have hcall : Run behind lib ⟨s, w, .at .put⟩
      ((Term.bl .fputc .again).exec lib.call (execs s (putOps stdout)) w) :=
    Steps.block rfl (checked _ _ _)
  rw [Term.exec, hworld, hchar, charWord_toUInt8] at hcall
  have hagain (t : Machine) (w' : World) :
      Run behind lib ⟨t, w', .at .again⟩ ⟨t, w', .at .getsymbol⟩ := Steps.block rfl trivial
  exact ⟨_, hcall.trans (hagain _ _), hframed.called lib .fputc w⟩

/-- The test for the end of the input. -/
theorem got_steps (s : Machine) (w : World) : Run behind lib ⟨s, w, .at .got⟩
    ⟨execs s [.cmp .r0 (.imm (-1))], w, .at (if s.reg .r0 = -1 then .link else .low)⟩ := by
  have hblock : Run behind lib ⟨s, w, .at .got⟩ ((Term.bc .eq .link .low).exec lib.call
      (execs s [.cmp .r0 (.imm (-1))]) w) := Steps.block rfl (checked _ _ _)
  simpa [Term.exec, Cond.holds, ArmText.compare] using hblock

theorem charWord_slt (c b : UInt8) : (charWord c).slt (charWord b) = decide (c < b) := by
  have hc := c.toNat_lt
  have hb := b.toNat_lt
  rw [charWord, charWord, ofNat_slt (by omega) (by omega)]
  simp [UInt8.lt_iff_toNat_lt]

theorem charWord_beq (c b : UInt8) : (charWord c == charWord b) = decide (c = b) := by
  by_cases h : c = b
  · simp [h]
  · have hne : charWord c ≠ charWord b := fun heq =>
      h (by rw [← charWord_toUInt8 c, heq, charWord_toUInt8])
    simp [h, hne]

/-- The two bounds. -/
theorem test_steps (h : Framed m s) (w : World) (hr0 : s.reg .r0 = charWord c) :
    ∃ s', Run behind lib ⟨s, w, .at .low⟩ ⟨s', w, .at (if passes c then .put else .getsymbol)⟩ ∧
      Framed m s' ∧ s'.reg .r0 = charWord c := by
  have hlow : Run behind lib ⟨s, w, .at .low⟩ ((Term.bc .lt .getsymbol .high).exec lib.call
      (execs s [.cmp .r0 (.imm 48)]) w) := Steps.block rfl (checked _ _ _)
  have hless : (execs s [.cmp .r0 (.imm 48)]).flags.less = decide (c < 48) := by
    rw [← charWord_slt]
    simp [ArmText.compare, hr0, charWord]
  rw [Term.exec, Cond.holds, hless] at hlow
  have h₁ : Framed m (execs s [.cmp .r0 (.imm 48)]) := h.of_eq rfl fun _ _ => rfl
  have hr0₁ : (execs s [.cmp .r0 (.imm 48)]).reg .r0 = charWord c := hr0
  generalize execs s [.cmp .r0 (.imm 48)] = s₁ at *
  by_cases hlt : c < 48
  · rw [decide_eq_true hlt, if_pos rfl] at hlow
    have hnot : passes c = false := by
      rw [passes, decide_eq_false (UInt8.not_le.mpr hlt), Bool.false_and]
    exact ⟨s₁, by rwa [hnot, if_neg Bool.false_ne_true], h₁, hr0₁⟩
  rw [decide_eq_false hlt, if_neg Bool.false_ne_true] at hlow
  have hpasses : passes c = (decide (c < 58) || decide (c = 58)) := by
    have hge : 48 ≤ c := UInt8.not_lt.mp hlt
    rw [passes, decide_eq_true hge, Bool.true_and, ← Bool.decide_or]
    exact decide_eq_decide.mpr UInt8.le_iff_lt_or_eq
  have hhigh : Run behind lib ⟨s₁, w, .at .high⟩ ((Term.bc .lt .put .equal).exec lib.call
      (execs s₁ [.cmp .r0 (.imm 58)]) w) := Steps.block rfl (checked _ _ _)
  have hless₁ : (execs s₁ [.cmp .r0 (.imm 58)]).flags.less = decide (c < 58) := by
    rw [← charWord_slt]
    simp [ArmText.compare, hr0₁, charWord]
  have hzero : (execs s₁ [.cmp .r0 (.imm 58)]).flags.zero = decide (c = 58) := by
    rw [← charWord_beq]
    simp [ArmText.compare, hr0₁, charWord]
  rw [Term.exec, Cond.holds, hless₁] at hhigh
  have h₂ : Framed m (execs s₁ [.cmp .r0 (.imm 58)]) := h₁.of_eq rfl fun _ _ => rfl
  have hr0₂ : (execs s₁ [.cmp .r0 (.imm 58)]).reg .r0 = charWord c := hr0₁
  generalize execs s₁ [.cmp .r0 (.imm 58)] = s₂ at *
  refine ⟨s₂, hlow.trans ?_, h₂, hr0₂⟩
  rw [hpasses]
  by_cases hlt' : c < 58
  · simpa [hlt'] using hhigh
  · rw [decide_eq_false hlt', if_neg Bool.false_ne_true] at hhigh
    have hequal : Run behind lib ⟨s₂, w, .at .equal⟩
        ((Term.bc .eq .put .getsymbol).exec lib.call s₂ w) := Steps.block rfl trivial
    rw [Term.exec, Cond.holds, hzero] at hequal
    rw [decide_eq_false hlt', Bool.false_or]
    exact hhigh.trans hequal

/-- One round of the loop. -/
theorem round_steps (h : Framed m s) {input output : Bytes} :
    ∃ s', Run behind lib ⟨s, ⟨c :: input, output⟩, .at .getsymbol⟩
        ⟨s', ⟨input, output ++ [c].filter passes⟩, .at .getsymbol⟩ ∧ Framed m s' := by
  obtain ⟨s₁, hget, h₁, hr0⟩ := get_steps behind lib h ⟨c :: input, output⟩
  rw [List.head?_cons, Option.elim_some] at hr0
  have hgot := got_steps behind lib s₁ ⟨input, output⟩
  rw [hr0, if_neg (charWord_ne c)] at hgot
  have h₂ : Framed m (execs s₁ [.cmp .r0 (.imm (-1))]) := h₁.of_eq rfl fun _ _ => rfl
  obtain ⟨s₃, htest, h₃, hr0₃⟩ := test_steps behind lib h₂ ⟨input, output⟩ hr0
  have hrun := (hget.trans hgot).trans htest
  cases hpass : passes c with
  | false =>
    rw [hpass, if_neg Bool.false_ne_true] at hrun
    exact ⟨s₃, by simpa [hpass] using hrun, h₃⟩
  | true =>
    rw [hpass, if_pos rfl] at hrun
    obtain ⟨s₄, hput, h₄⟩ := put_steps behind lib h₃ ⟨input, output⟩ hr0₃
    exact ⟨s₄, by simpa [hpass] using hrun.trans hput, h₄⟩

/-- The loop, up to the end of the input. -/
theorem loop_run (h : Framed m s) (input output : Bytes) :
    ∃ s', Run behind lib ⟨s, ⟨input, output⟩, .at .getsymbol⟩
        ⟨s', ⟨[], output ++ input.filter passes⟩, .at .getsymbol⟩ ∧ Framed m s' := by
  induction input generalizing s output with
  | nil => exact ⟨s, by simpa using Steps.refl _, h⟩
  | cons c input ih =>
    obtain ⟨s₁, hround, h₁⟩ := round_steps behind lib h
    obtain ⟨s₂, hloop, h₂⟩ := ih h₁ (output ++ [c].filter passes)
    have hsplit : (c :: input).filter passes = [c].filter passes ++ input.filter passes := by
      rw [← List.filter_append, List.singleton_append]
    rw [hsplit, ← List.append_assoc]
    exact ⟨s₂, hround.trans hloop, h₂⟩

/-- The end of the input, and the return to the caller with `EOF` in `r0`. -/
theorem exit_steps (h : Framed m s) (output : Bytes) :
    ∃ t, Run behind lib ⟨s, ⟨[], output⟩, .at .getsymbol⟩ ⟨t, ⟨[], output⟩, .out (m.reg .lr)⟩ ∧
      t.reg .r0 = -1 ∧ t.reg .sp = m.reg .sp ∧
      ∀ r ∈ [Reg.r4, .r5, .r6, .r7, .r8, .r9, .r10, .r11], t.reg r = m.reg r := by
  obtain ⟨s₁, hget, h₁, hr0⟩ := get_steps behind lib h ⟨[], output⟩
  rw [List.head?_nil, Option.elim_none] at hr0
  have hgot := got_steps behind lib s₁ ⟨[], output⟩
  rw [if_pos hr0] at hgot
  have h₂ : Framed m (execs s₁ [.cmp .r0 (.imm (-1))]) := h₁.of_eq rfl fun _ _ => rfl
  have hr0₂ : (execs s₁ [.cmp .r0 (.imm (-1))]).reg .r0 = -1 := hr0
  generalize execs s₁ [.cmp .r0 (.imm (-1))] = s₂ at *
  have hlink : Run behind lib ⟨s₂, ⟨[], output⟩, .at .link⟩
      ⟨execs s₂ [.mov .lr (.imm behind)], ⟨[], output⟩, .at .exit_main⟩ :=
    Steps.block rfl (checked _ _ _)
  have hexit : Run behind lib ⟨execs s₂ [.mov .lr (.imm behind)], ⟨[], output⟩, .at .exit_main⟩
      (Term.bx.exec lib.call (execs (execs s₂ [.mov .lr (.imm behind)]) [.pop [.lr]])
        ⟨[], output⟩) := Steps.block rfl (checked _ _ _)
  have hlr : (execs (execs s₂ [.mov .lr (.imm behind)]) [.pop [.lr]]).reg .lr = m.reg .lr := by
    rw [← h₂.link, ← h₂.sp]
    simp
  rw [Term.exec, hlr] at hexit
  refine ⟨_, ((hget.trans hgot).trans hlink).trans hexit, ?_, ?_, fun r hr => ?_⟩
  · simpa using hr0₂
  · exact (congrArg (· + 4#32) h₂.sp).trans (BitVec.sub_add_cancel _ _)
  · have hne : r ≠ .sp ∧ r ≠ .lr := by
      constructor
      · rintro rfl
        exact absurd hr (by decide)
      · rintro rfl
        exact absurd hr (by decide)
    simpa [hne] using h₂.saved r hr

/-- The filter keeps the digits only, unless a colon is among the input. -/
theorem filter_passes_eq (input : Bytes) :
    input.filter passes = input.filter isdigit ↔ 58 ∉ input := by
  have hsame (c : UInt8) : passes c = (isdigit c || decide (c = 58)) := by
    simp only [passes, isdigit, UInt8.le_iff_toNat_le, ← UInt8.toNat_inj]
    grind
  constructor
  · intro heq hmem
    have hkept : (58 : UInt8) ∈ input.filter passes := List.mem_filter.mpr ⟨hmem, by decide⟩
    rw [heq] at hkept
    exact absurd (List.mem_filter.mp hkept).2 (by decide)
  · intro hnot
    refine List.filter_congr fun c hc => ?_
    have hne : c ≠ 58 := fun heq => hnot (heq ▸ hc)
    rw [hsame, decide_eq_false hne, Bool.or_false]

/-- Whatever the input, `main` comes back to its caller with its registers and its stack, has read
everything and printed what passes: the digits, and nothing else if there is no colon. The value it
returns is `EOF`. -/
theorem filters (input : Bytes) : ∃ t out,
    Run behind lib ⟨m, ⟨input, []⟩, .at .main⟩ ⟨t, ⟨[], out⟩, .out (m.reg .lr)⟩ ∧
      out = input.filter passes ∧ (out = input.filter isdigit ↔ 58 ∉ input) ∧
      t.reg .r0 = -1 ∧ t.reg .sp = m.reg .sp ∧
      ∀ r ∈ [Reg.r4, .r5, .r6, .r7, .r8, .r9, .r10, .r11], t.reg r = m.reg r := by
  have hmain : Run behind lib ⟨m, ⟨input, []⟩, .at .main⟩
      ⟨execs m [.push [.lr]], ⟨input, []⟩, .at .getsymbol⟩ := Steps.block rfl (checked _ _ _)
  have hframed : Framed m (execs m [.push [.lr]]) := by
    refine ⟨by simp, by simp, fun r hr => ?_⟩
    have hne : r ≠ .sp := by
      rintro rfl
      exact absurd hr (by decide)
    simp [hne]
  obtain ⟨s₁, hloop, h₁⟩ := loop_run behind lib hframed input []
  rw [List.nil_append] at hloop
  obtain ⟨t, hexit, hkept⟩ := exit_steps behind lib h₁ (input.filter passes)
  exact ⟨t, _, (hmain.trans hloop).trans hexit, rfl, filter_passes_eq input, hkept⟩

end

/-- Routines that do no more than they have to. -/
def plainLibrary (stdin stdout sp : Word) : Library stdin stdout sp where
  call
    | .fgetc, m, w =>
      (m.set .r0 (w.input.head?.elim (-1) charWord), { w with input := w.input.tail })
    | .fputc, m, w => (m, { w with output := w.output ++ [UInt8.ofNat (m.reg .r0).toNat] })
  saved := by
    intro m _ routine w r hr
    have hne : r ≠ .r0 := by
      rintro rfl
      exact absurd hr (by decide)
    cases routine <;> simp [hne]
  frame := by
    rintro m _ (_ | _) w <;> rfl
  fgetc := fun _ _ w => ⟨Machine.set_reg _ _ _ _, rfl⟩
  fputc := fun _ _ w => rfl

theorem filters_colon : ∃ t,
    Run 0 (plainLibrary 0 4 (caller.reg .sp - 4#32)) ⟨caller, ⟨[97, 49, 58], []⟩, .at .main⟩
      ⟨t, ⟨[], [49, 58]⟩, .out (caller.reg .lr)⟩ := by
  obtain ⟨t, out, hrun, hout, -⟩ :=
    filters 0 (plainLibrary 0 4 (caller.reg .sp - 4#32)) [97, 49, 58]
  have hvalue : out = [49, 58] := hout.trans (by decide)
  exact ⟨t, hvalue ▸ hrun⟩

end Acos.CharFilter
