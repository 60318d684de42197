import Acos.JitCompile.Layout

/-! What each emitted command does on the machine. The operands lie on the stack below the saved
`r4` and `lr`; the buffer and the variables stay as they are. -/
namespace Acos.JitCompile
open Acos.Arm

/-- The operands `values`, the last one on top, lie below the two saved words. -/
def Holds (mem : Word → Word) (sp : Word) : List Word → Prop
  | [] => True
  | v :: values => mem (down sp (values.length + 3)) = v ∧ Holds mem sp values

theorem Holds.congr {mem mem' : Word → Word} {sp : Word} {values : List Word}
    (h : Holds mem sp values)
    (hsame : ∀ i, 3 ≤ i → i ≤ values.length + 2 → mem' (down sp i) = mem (down sp i)) :
    Holds mem' sp values := by
  induction values with
  | nil => trivial
  | cons v values ih =>
    refine ⟨?_, ih h.2 fun i hlo hhi => hsame i hlo (by simp; omega)⟩
    rw [hsame _ (by omega) (by simp)]
    exact h.1

/-- The place where the code runs: the routines around it, the buffer, the registers on entry,
the memory on entry with the words that stay as they are, and how many words of stack are
free. -/
structure Site where
  routines : Routines
  buffer : Word
  sp : Word
  r4 : Word
  lr : Word
  memory : Word → Word
  kept : Word → Prop
  room : ℕ

/-- The commands and the data of `g` lie in the buffer, apart from the stack. -/
structure Site.Loaded (S : Site) (g : Generator) : Prop where
  buffer : Aligned S.buffer
  sp : Aligned S.sp
  fits : g.program_commands.length + g.data_section.length ≤ 1024
  commands : ∀ i w, g.program_commands[i]? = some w → S.memory (up S.buffer i) = w ∧
    S.kept (up S.buffer i) ∧ S.routines (up S.buffer i) = none
  data : ∀ j w, g.data_section[j]? = some w →
    S.memory (down (S.buffer + PROGRAM_BUFFER_SIZE) (j + 1)) = w ∧
      S.kept (down (S.buffer + PROGRAM_BUFFER_SIZE) (j + 1))
  free : ∀ i, 1 ≤ i → i ≤ S.room → ¬ S.kept (down S.sp i)
  room : S.room < 2 ^ 29

/-- The machine is about to run command `k`, with the operands `values`. -/
structure At (S : Site) (k : ℕ) (values : List Word) (s : Cpu) : Prop where
  pc : s.pc = up S.buffer k
  sp : s.sp = down S.sp (values.length + 2)
  stack : Holds s.mem S.sp values
  r4 : s.mem (down S.sp 2) = S.r4
  lr : s.mem (down S.sp 1) = S.lr
  kept : ∀ a, S.kept a → s.mem a = S.memory a
  thumb : s.thumb = false

section Decode

theorem decode_pushR0 : decode pushR0 = some (.transfer false true false true 13 0 4) := rfl
theorem decode_pushR4Lr : decode pushR4Lr = some (.block false true false true 13 [4, 14]) := rfl
theorem decode_popR4Lr : decode popR4Lr = some (.block true false true true 13 [4, 14]) := rfl
theorem decode_cmdAdd : decode cmdAdd = some (.add 0 1 2) := rfl
theorem decode_cmdSub : decode cmdSub = some (.sub 0 1 2) := rfl
theorem decode_cmdMul : decode cmdMul = some (.mul 0 1 2) := rfl
theorem decode_loadR4 : decode loadR4 = some (.transfer true true true false 4 0 0) := rfl
theorem decode_gotoR4 : decode gotoR4 = some (.mov 15 4) := rfl
theorem decode_savePc : decode savePc = some (.mov 14 15) := rfl
theorem decode_incrementLr : decode incrementLr = some (.addImm 14 14 4) := rfl
theorem decode_cmdExit : decode cmdExit = some (.bx 14) := rfl

theorem decode_popR {n : ℕ} (hn : n ≤ 3) : decode (popR (BitVec.ofNat 32 n)) =
    some (.transfer true false true true 13 (Fin.ofNat 16 n) 4) := by
  match n, hn with
  | 0, _ => rfl
  | 1, _ => rfl
  | 2, _ => rfl
  | 3, _ => rfl

/-- A load relative to `r15`, whose offset fits the twelve bits of the instruction. -/
theorem decode_literal {w : Word} {t offset : ℕ} (ht : t < 16) (hoffset : offset < 4096)
    (hw : w.toNat = 0xe59f0000 + 0x1000 * t + offset) :
    decode w = some (.transfer true true true false 15 ⟨t, ht⟩ (BitVec.ofNat 32 offset)) := by
  have hcond : field w 28 4 = 14 := by unfold field; omega
  have hbx : field w 4 24 ≠ 0x12fff1 := by unfold field; omega
  have hkind : field w 26 2 = 1 := by unfold field; omega
  have h25 : field w 25 1 = 0 := by unfold field; omega
  have h24 : field w 24 1 = 1 := by unfold field; omega
  have h23 : field w 23 1 = 1 := by unfold field; omega
  have h22 : field w 22 1 = 0 := by unfold field; omega
  have h21 : field w 21 1 = 0 := by unfold field; omega
  have h20 : field w 20 1 = 1 := by unfold field; omega
  have hn : field w 16 4 = 15 := by unfold field; omega
  have hr : field w 12 4 = t := by unfold field; omega
  have himm : field w 0 12 = offset := by unfold field; omega
  simp [decode, flag, regField, hcond, hbx, hkind, h25, h24, h23, h22, h21, h20, hn, hr, himm]

end Decode

section Command
variable {S : Site} {g : Generator} {k : ℕ} {values : List Word} {s : Cpu} {w : Word} {i : Instr}

theorem Site.Loaded.step_command (hS : S.Loaded g) (hpc : s.pc = up S.buffer k)
    (hmemory : ∀ a, S.kept a → s.mem a = S.memory a) (hthumb : s.thumb = false)
    (hw : g.program_commands[k]? = some w) (hdecode : decode w = some i) :
    step S.routines s = s.exec i := by
  obtain ⟨hmem, hkept, hcode⟩ := hS.commands k w hw
  apply step_of_decode hthumb
  · rw [hpc]
    exact aligned_up hS.buffer k
  · rw [hpc]
    exact hcode
  · rw [hpc, hmemory _ hkept, hmem]
    exact hdecode

theorem At.step_command (hS : S.Loaded g) (h : At S k values s)
    (hw : g.program_commands[k]? = some w) (hdecode : decode w = some i) :
    step S.routines s = s.exec i :=
  hS.step_command h.pc h.kept h.thumb hw hdecode

/-- A command that only changes registers other than the stack pointer. -/
theorem At.set_advance (h : At S k values s) {r : Reg} (v : Word) (hsp : r ≠ 13) (hpc : r ≠ 15) :
    At S (k + 1) values (s.set r v).advance where
  pc := by
    rw [← up_succ, ← h.pc]
    simp [Cpu.advance_reg, Cpu.set_reg, Ne.symm hpc]
  sp := by
    rw [← h.sp]
    simp [Cpu.advance_reg, Cpu.set_reg, Ne.symm hsp]
  stack := h.stack
  r4 := h.r4
  lr := h.lr
  kept := h.kept
  thumb := h.thumb

theorem At.push (hS : S.Loaded g) (h : At S k values s)
    (hw : g.program_commands[k]? = some pushR0) (hroom : values.length + 3 ≤ S.room) :
    ∃ t, step S.routines s = some t ∧ At S (k + 1) (s.reg 0 :: values) t := by
  have hsub : s.sp - 4 = down S.sp (values.length + 3) := by rw [h.sp, down_sub]
  have haligned : Aligned (s.sp - 4) := by
    rw [hsub]
    exact aligned_down hS.sp _
  have hroom' := hS.room
  have hstore : ∀ j, j < 2 ^ 29 → j ≠ values.length + 3 →
      Function.update s.mem (s.sp - 4) (s.reg 0) (down S.sp j) = s.mem (down S.sp j) := by
    intro j hj hne
    apply Function.update_of_ne
    rw [hsub]
    exact fun heq => hne (down_inj hj (by omega) heq)
  refine ⟨((s.set 13 (s.sp - 4)).store (s.sp - 4) (s.reg 0)).advance,
    ?_, ?_, ?_, ?_, ?_, ?_, ?_, ?_⟩
  · rw [h.step_command hS hw decode_pushR0]
    have haligned' : Aligned (s.reg 13 - 4#32) := haligned
    simp [Cpu.exec, Cpu.read, haligned']
  · rw [← up_succ, ← h.pc]
    simp [Cpu.advance_reg, Cpu.set_reg]
  · rw [show (s.reg 0 :: values).length + 2 = values.length + 3 from rfl, ← hsub]
    simp [Cpu.advance_reg]
  · refine ⟨?_, h.stack.congr fun j hlo hhi => hstore j (by omega) (by omega)⟩
    rw [← hsub]
    exact Function.update_self _ _ _
  · exact (hstore 2 (by omega) (by omega)).trans h.r4
  · exact (hstore 1 (by omega) (by omega)).trans h.lr
  · intro a ha
    refine (Function.update_of_ne ?_ _ _).trans (h.kept a ha)
    intro heq
    rw [heq, hsub] at ha
    exact hS.free _ (by omega) hroom ha
  · exact h.thumb

/-- `pop_r`: the top operand goes to a register. -/
theorem At.pop (hS : S.Loaded g) {v : Word} (h : At S k (v :: values) s) {r : Reg} (hsp : r ≠ 13)
    (hpc : r ≠ 15) (hw : g.program_commands[k]? = some w)
    (hdecode : decode w = some (.transfer true false true true 13 r 4)) :
    ∃ t, step S.routines s = some t ∧ At S (k + 1) values t ∧ t.reg r = v ∧
      ∀ q, q ≠ r → q ≠ 13 → q ≠ 15 → t.reg q = s.reg q := by
  have haligned : Aligned (s.reg 13) := by
    rw [show s.reg 13 = _ from h.sp]
    exact aligned_down hS.sp _
  have hload : s.mem (s.reg 13) = v := by
    rw [show s.reg 13 = _ from h.sp]
    exact h.stack.1
  refine ⟨((s.set 13 (s.sp + 4)).set r v).advance, ?_, ⟨?_, ?_, h.stack.2, h.r4, h.lr, h.kept,
    h.thumb⟩, ?_, ?_⟩
  · rw [h.step_command hS hw hdecode]
    simp [Cpu.exec, Cpu.read, haligned, hpc, Ne.symm hsp, hload]
  · rw [← up_succ, ← h.pc]
    simp [Cpu.advance_reg, Cpu.set_reg, Ne.symm hpc]
  · rw [← down_succ, ← show s.sp = down S.sp (values.length + 2 + 1) from h.sp]
    simp [Cpu.advance_reg, Cpu.set_reg, Ne.symm hsp]
  · simp [Cpu.advance_reg, hpc]
  · intro q hq hq13 hq15
    simp [Cpu.advance_reg, Cpu.set_reg, hq, hq13, hq15]

/-- A command whose only effect is on a register. -/
theorem At.compute (hS : S.Loaded g) (h : At S k values s) {r : Reg} {v : Word} (hsp : r ≠ 13)
    (hpc : r ≠ 15) (hw : g.program_commands[k]? = some w) (hdecode : decode w = some i)
    (hexec : s.exec i = some (s.set r v).advance) :
    ∃ t, step S.routines s = some t ∧ At S (k + 1) values t ∧ t.reg r = v ∧ t.mem = s.mem ∧
      ∀ q, q ≠ r → q ≠ 15 → t.reg q = s.reg q := by
  refine ⟨(s.set r v).advance, ?_, h.set_advance v hsp hpc, ?_, rfl, ?_⟩
  · rw [h.step_command hS hw hdecode]
    exact hexec
  · simp [Cpu.advance_reg, hpc]
  · intro q hq hq15
    simp [Cpu.advance_reg, Cpu.set_reg, hq, hq15]

/-- A load relative to `r15` finds data word `j`. -/
theorem At.literal (hS : S.Loaded g) (h : At S k values s) {t j : ℕ} {v : Word} (ht : t < 13)
    (hw : g.program_commands[k]? = some w) (hk : k + 2 + (j + 1) ≤ 1024)
    (hword : w.toNat = 0xe59f0000 + 0x1000 * t + (4096 - 4 * (j + 1) - 4 * k - 8))
    (hdata : g.data_section[j]? = some v) :
    ∃ u, step S.routines s = some u ∧ At S (k + 1) values u ∧ u.reg ⟨t, by omega⟩ = v ∧
      u.mem = s.mem ∧ ∀ q, q ≠ ⟨t, by omega⟩ → q ≠ 15 → u.reg q = s.reg q := by
  obtain ⟨hmem, hkept⟩ := hS.data j v hdata
  have haddress : s.reg 15 + 8#32 + BitVec.ofNat 32 (4096 - 4 * (j + 1) - 4 * k - 8) =
      down (S.buffer + PROGRAM_BUFFER_SIZE) (j + 1) := by
    rw [show s.reg 15 = _ from h.pc]
    unfold up down PROGRAM_BUFFER_SIZE
    bv_omega
  have haligned : Aligned (down (S.buffer + PROGRAM_BUFFER_SIZE) (j + 1)) := by
    apply aligned_down
    have hbuffer := hS.buffer
    unfold Aligned PROGRAM_BUFFER_SIZE at *
    bv_omega
  have hload : s.mem (down (S.buffer + PROGRAM_BUFFER_SIZE) (j + 1)) = v := by
    rw [h.kept _ hkept, hmem]
  have hsp : (⟨t, by omega⟩ : Reg) ≠ 13 := fun heq => by
    have hval : t = 13 := congrArg Fin.val heq
    omega
  have hpc : (⟨t, by omega⟩ : Reg) ≠ 15 := fun heq => by
    have hval : t = 15 := congrArg Fin.val heq
    omega
  apply h.compute hS hsp hpc hw (decode_literal (by omega) (by omega) hword)
  simp [Cpu.exec, Cpu.read, hpc, haddress, haligned, hload]

/-- The words of the stack frame: the operands, `r4` and `lr`. -/
theorem At.of_frame {t : Cpu} (h : At S k values s) {k' : ℕ} (hpc : t.pc = up S.buffer k')
    (hsp : t.sp = s.sp) (hthumb : t.thumb = false)
    (hframe : ∀ i, 1 ≤ i → i ≤ values.length + 2 → t.mem (down S.sp i) = s.mem (down S.sp i))
    (hkept : ∀ a, S.kept a → t.mem a = s.mem a) : At S k' values t where
  pc := hpc
  sp := hsp.trans h.sp
  stack := h.stack.congr fun i hlo hhi => hframe i (by omega) hhi
  r4 := (hframe 2 (by omega) (by omega)).trans h.r4
  lr := (hframe 1 (by omega) (by omega)).trans h.lr
  kept := fun a ha => (hkept a ha).trans (h.kept a ha)
  thumb := hthumb

/-- `pop_r(n - 1)` down to `pop_r(0)`: the arguments go to their registers. -/
theorem At.pop_arguments (hS : S.Loaded g) {args : List Word} (hargs : args.length ≤ 4)
    (h : At S k (args.reverse ++ values) s)
    (hemits : Emits g k (Generator.popArguments args.length)) :
    ∃ t, Steps S.routines s t ∧ At S (k + args.length) values t ∧
      t.arguments args.length = args := by
  suffices hrun : ∃ t, Steps S.routines s t ∧ At S (k + args.length) values t ∧
      t.arguments args.length = args ∧
      ∀ q : Reg, args.length ≤ q.val → q ≠ 13 → q ≠ 15 → t.reg q = s.reg q by
    obtain ⟨t, hsteps, hat, hvalues, -⟩ := hrun
    exact ⟨t, hsteps, hat, hvalues⟩
  induction args using List.reverseRecOn generalizing k s with
  | nil => exact ⟨s, Steps.refl s, h, rfl, fun _ _ _ _ => rfl⟩
  | append_singleton args v ih =>
    rw [List.length_append, List.length_singleton] at hargs hemits ⊢
    rw [List.reverse_append, List.reverse_singleton, List.singleton_append, List.cons_append] at h
    have hr13 : (Fin.ofNat 16 args.length : Reg) ≠ 13 := by
      intro heq
      have hval : args.length % 16 = 13 := congrArg Fin.val heq
      omega
    have hr15 : (Fin.ofNat 16 args.length : Reg) ≠ 15 := by
      intro heq
      have hval : args.length % 16 = 15 := congrArg Fin.val heq
      omega
    obtain ⟨u, hstep, hu, hvalue, hregs⟩ := h.pop hS hr13 hr15 hemits.head (decode_popR (by omega))
    obtain ⟨t, hsteps, ht, hvalues, hregs'⟩ := ih (by omega) hu hemits.tail
    refine ⟨t, (Steps.single hstep).trans hsteps, ?_, ?_, ?_⟩
    · rwa [Nat.add_right_comm, Nat.add_assoc] at ht
    · have hlast : t.reg (Fin.ofNat 16 args.length) = v := by
        rw [hregs' _ (by simp; omega) hr13 hr15, hvalue]
      unfold Cpu.arguments at hvalues ⊢
      rw [List.range_succ, List.map_append, hvalues]
      simpa using hlast
    · intro q hq hq13 hq15
      rw [hregs' q (by omega) hq13 hq15]
      apply hregs q _ hq13 hq15
      intro heq
      have hval : q.val = args.length % 16 := congrArg Fin.val heq
      omega

/-- `load_constant` of data word `j`. -/
theorem At.load_constant (hS : S.Loaded g) (h : At S k values s) {j : ℕ} {v : Word}
    (hw : g.program_commands[k]? =
      some (loadConstant (dataShift j - BitVec.ofNat 32 k * WORD_SIZE)))
    (hk : k + 2 ≤ g.program_commands.length) (hdata : g.data_section[j]? = some v) :
    ∃ t, step S.routines s = some t ∧ At S (k + 1) values t ∧ t.reg 0 = v := by
  have hj := (List.getElem?_eq_some_iff.mp hdata).1
  have hfits := hS.fits
  have hroom : k + 2 + (j + 1) ≤ 1024 := by omega
  obtain ⟨t, hstep, ht, hvalue, -, -⟩ :=
    h.literal hS (by decide) hw hroom (loadConstant_toNat hroom) hdata
  exact ⟨t, hstep, ht, hvalue⟩

/-- `load_shifted_addr` of the pointer that a name stands for. -/
theorem At.load_shifted_addr (hS : S.Loaded g) (h : At S k values s) {name : Name} {pointer : Word}
    (hfinds : g.Finds name pointer) (hw : g.program_commands[k]? =
      some (loadShiftedAddr (g.symbols_ptr name - BitVec.ofNat 32 k * WORD_SIZE)))
    (hk : k + 2 ≤ g.program_commands.length) :
    ∃ t, step S.routines s = some t ∧ At S (k + 1) values t ∧ t.reg 4 = pointer ∧
      t.mem = s.mem ∧ ∀ q, q ≠ 4 → q ≠ 15 → t.reg q = s.reg q := by
  obtain ⟨j, hshift, hdata⟩ := hfinds
  have hj := (List.getElem?_eq_some_iff.mp hdata).1
  have hfits := hS.fits
  have hroom : k + 2 + (j + 1) ≤ 1024 := by omega
  rw [hshift] at hw
  exact h.literal hS (by decide) hw hroom (loadShiftedAddr_toNat hroom) hdata

/-- The call sequence jumps to the pointer; `lr` is the address after `goto_r4`. -/
theorem At.goto_r4 (hS : S.Loaded g) (h : At S k values s) {name : Name} {pointer : Word}
    (hfinds : g.Finds name pointer)
    (hemits : Emits g k [loadShiftedAddr (g.symbols_ptr name - BitVec.ofNat 32 k * WORD_SIZE),
      savePc, incrementLr, gotoR4])
    (haligned : Aligned pointer) :
    ∃ t, Steps S.routines s (t.set 15 pointer) ∧ At S (k + 3) values t ∧
      t.lr = up S.buffer (k + 4) ∧ ∀ q, q ≠ 4 → q ≠ 14 → q ≠ 15 → t.reg q = s.reg q := by
  have hlength := hemits.length_le (by simp)
  simp only [List.length_cons, List.length_nil] at hlength
  obtain ⟨t₁, hstep₁, h₁, hr4₁, -, hregs₁⟩ := h.load_shifted_addr hS hfinds hemits.head (by omega)
  obtain ⟨t₂, hstep₂, h₂, hlr₂, -, hregs₂⟩ := h₁.compute hS (r := 14) (v := t₁.pc + 8) (by decide)
    (by decide) hemits.tail.head decode_savePc (by simp [Cpu.exec, Cpu.write, Cpu.read])
  obtain ⟨t₃, hstep₃, h₃, hlr₃, -, hregs₃⟩ := h₂.compute hS (r := 14) (v := t₂.lr + 4) (by decide)
    (by decide) hemits.tail.tail.head decode_incrementLr (by simp [Cpu.exec, Cpu.write, Cpu.read])
  have hr4 : t₃.reg 4 = pointer := by
    rw [hregs₃ 4 (by decide) (by decide), hregs₂ 4 (by decide) (by decide), hr4₁]
  have hstep₄ : step S.routines t₃ = some (t₃.set 15 pointer) := by
    rw [h₃.step_command hS hemits.tail.tail.tail.head decode_gotoR4]
    simp [Cpu.exec, Cpu.read, hr4, haligned]
  refine ⟨t₃, ?_, h₃, ?_, ?_⟩
  · exact (((Steps.single hstep₁).trans (.single hstep₂)).trans (.single hstep₃)).trans
      (.single hstep₄)
  · rw [show t₃.lr = t₂.lr + 4 from hlr₃, show t₂.lr = t₁.pc + 8 from hlr₂, h₁.pc]
    unfold up
    bv_omega
  · intro q hq4 hq14 hq15
    rw [hregs₃ q hq14 hq15, hregs₂ q hq14 hq15, hregs₁ q hq4 hq15]

/-- The arguments are not among the registers that the call sequence uses. -/
theorem arguments_congr {t : Cpu} {arity : ℕ} (harity : arity ≤ 4)
    (h : ∀ q : Reg, q ≠ 4 → q ≠ 14 → q ≠ 15 → t.reg q = s.reg q) :
    t.arguments arity = s.arguments arity := by
  apply List.map_congr_left
  intro i hi
  have hi4 : i < 4 := by
    rw [List.mem_range] at hi
    omega
  have hlow : ∀ q : Reg, q = 4 ∨ q = 14 ∨ q = 15 → (Fin.ofNat 16 i : Reg) ≠ q := by
    intro q hq heq
    have hval : i % 16 = q.val := congrArg Fin.val heq
    rcases hq with rfl | rfl | rfl <;> simp at hval <;> omega
  apply h
  · exact hlow 4 (by simp)
  · exact hlow 14 (by simp)
  · exact hlow 15 (by simp)

/-- A call of a routine, which returns behind the call sequence. -/
theorem At.call (hS : S.Loaded g) (h : At S k values s) {name : Name} {pointer : Word} {arity : ℕ}
    {f : List Word → Word} {routine : Cpu → Cpu} (hfinds : g.Finds name pointer)
    (hemits : Emits g k [loadShiftedAddr (g.symbols_ptr name - BitVec.ofNat 32 k * WORD_SIZE),
      savePc, incrementLr, gotoR4])
    (haligned : Aligned pointer) (hroutine : S.routines pointer = some routine)
    (harity : arity ≤ 4) (habi : Aapcs pointer S.sp S.room S.kept arity f routine)
    (hroom : values.length + 2 ≤ S.room) :
    ∃ t, Steps S.routines s t ∧ At S (k + 4) values t ∧ t.reg 0 = f (s.arguments arity) := by
  obtain ⟨t, hsteps, ht, hlr, hregs⟩ := h.goto_r4 hS hfinds hemits haligned
  have hpc : (t.set 15 pointer).pc = pointer := Cpu.set_reg_self _ _ _
  have halignedLr : Aligned t.lr := by
    rw [hlr]
    exact aligned_up hS.buffer _
  have hcalled : Called pointer S.sp S.room (values.length + 2) (t.set 15 pointer) :=
    ⟨hpc, ht.sp, hroom, halignedLr, ht.thumb⟩
  have hstep : step S.routines (t.set 15 pointer) = some (routine (t.set 15 pointer)) := by
    apply step_of_routine
    · exact ht.thumb
    · rwa [hpc]
    · rwa [hpc]
  have hreturned : ReturnedTo (up S.buffer (k + 4)) (routine (t.set 15 pointer)) := by
    rw [← hlr]
    exact habi.returned hcalled
  have heven : ¬ (up S.buffer (k + 4)).toNat % 2 = 1 := by
    have hword := aligned_up hS.buffer (k + 4)
    unfold Aligned at hword
    omega
  rw [ReturnedTo, if_neg heven] at hreturned
  refine ⟨routine (t.set 15 pointer), hsteps.trans (.single hstep),
    ht.of_frame hreturned.1 ?_ hreturned.2 ?_ ?_, ?_⟩
  · exact habi.saved hcalled 13 (.inr rfl)
  · exact habi.stack hcalled
  · exact habi.memory hcalled
  · rw [habi.result hcalled]
    apply congrArg f
    apply arguments_congr harity
    intro q hq4 hq14 hq15
    rw [Cpu.set_reg_of_ne _ _ hq15, hregs q hq4 hq14 hq15]

/-- The machine is about to run the buffer. -/
structure Site.Entered (S : Site) (s : Cpu) : Prop where
  pc : s.pc = S.buffer
  sp : s.sp = S.sp
  r4 : s.reg 4 = S.r4
  lr : s.lr = S.lr
  kept : ∀ a, S.kept a → s.mem a = S.memory a
  thumb : s.thumb = false

theorem Site.Entered.push (hS : S.Loaded g) (h : S.Entered s)
    (hw : g.program_commands[0]? = some pushR4Lr) (hroom : 2 ≤ S.room) :
    ∃ t, step S.routines s = some t ∧ At S 1 [] t := by
  have hlow : s.reg 13 - 8#32 = down S.sp 2 := by
    rw [show s.reg 13 = _ from h.sp]
    rfl
  have hhigh : down S.sp 2 + 4#32 = down S.sp 1 := down_succ S.sp 1
  have haligned : Aligned (down S.sp 2) := aligned_down hS.sp 2
  have hne : down S.sp 2 ≠ down S.sp 1 := fun heq => by
    have hindex := down_inj (by decide) (by decide) heq
    omega
  have hbuffer : s.pc = up S.buffer 0 := by
    rw [h.pc]
    simp [up]
  refine ⟨(((s.set 13 (down S.sp 2)).store (down S.sp 2) S.r4).store (down S.sp 1) S.lr).advance,
    ?_, ?_, ?_, trivial, ?_, ?_, ?_, h.thumb⟩
  · have hr4 : s.reg 4 = S.r4 := h.r4
    have hlr : s.reg 14 = S.lr := h.lr
    rw [hS.step_command hbuffer h.kept h.thumb hw decode_pushR4Lr]
    simp [Cpu.exec, Cpu.storeRegs, Cpu.set_reg, hlow, hhigh, haligned, hr4, hlr]
  · rw [← up_succ, ← hbuffer]
    simp [Cpu.advance_reg, Cpu.set_reg]
  · simp [Cpu.advance_reg]
  · simp [hne]
  · simp
  · intro a ha
    have hfree : ∀ i, 1 ≤ i → i ≤ 2 → a ≠ down S.sp i := by
      intro i hlo hhi heq
      rw [heq] at ha
      exact hS.free i hlo (by omega) ha
    rw [← h.kept a ha]
    simp [hfree 1 (by decide) (by decide), hfree 2 (by decide) (by decide)]

/-- The end of the program gives back the registers and returns. -/
theorem At.leave (hS : S.Loaded g) {v : Word} (h : At S k [v] s)
    (hemits : Emits g k [popR 0, popR4Lr, cmdExit]) (hlr : S.lr.toNat % 4 ≠ 2) :
    ∃ t, Steps S.routines s t ∧ ReturnedTo S.lr t ∧ t.reg 0 = v ∧ t.reg 4 = S.r4 ∧ t.sp = S.sp := by
  obtain ⟨t₁, hstep₁, h₁, hvalue, -⟩ :=
    h.pop hS (by decide) (by decide) hemits.head (decode_popR (Nat.zero_le 3))
  have hlow : t₁.reg 13 = down S.sp 2 := h₁.sp
  have hhigh : down S.sp 2 + 4#32 = down S.sp 1 := down_succ S.sp 1
  have htop : down S.sp 2 + 8#32 = S.sp := by
    unfold down
    bv_omega
  have haligned : Aligned (down S.sp 2) := aligned_down hS.sp 2
  have hr4 := h₁.r4
  have hlr₁ := h₁.lr
  have hstep₂ : step S.routines t₁ =
      some (((t₁.set 13 S.sp).set 4 S.r4).set 14 S.lr).advance := by
    rw [h₁.step_command hS hemits.tail.head decode_popR4Lr]
    simp [Cpu.exec, Cpu.loadRegs, hlow, hhigh, htop, haligned, hr4, hlr₁]
  obtain ⟨t₂, ht₂⟩ : ∃ t₂, t₂ = (((t₁.set 13 S.sp).set 4 S.r4).set 14 S.lr).advance := ⟨_, rfl⟩
  rw [← ht₂] at hstep₂
  have hpc₂ : t₂.pc = up S.buffer (k + 1 + 1) := by
    rw [← up_succ, ← h₁.pc, ht₂]
    simp [Cpu.advance_reg, Cpu.set_reg]
  have hreg₂ : ∀ q : Reg, q ≠ 15 → t₂.reg q =
      if q = 14 then S.lr else if q = 4 then S.r4 else if q = 13 then S.sp else t₁.reg q := by
    intro q hq
    rw [ht₂]
    simp [Cpu.advance_reg, Cpu.set_reg, hq]
  have hthumb₂ : t₂.thumb = false := by
    rw [ht₂]
    exact h₁.thumb
  have hmem₂ : t₂.mem = t₁.mem := by
    rw [ht₂]
    rfl
  have hstep₃ : step S.routines t₂ = t₂.branchExchange S.lr := by
    rw [hS.step_command hpc₂ (by rw [hmem₂]; exact h₁.kept) hthumb₂ hemits.tail.tail.head
      decode_cmdExit]
    simp [Cpu.exec, hreg₂ 14 (by decide)]
  obtain ⟨t, hbranch, hreturned, hregs⟩ := Cpu.branchExchange_returned hthumb₂ hlr
  rw [hbranch] at hstep₃
  refine ⟨t, ((Steps.single hstep₁).trans (.single hstep₂)).trans (.single hstep₃), hreturned,
    ?_, ?_, ?_⟩
  · rw [hregs 0 (by decide), hreg₂ 0 (by decide), ← hvalue]
    rfl
  · rw [hregs 4 (by decide), hreg₂ 4 (by decide)]
    rfl
  · rw [show t.sp = t₂.reg 13 from hregs 13 (by decide), hreg₂ 13 (by decide)]
    rfl

end Command

end Acos.JitCompile
