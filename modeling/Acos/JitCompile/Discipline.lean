import Acos.JitCompile.Commands
import Acos.JitCompile.ParserCorrect

/-! The words on the stack while the emitted commands run: which are operands and which are the
saved `r4` and `lr`. -/
namespace Acos.JitCompile
open Acos.Arm

/-- The commands of the namespace `arm_commands` that the generator emits. -/
inductive Command where
  | pushR4Lr
  | popR4Lr
  | pushR0
  | popR (r_num : ℕ)
  | loadConstant (shift : Word)
  | loadShiftedAddr (shift : Word)
  | loadR4
  | savePc
  | incrementLr
  | gotoR4
  | mul
  | add
  | sub
  | exit

def Command.word : Command → Word
  | .pushR4Lr => JitCompile.pushR4Lr
  | .popR4Lr => JitCompile.popR4Lr
  | .pushR0 => JitCompile.pushR0
  | .popR r_num => JitCompile.popR (BitVec.ofNat 32 r_num)
  | .loadConstant shift => JitCompile.loadConstant shift
  | .loadShiftedAddr shift => JitCompile.loadShiftedAddr shift
  | .loadR4 => JitCompile.loadR4
  | .savePc => JitCompile.savePc
  | .incrementLr => JitCompile.incrementLr
  | .gotoR4 => JitCompile.gotoR4
  | .mul => cmdMul
  | .add => cmdAdd
  | .sub => cmdSub
  | .exit => cmdExit

/-- `pop_r(n - 1)` down to `pop_r(0)`. -/
def popCommands : ℕ → List Command
  | 0 => []
  | n + 1 => .popR n :: popCommands n

/-- The inner `switch` of `ProcessStackOperand`. -/
def mathCommands (sym : Char) : List Command :=
  match sym with
  | '*' => [.mul]
  | '+' => [.add]
  | '-' => [.sub]
  | _ => []

/-- What `ProcessStackOperand` emits. -/
def Generator.commandsOf (g : Generator) : StackOperand → List Command
  | .constant _ => [.loadConstant (g.shiftTo g.getNextDataWordShift), .pushR0]
  | .variable name => [.loadShiftedAddr (g.shiftTo (g.symbols_ptr name)), .loadR4, .pushR0]
  | .function name n_arguments =>
    popCommands n_arguments.toNat ++
      [.loadShiftedAddr ((g.pushCommands (popArguments n_arguments.toNat)).shiftTo
        (g.symbols_ptr name)), .savePc, .incrementLr, .gotoR4, .pushR0]
  | .mathOperator sym => [.popR 2, .popR 1] ++ mathCommands sym ++ [.pushR0]

def Generator.commandsOfAll (g : Generator) : List StackOperand → List Command
  | [] => []
  | operand :: operands =>
    g.commandsOf operand ++ (g.processStackOperand operand).commandsOfAll operands

/-- The commands of `GenerateMachineCommands` but for the last three. -/
def Generator.bodyOf (g : Generator) (expression : List StackOperand) : List Command :=
  .pushR4Lr :: (g.pushCommands [JitCompile.pushR4Lr]).commandsOfAll expression

def lastCommands : List Command := [.popR 0, .popR4Lr, .exit]

/-- What a word on the stack is. -/
inductive Slot where
  | operand
  | saved
  deriving DecidableEq

/-- A command on the stack; `none` where it takes a word of the wrong kind, or where there is none.
A called function leaves the stack as it was. -/
def Command.exec : Command → List Slot → Option (List Slot)
  | .pushR4Lr, stack => some (.saved :: .saved :: stack)
  | .pushR0, stack => some (.operand :: stack)
  | .popR _, .operand :: stack => some stack
  | .popR _, _ => none
  | .popR4Lr, .saved :: .saved :: stack => some stack
  | .popR4Lr, _ => none
  | _, stack => some stack

def execAll : List Command → List Slot → Option (List Slot)
  | [], stack => some stack
  | command :: commands, stack => (command.exec stack).bind (execAll commands)

/-- Before the last three commands each `pop` takes an operand, and one operand is left above the
saved registers. -/
def Generator.Disciplined (g : Generator) (expression : List StackOperand) : Prop :=
  execAll (g.bodyOf expression) [] = some [.operand, .saved, .saved]

section Words
variable {g : Generator}

theorem popCommands_word (n : ℕ) : (popCommands n).map Command.word = Generator.popArguments n := by
  induction n with
  | zero => rfl
  | succ n ih =>
    rw [popCommands, Generator.popArguments, List.map_cons, ih]
    rfl

theorem commandsOf_word (operand : StackOperand) :
    (g.processStackOperand operand).program_commands =
      g.program_commands ++ (g.commandsOf operand).map Command.word := by
  match operand with
  | .constant value =>
    rw [Generator.processStackOperand_constant]
    rfl
  | .mathOperator sym =>
    simp only [Generator.processStackOperand, Generator.commandsOf, mathCommands]
    split <;> simp [Generator.pushCommands, Command.word]
  | .function name n_arguments =>
    simp [Generator.processStackOperand, Generator.commandsOf, Generator.pushCommands,
      popCommands_word, Command.word]
  | .variable name =>
    rw [Generator.processStackOperand_variable]
    rfl

theorem commandsOfAll_word (operands : List StackOperand) :
    (g.processStackOperands operands).program_commands =
      g.program_commands ++ (g.commandsOfAll operands).map Command.word := by
  induction operands generalizing g with
  | nil => simp [Generator.processStackOperands, Generator.commandsOfAll]
  | cons operand operands ih =>
    rw [Generator.processStackOperands, Generator.commandsOfAll, ih, commandsOf_word,
      List.map_append, List.append_assoc]

/-- The commands are the words that the generator emits. -/
theorem generateMachineCommands_word (expression : List StackOperand) :
    (g.generateMachineCommands expression).program_commands = g.program_commands ++
      (g.bodyOf expression ++ lastCommands).map Command.word := by
  have hbody := @commandsOfAll_word (g.pushCommands [pushR4Lr]) expression
  have hstart : (g.pushCommands [pushR4Lr]).program_commands =
      g.program_commands ++ [pushR4Lr] := rfl
  show ((g.pushCommands [pushR4Lr]).processStackOperands expression).program_commands ++
    [popR 0, popR4Lr, cmdExit] = _
  rw [hbody, hstart]
  simp [Generator.bodyOf, lastCommands, Command.word]

end Words

section Machine

/-- The registers exist and the load reaches its word: the instruction is what its name says. -/
def Command.Encoded : Command → Prop
  | .popR r_num => r_num ≤ 3
  | .loadConstant shift | .loadShiftedAddr shift => 8 ≤ shift.toNat ∧ shift.toNat < 4096 + 8
  | _ => True

/-- The address above the words of a stack. -/
def stackBase (s : Cpu) (stack : List Slot) : Word := s.sp + 4 * BitVec.ofNat 32 stack.length

/-- An instruction that does not write the stack pointer. -/
def KeepsSp : Instr → Prop
  | .add d _ _ | .sub d _ _ | .addImm d _ _ | .mul d _ _ | .mov d _ => d.val ≠ 13
  | .transfer load _ _ writeback _ t _ => load = true ∧ writeback = false ∧ t.val ≠ 13
  | .block .. => False
  | .bx _ => True

theorem sp_of_write {s t : Cpu} {d : Reg} {v : Word} (hd : d.val ≠ 13) (h : s.write d v = some t) :
    t.sp = s.sp := by
  have hne : (13 : Reg) ≠ d := (Fin.ne_of_val_ne hd).symm
  unfold Cpu.write at h
  split_ifs at h with hpc
  rw [← Option.some.inj h]
  simp [Cpu.sp, Cpu.advance_reg, Cpu.set_reg_of_ne s v hne]

theorem sp_of_keepsSp {i : Instr} (hi : KeepsSp i) {s t : Cpu} (h : s.exec i = some t) :
    t.sp = s.sp := by
  match i, hi, h with
  | .add d n m, hi, h => exact sp_of_write hi h
  | .sub d n m, hi, h => exact sp_of_write hi h
  | .addImm d n imm, hi, h => exact sp_of_write hi h
  | .mul d m r, hi, h =>
    simp only [Cpu.exec] at h
    split_ifs at h
    exact sp_of_write hi h
  | .mov d m, hi, h =>
    simp only [Cpu.exec] at h
    split_ifs at h
    · rw [← Option.some.inj h]
      exact Cpu.set_reg_of_ne s _ (by decide)
    · exact sp_of_write hi h
  | .transfer load pre up writeback n r offset, hi, h =>
    obtain ⟨rfl, rfl, hr⟩ := hi
    have hne : (13 : Reg) ≠ r := (Fin.ne_of_val_ne hr).symm
    simp only [Cpu.exec, Bool.false_eq_true, ↓reduceIte] at h
    split_ifs at h <;> rw [← Option.some.inj h] <;>
      simp [Cpu.sp, Cpu.advance_reg, Cpu.set_reg_of_ne s _ hne]
  | .bx m, hi, h =>
    simp only [Cpu.exec, Cpu.branchExchange] at h
    split_ifs at h <;> rw [← Option.some.inj h] <;> simp [Cpu.sp, Cpu.set_reg]

theorem decode_load {shift : Word} {t : ℕ} (ht : t < 13) (hlo : 8 ≤ shift.toNat)
    (hhi : shift.toNat < 4096 + 8) :
    decode (0xe59f0000 + 0x1000 * BitVec.ofNat 32 t + shift - 2 * WORD_SIZE) =
      some (.transfer true true true false 15 ⟨t, by omega⟩
        (BitVec.ofNat 32 (shift.toNat - 8))) := by
  apply decode_literal (by omega) (by omega)
  unfold WORD_SIZE
  bv_omega

theorem sp_of_pushR4Lr {s t : Cpu} (h : s.exec (.block false true false true 13 [4, 14]) = some t) :
    t.sp = s.sp - 8 := by
  simp only [Cpu.exec, Bool.false_eq_true, Bool.true_eq_false, ↓reduceIte] at h
  split_ifs at h
  rw [← Option.some.inj h]
  simp [Cpu.sp, Cpu.advance_reg, Cpu.storeRegs]

theorem sp_of_popR4Lr {s t : Cpu} (h : s.exec (.block true false true true 13 [4, 14]) = some t) :
    t.sp = s.sp + 8 := by
  simp only [Cpu.exec, Bool.false_eq_true, ↓reduceIte] at h
  split_ifs at h
  rw [← Option.some.inj h]
  simp [Cpu.sp, Cpu.advance_reg, Cpu.loadRegs, Cpu.set_reg]

theorem sp_of_pushR0 {s t : Cpu} (h : s.exec (.transfer false true false true 13 0 4) = some t) :
    t.sp = s.sp - 4 := by
  simp only [Cpu.exec, Bool.false_eq_true, ↓reduceIte] at h
  split_ifs at h
  rw [← Option.some.inj h]
  simp [Cpu.sp, Cpu.advance_reg, Cpu.read]

theorem sp_of_popR {s t : Cpu} {r : Reg}
    (h : s.exec (.transfer true false true true 13 r 4) = some t) : t.sp = s.sp + 4 := by
  simp only [Cpu.exec, Bool.false_eq_true, ↓reduceIte] at h
  split_ifs at h with hcond
  have hr : (13 : Reg) ≠ r := fun heq => hcond (.inr (.inr ⟨trivial, .inr heq⟩))
  rw [← Option.some.inj h]
  simp [Cpu.sp, Cpu.advance_reg, Cpu.read, Cpu.set_reg, hr]

/-- A command that is no `push` or `pop` keeps the stack pointer. -/
theorem Command.keepsSp {c : Command} (hc : c.Encoded) {i : Instr}
    (hdecode : decode c.word = some i) : (∀ stack, c.exec stack = some stack) → KeepsSp i := by
  intro hstack
  match c, hc, hdecode, hstack with
  | .pushR4Lr, _, _, hstack => cases hstack []
  | .popR4Lr, _, _, hstack => cases hstack []
  | .pushR0, _, _, hstack => cases hstack []
  | .popR r_num, _, _, hstack => cases hstack []
  | .loadConstant shift, hc, hdecode, _ =>
    have hload := decode_load (show 0 < 13 by decide) hc.1 hc.2
    cases hdecode.symm.trans hload
    exact ⟨rfl, rfl, Nat.ne_of_lt (show 0 < 13 by decide)⟩
  | .loadShiftedAddr shift, hc, hdecode, _ =>
    have hload := decode_load (show 4 < 13 by decide) hc.1 hc.2
    cases hdecode.symm.trans hload
    exact ⟨rfl, rfl, Nat.ne_of_lt (show 4 < 13 by decide)⟩
  | .loadR4, _, hdecode, _ =>
    cases hdecode.symm.trans decode_loadR4
    exact ⟨rfl, rfl, by decide⟩
  | .savePc, _, hdecode, _ =>
    cases hdecode.symm.trans decode_savePc
    exact Nat.ne_of_beq_eq_false rfl
  | .incrementLr, _, hdecode, _ =>
    cases hdecode.symm.trans decode_incrementLr
    exact Nat.ne_of_beq_eq_false rfl
  | .gotoR4, _, hdecode, _ =>
    cases hdecode.symm.trans decode_gotoR4
    exact Nat.ne_of_beq_eq_false rfl
  | .mul, _, hdecode, _ =>
    cases hdecode.symm.trans decode_cmdMul
    exact Nat.ne_of_beq_eq_false rfl
  | .add, _, hdecode, _ =>
    cases hdecode.symm.trans decode_cmdAdd
    exact Nat.ne_of_beq_eq_false rfl
  | .sub, _, hdecode, _ =>
    cases hdecode.symm.trans decode_cmdSub
    exact Nat.ne_of_beq_eq_false rfl
  | .exit, _, hdecode, _ =>
    cases hdecode.symm.trans decode_cmdExit
    trivial

/-- A command moves the stack pointer by the words that it puts and takes. -/
theorem Command.base_exec {c : Command} (hc : c.Encoded) {stack stack' : List Slot}
    (hexec : c.exec stack = some stack') {i : Instr} (hdecode : decode c.word = some i) {s t : Cpu}
    (h : s.exec i = some t) : stackBase t stack' = stackBase s stack := by
  unfold stackBase
  by_cases hid : ∀ stack, c.exec stack = some stack
  · rw [hid stack] at hexec
    rw [← Option.some.inj hexec, sp_of_keepsSp (c.keepsSp hc hdecode hid) h]
  · cases c
    case pushR4Lr =>
      cases hdecode.symm.trans decode_pushR4Lr
      cases hexec
      rw [sp_of_pushR4Lr h, List.length_cons, List.length_cons]
      bv_omega
    case popR4Lr =>
      cases hdecode.symm.trans decode_popR4Lr
      match stack, hexec with
      | .saved :: .saved :: stack, hexec =>
        cases hexec
        rw [sp_of_popR4Lr h, List.length_cons, List.length_cons]
        bv_omega
    case pushR0 =>
      cases hdecode.symm.trans decode_pushR0
      cases hexec
      rw [sp_of_pushR0 h, List.length_cons]
      bv_omega
    case popR r_num =>
      cases hdecode.symm.trans (decode_popR hc)
      match stack, hexec with
      | .operand :: stack, hexec =>
        cases hexec
        rw [sp_of_popR h, List.length_cons]
        bv_omega
    all_goals exact absurd (fun _ => rfl) hid

end Machine

section Depth
variable {g : Generator}

/-- The stack with `d` operands above the saved registers. -/
def slots (d : ℕ) : List Slot := List.replicate d .operand ++ [.saved, .saved]

/-- How many operands there are after an entry of the postfix form; `none` where it takes more
than there are. -/
def depthAfter : StackOperand → ℕ → Option ℕ
  | .constant _, d => some (d + 1)
  | .variable _, d => some (d + 1)
  | .function _ n_arguments, d =>
    if n_arguments.toNat ≤ d then some (d - n_arguments.toNat + 1) else none
  | .mathOperator _, d => if 2 ≤ d then some (d - 1) else none

def depthAfterAll : List StackOperand → ℕ → Option ℕ
  | [], d => some d
  | operand :: operands, d => (depthAfter operand d).bind (depthAfterAll operands)

theorem execAll_append (commands commands' : List Command) (stack : List Slot) :
    execAll (commands ++ commands') stack = (execAll commands stack).bind (execAll commands') := by
  induction commands generalizing stack with
  | nil => rfl
  | cons command commands ih =>
    rw [List.cons_append, execAll, execAll, Option.bind_assoc]
    congr 1
    funext stack'
    exact ih stack'

theorem exec_popR_slots (n d : ℕ) :
    (Command.popR n).exec (slots d) = if 1 ≤ d then some (slots (d - 1)) else none := by
  cases d <;> rfl

theorem execAll_popCommands (n d : ℕ) :
    execAll (popCommands n) (slots d) = if n ≤ d then some (slots (d - n)) else none := by
  induction n generalizing d with
  | zero => simp [popCommands, execAll]
  | succ n ih =>
    rw [popCommands, execAll, exec_popR_slots]
    split_ifs with hpos hle hle
    · rw [Option.bind_some, ih, if_pos (by omega), Nat.sub_sub, Nat.add_comm 1 n]
    · rw [Option.bind_some, ih, if_neg (by omega)]
    · omega
    · rfl

theorem execAll_commandsOf (operand : StackOperand) (d : ℕ) :
    execAll (g.commandsOf operand) (slots d) = (depthAfter operand d).map slots := by
  match operand with
  | .constant value => rfl
  | .variable name => rfl
  | .function name n_arguments =>
    rw [Generator.commandsOf, execAll_append, execAll_popCommands, depthAfter]
    split_ifs <;> rfl
  | .mathOperator sym =>
    have hafter (d : ℕ) : execAll (mathCommands sym ++ [.pushR0]) (slots d) =
        some (slots (d + 1)) := by
      unfold mathCommands
      split <;> rfl
    have htwo : execAll [.popR 2, .popR 1] (slots d) =
        if 2 ≤ d then some (slots (d - 2)) else none := by
      rcases d with _ | _ | d
      · rfl
      · rfl
      · rw [if_pos (by omega)]
        rfl
    rw [Generator.commandsOf, List.append_assoc, execAll_append, htwo, depthAfter]
    split_ifs with hle
    · rw [Option.bind_some, hafter, Option.map_some, show d - 2 + 1 = d - 1 by omega]
    · rfl

theorem execAll_commandsOfAll (operands : List StackOperand) (d : ℕ) :
    execAll (g.commandsOfAll operands) (slots d) = (depthAfterAll operands d).map slots := by
  induction operands generalizing g d with
  | nil => rfl
  | cons operand operands ih =>
    rw [Generator.commandsOfAll, execAll_append, execAll_commandsOf, depthAfterAll]
    cases depthAfter operand d with
    | none => rfl
    | some d' =>
      rw [Option.map_some, Option.bind_some, Option.bind_some]
      exact ih d'

theorem slots_injective : Function.Injective slots := by
  intro d d' h
  have hlen := congrArg List.length h
  simpa [slots] using hlen

/-- The commands keep the discipline if the entries of the postfix form leave one operand. -/
theorem disciplined_iff_depth (expression : List StackOperand) :
    g.Disciplined expression ↔ depthAfterAll expression 0 = some 1 := by
  unfold Generator.Disciplined
  have hstart : execAll (g.bodyOf expression) [] =
      execAll ((g.pushCommands [pushR4Lr]).commandsOfAll expression) (slots 0) := rfl
  rw [hstart, execAll_commandsOfAll, show [.operand, .saved, .saved] = slots 1 from rfl]
  cases depthAfterAll expression 0 with
  | none => simp
  | some d => simp [slots_injective.eq_iff]

theorem depthAfterAll_append (operands operands' : List StackOperand) (d : ℕ) :
    depthAfterAll (operands ++ operands') d =
      (depthAfterAll operands d).bind (depthAfterAll operands') := by
  induction operands generalizing d with
  | nil => rfl
  | cons operand operands ih =>
    rw [List.cons_append, depthAfterAll, depthAfterAll, Option.bind_assoc]
    congr 1
    funext d'
    exact ih d'

end Depth

section Calls

mutual

/-- Without empty argument lists an expression leaves one operand more. -/
theorem depthAfterAll_postfixed : ∀ (e : Expr) (d : ℕ), e.emptyCalls = 0 →
    depthAfterAll e.postfixed d = some (d + 1)
  | .literal minus n, d, _ => rfl
  | .var name, d, _ => rfl
  | .binary op left right, d, h => by
    rw [Expr.emptyCalls] at h
    rw [Expr.postfixed, depthAfterAll_append, depthAfterAll_append,
      depthAfterAll_postfixed left d (by omega), Option.bind_some,
      depthAfterAll_postfixed right (d + 1) (by omega), Option.bind_some, depthAfterAll, depthAfter,
      if_pos (by omega)]
    rfl
  | .call name args, d, h => by
    rw [Expr.emptyCalls] at h
    have hargs : args ≠ [] := by
      rintro rfl
      simp at h
    have hpos := List.length_pos_iff.mpr hargs
    rw [Expr.postfixed, depthAfterAll_append, depthAfterAll_postfixList args d (by omega),
      Option.bind_some, depthAfterAll, depthAfter, Int.toNat_natCast, if_pos (by omega),
      show d + args.length - max 1 args.length + 1 = d + 1 by omega]
    rfl

theorem depthAfterAll_postfixList : ∀ (es : List Expr) (d : ℕ), emptyCallsList es = 0 →
    depthAfterAll (postfixList es) d = some (d + es.length)
  | [], d, _ => rfl
  | e :: es, d, h => by
    rw [emptyCallsList] at h
    rw [postfixList, depthAfterAll_append, depthAfterAll_postfixed e d (by omega), Option.bind_some,
      depthAfterAll_postfixList es (d + 1) (by omega), List.length_cons,
      show d + 1 + es.length = d + (es.length + 1) by omega]

end

mutual

/-- Each empty argument list takes one operand too many. -/
theorem depthAfterAll_lost : ∀ (e : Expr) (d : ℕ) {d' : ℕ},
    depthAfterAll e.postfixed d = some d' → d' + e.emptyCalls = d + 1
  | .literal minus n, d, d', h => by
    cases h
    rfl
  | .var name, d, d', h => by
    cases h
    rfl
  | .binary op left right, d, d', h => by
    rw [Expr.postfixed, depthAfterAll_append, depthAfterAll_append] at h
    obtain ⟨b, hb, hlast⟩ := Option.bind_eq_some_iff.mp h
    obtain ⟨a, ha, hb⟩ := Option.bind_eq_some_iff.mp hb
    have hleft := depthAfterAll_lost left d ha
    have hright := depthAfterAll_lost right a hb
    rw [depthAfterAll, depthAfter] at hlast
    split_ifs at hlast with hle
    · cases hlast
      rw [Expr.emptyCalls]
      omega
    · cases hlast
  | .call name args, d, d', h => by
    rw [Expr.postfixed, depthAfterAll_append] at h
    obtain ⟨a, ha, hlast⟩ := Option.bind_eq_some_iff.mp h
    have hrest := depthAfterAll_lostList args d ha
    rw [depthAfterAll, depthAfter, Int.toNat_natCast] at hlast
    split_ifs at hlast with hle
    · cases hlast
      rw [Expr.emptyCalls]
      split_ifs with hargs
      · rw [hargs] at hrest hle ⊢
        rw [List.length_nil] at hrest hle ⊢
        omega
      · have hpos := List.length_pos_iff.mpr hargs
        omega
    · cases hlast

theorem depthAfterAll_lostList : ∀ (es : List Expr) (d : ℕ) {d' : ℕ},
    depthAfterAll (postfixList es) d = some d' → d' + emptyCallsList es = d + es.length
  | [], d, d', h => by
    cases h
    rfl
  | e :: es, d, d', h => by
    rw [postfixList, depthAfterAll_append] at h
    obtain ⟨a, ha, hrest⟩ := Option.bind_eq_some_iff.mp h
    have hfirst := depthAfterAll_lost e d ha
    have hothers := depthAfterAll_lostList es a hrest
    rw [emptyCallsList, List.length_cons]
    omega

end

theorem disciplined_postfix_iff (g : Generator) (e : Expr) :
    g.Disciplined e.postfixed ↔ e.emptyCalls = 0 := by
  rw [disciplined_iff_depth]
  constructor
  · intro h
    have hlost := depthAfterAll_lost e 0 h
    omega
  · intro h
    exact depthAfterAll_postfixed e 0 h

/-- The program for an expression keeps the discipline of the operand stack if and only if no call
has an empty argument list. -/
theorem stack_discipline_iff {e : Expr} {cs : List Char} (h : IsAnyText Lexable e cs)
    (externs : List Symbol) :
    (∃ expression, fromInfixString cs = some expression ∧
      (Generator.init.setSymbols externs).Disciplined expression) ↔ e.emptyCalls = 0 := by
  rw [fromInfixString_any h, ← disciplined_postfix_iff (Generator.init.setSymbols externs)]
  simp

/-- `f(a)`. -/
theorem isAnyText_oneArgument :
    IsAnyText Lexable (.call ['f'] [.var ['a']]) ['f', '(', 'a', ')'] := by
  have ha : RendersAny Lexable 0 [.var ['a']] [.name ['a']] := .var ⟨by decide, by simp⟩
  exact ⟨_, .call ⟨by decide, by simp⟩ (by decide) ha,
    @spells_token _ _ ['f'] _ rfl (@spells_token _ _ ['('] _ rfl (@spells_token _ _ ['a'] _ rfl
      (@spells_token _ _ [')'] [] rfl (.nil (by simp)))))⟩

theorem stack_discipline_oneArgument : ∃ expression,
    fromInfixString ['f', '(', 'a', ')'] = some expression ∧
      (Generator.init.setSymbols []).Disciplined expression :=
  (stack_discipline_iff isAnyText_oneArgument []).mpr rfl

theorem isAnyText_emptyCall : IsAnyText Lexable (.call ['f'] []) ['f', '(', ')'] :=
  ⟨_, .emptyCall ⟨by decide, by simp⟩,
    @spells_token _ _ ['f'] _ rfl (@spells_token _ _ ['('] _ rfl
      (@spells_token _ _ [')'] [] rfl (.nil (by simp))))⟩

/-- For `f()` the first `pop` takes the saved `r4`. -/
theorem stack_discipline_emptyCall :
    IsAnyText Lexable (.call ['f'] []) ['f', '(', ')'] ∧
      fromInfixString ['f', '(', ')'] = some [.function ['f'] 1] ∧
      (Generator.init.bodyOf [.function ['f'] 1]).take 2 = [.pushR4Lr, .popR 0] ∧
      execAll [.pushR4Lr, .popR 0] [] = none ∧
      ¬ Generator.init.Disciplined [.function ['f'] 1] := by
  refine ⟨isAnyText_emptyCall, by decide, rfl, rfl, ?_⟩
  rw [disciplined_iff_depth]
  decide

end Calls

end Acos.JitCompile
