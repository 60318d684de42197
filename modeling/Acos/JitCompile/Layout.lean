import Acos.JitCompile.Codegen
import Acos.JitCompile.Grammar
import Mathlib.Data.List.Infix

/-! What lies where in the buffer. Commands and data words are only ever added, so that a position
of the generator is one of the finished code. -/
namespace Acos.JitCompile
open Acos.Arm

/-- The generator `g'` comes later than `g`. -/
structure Generator.Le (g g' : Generator) : Prop where
  symbols : g'.symbols_ptr = g.symbols_ptr
  commands : g.program_commands <+: g'.program_commands
  data : g.data_section <+: g'.data_section

namespace Generator.Le
variable {g g' g'' : Generator}

theorem refl (g : Generator) : g.Le g := ⟨rfl, List.prefix_rfl, List.prefix_rfl⟩

theorem trans (h : g.Le g') (h' : g'.Le g'') : g.Le g'' :=
  ⟨h'.symbols.trans h.symbols, h.commands.trans h'.commands, h.data.trans h'.data⟩

theorem pushCommands (g : Generator) (cmds : List Word) : g.Le (g.pushCommands cmds) :=
  ⟨rfl, List.prefix_append _ _, List.prefix_rfl⟩

theorem pushData (g : Generator) (w : Word) :
    g.Le ⟨g.symbols_ptr, g.program_commands, g.data_section ++ [w]⟩ :=
  ⟨rfl, List.prefix_rfl, List.prefix_append _ _⟩

theorem processStackOperand (g : Generator) (operand : StackOperand) :
    g.Le (g.processStackOperand operand) := by
  refine trans ?_ (pushCommands _ _)
  match operand with
  | .constant value => exact (pushData _ _).trans (pushCommands _ _)
  | .variable name => exact (pushCommands _ _).trans (pushCommands _ _)
  | .function name n_arguments =>
    exact ((pushCommands _ _).trans (pushCommands _ _)).trans (pushCommands _ _)
  | .mathOperator sym =>
    apply (pushCommands g [popR 2, popR 1]).trans
    dsimp only
    split
    · exact pushCommands _ _
    · exact pushCommands _ _
    · exact pushCommands _ _
    · exact refl _

theorem processStackOperands (g : Generator) (operands : List StackOperand) :
    g.Le (g.processStackOperands operands) := by
  induction operands generalizing g with
  | nil => exact refl g
  | cons operand operands ih => exact (processStackOperand g operand).trans (ih _)

theorem generateMachineCommands (g : Generator) (expression : List StackOperand) :
    g.Le (g.generateMachineCommands expression) :=
  ((pushCommands _ _).trans (processStackOperands _ _)).trans (pushCommands _ _)

end Generator.Le

/-- The commands `cmds` lie at position `k`. -/
def Emits (g : Generator) (k : ℕ) (cmds : List Word) : Prop := cmds <+: g.program_commands.drop k

section Emits
variable {g g' : Generator} {k : ℕ} {w : Word} {cmds cmds' : List Word}

theorem Emits.of_le (h : (g.pushCommands cmds).Le g') :
    Emits g' g.program_commands.length cmds := by
  obtain ⟨rest, hrest⟩ := h.commands
  refine ⟨rest, ?_⟩
  rw [← hrest]
  simp [Generator.pushCommands]

theorem Emits.append (h : Emits g k (cmds ++ cmds')) :
    Emits g k cmds ∧ Emits g (k + cmds.length) cmds' := by
  obtain ⟨rest, hrest⟩ := h
  refine ⟨⟨cmds' ++ rest, by rw [← hrest, List.append_assoc]⟩, rest, ?_⟩
  rw [← List.drop_drop, ← hrest, List.append_assoc, List.drop_left]

theorem Emits.head (h : Emits g k (w :: cmds)) : g.program_commands[k]? = some w := by
  obtain ⟨rest, hrest⟩ := h
  have hfirst : (g.program_commands.drop k)[0]? = some w := by rw [← hrest]; rfl
  rwa [List.getElem?_drop, Nat.add_zero] at hfirst

theorem Emits.tail (h : Emits g k (w :: cmds)) : Emits g (k + 1) cmds :=
  (@Emits.append g k [w] cmds h).2

theorem Emits.length_le (h : Emits g k cmds) (hpos : cmds ≠ []) :
    k + cmds.length ≤ g.program_commands.length := by
  have hle := List.IsPrefix.length_le h
  have hlength := List.length_pos_iff.mpr hpos
  rw [List.length_drop] at hle
  omega

end Emits

/-- The command of an operation. -/
def Operator.command : Operator → Word
  | .add => cmdAdd
  | .sub => cmdSub
  | .mul => cmdMul

namespace Generator
variable (g : Generator)

theorem pushCommands_append (cmds cmds' : List Word) :
    (g.pushCommands cmds).pushCommands cmds' = g.pushCommands (cmds ++ cmds') := by
  simp [pushCommands]

theorem processStackOperand_constant (value : ℤ) : g.processStackOperand (.constant value) =
    pushCommands ⟨g.symbols_ptr, g.program_commands, g.data_section ++ [BitVec.ofInt 32 value]⟩
      [loadConstant (g.shiftTo g.getNextDataWordShift), pushR0] := by
  simp [processStackOperand, pushCommands, shiftTo]

theorem processStackOperand_variable (name : Name) : g.processStackOperand (.variable name) =
    g.pushCommands [loadShiftedAddr (g.shiftTo (g.symbols_ptr name)), loadR4, pushR0] := by
  simp only [processStackOperand, pushCommands_append]
  rfl

theorem processStackOperand_function (name : Name) (n : ℕ) :
    g.processStackOperand (.function name n) = g.pushCommands (popArguments n ++
      [loadShiftedAddr ((g.pushCommands (popArguments n)).shiftTo (g.symbols_ptr name)),
        savePc, incrementLr, gotoR4, pushR0]) := by
  simp only [processStackOperand, pushCommands_append, List.append_assoc]
  rfl

theorem processStackOperand_operator (op : Operator) :
    g.processStackOperand (.mathOperator op.sym) =
      g.pushCommands [popR 2, popR 1, op.command, pushR0] := by
  cases op <;> simp only [processStackOperand, Operator.sym, pushCommands_append] <;> rfl

theorem length_popArguments (n : ℕ) : (popArguments n).length = n := by
  induction n with
  | zero => rfl
  | succ n ih => simp [popArguments, ih]

/-- Each entry of the postfix form has a command of its own. -/
theorem length_processStackOperands (operands : List StackOperand) :
    g.program_commands.length + operands.length ≤
      (g.processStackOperands operands).program_commands.length := by
  induction operands generalizing g with
  | nil => exact le_rfl
  | cons operand operands ih =>
    have hpush : g.program_commands.length + 1 ≤
        (g.processStackOperand operand).program_commands.length := by
      match operand with
      | .constant value => simp [processStackOperand, pushCommands]
      | .variable name => simp [processStackOperand, pushCommands]
      | .function name n_arguments => simp [processStackOperand, pushCommands]
      | .mathOperator sym =>
        simp only [processStackOperand, pushCommands]
        split <;> simp
    have hrest := ih (g.processStackOperand operand)
    rw [List.length_cons, processStackOperands]
    omega

theorem length_generateMachineCommands (operands : List StackOperand) :
    operands.length ≤ (g.generateMachineCommands operands).program_commands.length := by
  have hbody := length_processStackOperands (g.pushCommands [pushR4Lr]) operands
  rw [generateMachineCommands]
  simp only [pushCommands, List.length_append] at hbody ⊢
  omega

end Generator

/-- The place of data word `j` in the buffer, as the generator notes it down. -/
def dataShift (j : ℕ) : Word := PROGRAM_BUFFER_SIZE - WORD_SIZE * (BitVec.ofNat 32 j + 1)

theorem loadConstant_toNat {j k : ℕ} (h : k + 2 + (j + 1) ≤ 1024) :
    (loadConstant (dataShift j - BitVec.ofNat 32 k * WORD_SIZE)).toNat =
      0xe59f0000 + 0x1000 * 0 + (4096 - 4 * (j + 1) - 4 * k - 8) := by
  unfold loadConstant dataShift PROGRAM_BUFFER_SIZE WORD_SIZE
  bv_omega

theorem loadShiftedAddr_toNat {j k : ℕ} (h : k + 2 + (j + 1) ≤ 1024) :
    (loadShiftedAddr (dataShift j - BitVec.ofNat 32 k * WORD_SIZE)).toNat =
      0xe59f0000 + 0x1000 * 4 + (4096 - 4 * (j + 1) - 4 * k - 8) := by
  unfold loadShiftedAddr dataShift PROGRAM_BUFFER_SIZE WORD_SIZE
  bv_omega

/-- The name stands for a data word that holds the pointer. -/
def Generator.Finds (g : Generator) (name : Name) (pointer : Word) : Prop :=
  ∃ j, g.symbols_ptr name = dataShift j ∧ g.data_section[j]? = some pointer

/-- The pointer of the last entry for a name, which is the one that `symbols_ptr` keeps. -/
def symbolAddress : List Symbol → Name → Option Word
  | [], _ => none
  | extern_ :: externs, name =>
    (symbolAddress externs name).or (if extern_.name = name then some extern_.pointer else none)

theorem symbolAddress_isSome_iff (externs : List Symbol) (name : Name) :
    (symbolAddress externs name).isSome = true ↔ name ∈ externs.map Symbol.name := by
  induction externs with
  | nil => simp [symbolAddress]
  | cons extern_ externs ih =>
    rw [symbolAddress, Option.isSome_or, Bool.or_eq_true, ih, List.map_cons, List.mem_cons, or_comm]
    by_cases hname : extern_.name = name
    · simp [hname]
    · simp [hname, Ne.symm hname]

/-- Under distinct names each name has one entry. -/
theorem symbolAddress_of_nodup {externs : List Symbol} {name : Name} {pointer : Word}
    (hnodup : (externs.map Symbol.name).Nodup) (h : ⟨name, pointer⟩ ∈ externs) :
    symbolAddress externs name = some pointer := by
  induction externs with
  | nil => cases h
  | cons extern_ externs ih =>
    rw [List.map_cons, List.nodup_cons] at hnodup
    rcases List.mem_cons.mp h with heq | hmem
    · subst heq
      have hnone : symbolAddress externs name = none := by
        rw [← Option.not_isSome_iff_eq_none, symbolAddress_isSome_iff]
        exact hnodup.1
      rw [symbolAddress, hnone, Option.none_or, if_pos rfl]
    · rw [symbolAddress, ih hnodup.2 hmem, Option.some_or]

namespace Generator
variable {g g' : Generator} {name : Name} {pointer : Word} {externs : List Symbol}

theorem Finds.of_le (hle : g.Le g') (h : g.Finds name pointer) : g'.Finds name pointer := by
  obtain ⟨j, hshift, hdata⟩ := h
  refine ⟨j, by rw [hle.symbols, hshift], ?_⟩
  obtain ⟨rest, hrest⟩ := hle.data
  rw [← hrest, List.getElem?_append_left (List.getElem?_eq_some_iff.mp hdata).1]
  exact hdata

theorem setSymbols_commands (g : Generator) (externs : List Symbol) :
    (g.setSymbols externs).program_commands = g.program_commands := by
  induction externs generalizing g with
  | nil => rfl
  | cons extern_ externs ih => exact ih _

theorem setSymbols_data (g : Generator) (externs : List Symbol) :
    (g.setSymbols externs).data_section = g.data_section ++ externs.map Symbol.pointer := by
  induction externs generalizing g with
  | nil => simp [setSymbols]
  | cons extern_ externs ih => simp [setSymbols, ih]

theorem setSymbols_ptr_of_notMem (h : name ∉ externs.map Symbol.name) :
    (g.setSymbols externs).symbols_ptr name = g.symbols_ptr name := by
  induction externs generalizing g with
  | nil => rfl
  | cons extern_ externs ih =>
    rw [List.map_cons, List.mem_cons, not_or] at h
    exact (ih h.2).trans (Function.update_of_ne h.1 _ _)

/-- A name stands for the pointer of its last entry. -/
theorem setSymbols_symbolAddress (h : symbolAddress externs name = some pointer) :
    (g.setSymbols externs).Finds name pointer := by
  induction externs generalizing g with
  | nil => cases h
  | cons extern_ externs ih =>
    rw [symbolAddress] at h
    cases hrest : symbolAddress externs name with
    | some pointer' =>
      rw [hrest, Option.some_or] at h
      exact ih (hrest.trans h)
    | none =>
      rw [hrest, Option.none_or] at h
      split_ifs at h with hname
      have hlater : name ∉ externs.map Symbol.name := by
        rw [← symbolAddress_isSome_iff, hrest]
        simp
      refine ⟨g.data_section.length, ?_, ?_⟩
      · rw [setSymbols, setSymbols_ptr_of_notMem hlater, ← hname]
        exact Function.update_self _ _ _
      · rw [setSymbols_data, List.getElem?_append_right le_rfl, Nat.sub_self, ← h]
        rfl

/-- Under distinct names each name stands for its own pointer. -/
theorem setSymbols_finds (hnodup : (externs.map Symbol.name).Nodup)
    (h : ⟨name, pointer⟩ ∈ externs) : (g.setSymbols externs).Finds name pointer :=
  setSymbols_symbolAddress (symbolAddress_of_nodup hnodup h)

end Generator

section Memory
variable {mem : Word → Word} {base a : Word} {ws : List Word}

theorem writeUp_of_ne (h : ∀ i < ws.length, a ≠ up base i) : writeUp mem base ws a = mem a := by
  induction ws generalizing mem base with
  | nil => rfl
  | cons w ws ih =>
    have hfirst : a ≠ base := by simpa [up] using h 0 (by simp)
    rw [writeUp, ih fun i hi => ?_, Function.update_of_ne hfirst]
    have hnext := h (i + 1) (by simpa using hi)
    unfold up at hnext ⊢
    bv_omega

theorem writeUp_get {i : ℕ} {w : Word} (hlength : ws.length < 2 ^ 29) (h : ws[i]? = some w) :
    writeUp mem base ws (up base i) = w := by
  induction ws generalizing mem base i with
  | nil => cases h
  | cons v ws ih =>
    rw [List.length_cons] at hlength
    cases i with
    | zero =>
      rw [writeUp, writeUp_of_ne fun i hi => ?_]
      · have hv : v = w := by simpa using h
        simp [up, hv]
      · unfold up
        bv_omega
    | succ i =>
      have hnext := @ih (Function.update mem base v) (base + 4) i (by omega) (by simpa using h)
      rw [← hnext, writeUp]
      congr 1
      unfold up
      bv_omega

theorem writeDown_of_ne (h : ∀ j < ws.length, a ≠ down base (j + 1)) :
    writeDown mem (base - 4) ws a = mem a := by
  induction ws generalizing mem base with
  | nil => rfl
  | cons w ws ih =>
    have hfirst : a ≠ base - 4 := h 0 (by simp)
    rw [writeDown, ih fun i hi => ?_, Function.update_of_ne hfirst]
    have hnext := h (i + 1) (by simpa using hi)
    unfold down at hnext ⊢
    bv_omega

theorem writeDown_get {j : ℕ} {w : Word} (hlength : ws.length < 2 ^ 29) (h : ws[j]? = some w) :
    writeDown mem (base - 4) ws (down base (j + 1)) = w := by
  induction ws generalizing mem base j with
  | nil => cases h
  | cons v ws ih =>
    rw [List.length_cons] at hlength
    cases j with
    | zero =>
      have hv : v = w := by simpa using h
      rw [writeDown, writeDown_of_ne fun i hi => ?_]
      · exact (Function.update_self _ _ _).trans hv
      · unfold down
        bv_omega
    | succ j =>
      have hnext :=
        @ih (Function.update mem (base - 4) v) (base - 4) j (by omega) (by simpa using h)
      rw [← hnext, writeDown]
      congr 1
      unfold down
      bv_omega

end Memory

theorem down_buffer {buffer : Word} {i : ℕ} (hi : i ≤ 1024) :
    down (buffer + PROGRAM_BUFFER_SIZE) i = up buffer (1024 - i) := by
  unfold down up PROGRAM_BUFFER_SIZE
  bv_omega

namespace Generator
variable {g : Generator} {buffer : Word} {mem : Word → Word} {w : Word} {i j : ℕ}

theorem writeCommandsByPtr_command
    (hfits : g.program_commands.length + g.data_section.length ≤ 1024)
    (hw : g.program_commands[i]? = some w) :
    g.writeCommandsByPtr buffer mem (up buffer i) = w := by
  have hi := (List.getElem?_eq_some_iff.mp hw).1
  refine (writeDown_of_ne fun j hj heq => ?_).trans (writeUp_get (by omega) hw)
  rw [down_buffer (by omega)] at heq
  have hindex := up_inj (by omega) (by omega) heq
  omega

theorem writeCommandsByPtr_data
    (hfits : g.program_commands.length + g.data_section.length ≤ 1024)
    (hw : g.data_section[j]? = some w) :
    g.writeCommandsByPtr buffer mem (down (buffer + PROGRAM_BUFFER_SIZE) (j + 1)) = w :=
  writeDown_get (by omega) hw

end Generator

end Acos.JitCompile
