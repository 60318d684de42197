import Acos.JitCompile.Commands
import Acos.JitCompile.Meaning

/-! The commands of each entry of the postfix form do on the machine's stack what the entry means,
and so does the whole program. -/
namespace Acos.JitCompile
open Acos.Arm

/-- The words behind the names of `g` are what `env` says: variables with their contents, functions
with routines that follow the procedure call standard. -/
structure Site.Declares (S : Site) (g : Generator) (env : Env) : Prop where
  var : ∀ {name v}, env.var name = some v → ∃ pointer, g.Finds name pointer ∧ Aligned pointer ∧
    S.kept pointer ∧ S.memory pointer = v
  func : ∀ {name arity f}, env.func name = some (arity, f) → arity ≤ 4 ∧ ∃ pointer routine,
    g.Finds name pointer ∧ Aligned pointer ∧ S.routines pointer = some routine ∧
      Aapcs pointer S.sp S.room S.kept arity f routine

section Operand
variable {S : Site} {env : Env} {final g : Generator} {k : ℕ} {stack stack' : List Word} {s : Cpu}

theorem At.run_constant (hS : S.Loaded final) {value : ℤ}
    (h : At S g.program_commands.length stack s)
    (hle : (g.processStackOperand (.constant value)).Le final) (hroom : stack.length + 3 ≤ S.room) :
    ∃ t, Steps S.routines s t ∧ At S (g.program_commands.length + 2)
      (BitVec.ofInt 32 value :: stack) t := by
  rw [Generator.processStackOperand_constant] at hle
  have hemits := Emits.of_le hle
  have hlength := hemits.length_le (by simp)
  have hdata : final.data_section[g.data_section.length]? = some (BitVec.ofInt 32 value) := by
    obtain ⟨rest, hrest⟩ := hle.data
    rw [← hrest]
    simp [Generator.pushCommands]
  obtain ⟨t₁, hstep₁, h₁, hvalue⟩ := h.load_constant hS hemits.head (by simpa using hlength) hdata
  obtain ⟨t₂, hstep₂, h₂⟩ := h₁.push hS hemits.tail.head hroom
  rw [hvalue] at h₂
  exact ⟨t₂, (Steps.single hstep₁).trans (.single hstep₂), h₂⟩

theorem At.run_variable (hS : S.Loaded final) (hdecl : S.Declares final env) {name : Name}
    {v : Word}
    (hname : env.var name = some v) (h : At S g.program_commands.length stack s)
    (hle : (g.processStackOperand (.variable name)).Le final) (hroom : stack.length + 3 ≤ S.room) :
    ∃ t, Steps S.routines s t ∧ At S (g.program_commands.length + 3) (v :: stack) t := by
  rw [Generator.processStackOperand_variable] at hle
  have hemits := Emits.of_le hle
  have hlength := hemits.length_le (by simp)
  simp only [List.length_cons, List.length_nil] at hlength
  obtain ⟨pointer, hfinds, haligned, hkept, hmemory⟩ := hdecl.var hname
  have hload := hemits.head
  rw [Generator.shiftTo, show g.symbols_ptr = final.symbols_ptr from hle.symbols.symm] at hload
  obtain ⟨t₁, hstep₁, h₁, hr4, hmem, -⟩ := h.load_shifted_addr hS hfinds hload (by omega)
  have hvalue : t₁.mem pointer = v := by rw [h₁.kept _ hkept, hmemory]
  obtain ⟨t₂, hstep₂, h₂, hvalue₂, -, -⟩ := h₁.compute hS (r := 0) (v := v) (by decide) (by decide)
    hemits.tail.head decode_loadR4 (by simp [Cpu.exec, Cpu.read, hr4, haligned, hvalue])
  obtain ⟨t₃, hstep₃, h₃⟩ := h₂.push hS hemits.tail.tail.head hroom
  rw [hvalue₂] at h₃
  exact ⟨t₃, ((Steps.single hstep₁).trans (.single hstep₂)).trans (.single hstep₃), h₃⟩

theorem At.run_operator (hS : S.Loaded final) {op : Operator} {a b : Word}
    (h : At S g.program_commands.length (b :: a :: stack) s)
    (hle : (g.processStackOperand (.mathOperator op.sym)).Le final)
    (hroom : stack.length + 3 ≤ S.room) :
    ∃ t, Steps S.routines s t ∧ At S (g.program_commands.length + 4) (op.apply a b :: stack) t := by
  rw [Generator.processStackOperand_operator] at hle
  have hemits := Emits.of_le hle
  obtain ⟨t₁, hstep₁, h₁, hb, -⟩ := h.pop hS (by decide) (by decide) hemits.head
    (decode_popR (n := 2) (by decide))
  obtain ⟨t₂, hstep₂, h₂, ha, hregs⟩ := h₁.pop hS (by decide) (by decide) hemits.tail.head
    (decode_popR (n := 1) (by decide))
  have hr1 : t₂.reg 1 = a := ha
  have hr2 : t₂.reg 2 = b := (hregs 2 (by decide) (by decide) (by decide)).trans hb
  obtain ⟨i, hdecode, hexec⟩ : ∃ i, decode op.command = some i ∧
      t₂.exec i = some (t₂.set 0 (op.apply a b)).advance := by
    cases op with
    | add =>
      exact ⟨_, decode_cmdAdd, by simp [Cpu.exec, Cpu.write, Cpu.read, hr1, hr2, Operator.apply]⟩
    | sub =>
      exact ⟨_, decode_cmdSub, by simp [Cpu.exec, Cpu.write, Cpu.read, hr1, hr2, Operator.apply]⟩
    | mul => exact ⟨_, decode_cmdMul, by simp [Cpu.exec, Cpu.write, hr1, hr2, Operator.apply]⟩
  obtain ⟨t₃, hstep₃, h₃, hvalue, -, -⟩ :=
    h₂.compute hS (by decide) (by decide) hemits.tail.tail.head hdecode hexec
  obtain ⟨t₄, hstep₄, h₄⟩ := h₃.push hS hemits.tail.tail.tail.head hroom
  rw [hvalue] at h₄
  exact ⟨t₄, (((Steps.single hstep₁).trans (.single hstep₂)).trans (.single hstep₃)).trans
    (.single hstep₄), h₄⟩

theorem At.run_function (hS : S.Loaded final) (hdecl : S.Declares final env) {name : Name}
    {arity : ℕ}
    {f : List Word → Word} {args : List Word} (hname : env.func name = some (arity, f))
    (hargs : args.length = arity) (h : At S g.program_commands.length (args.reverse ++ stack) s)
    (hle : (g.processStackOperand (.function name arity)).Le final)
    (hroom : stack.length + 3 ≤ S.room) :
    ∃ t, Steps S.routines s t ∧
      At S (g.program_commands.length + arity + 5) (f args :: stack) t := by
  obtain ⟨harity, pointer, routine, hfinds, haligned, hroutine, habi⟩ := hdecl.func hname
  rw [Generator.processStackOperand_function] at hle
  have hemits := (Emits.of_le hle).append
  rw [Generator.length_popArguments] at hemits
  obtain ⟨hpops, hcall⟩ := hemits
  rw [← hargs] at hpops harity hcall habi ⊢
  obtain ⟨t₁, hsteps₁, h₁, hvalues⟩ := h.pop_arguments hS harity hpops
  have hshift : (g.pushCommands (Generator.popArguments args.length)).shiftTo (g.symbols_ptr name) =
      final.symbols_ptr name -
        BitVec.ofNat 32 (g.program_commands.length + args.length) * WORD_SIZE := by
    rw [hle.symbols]
    simp [Generator.shiftTo, Generator.pushCommands, Generator.length_popArguments]
  rw [hshift] at hcall
  obtain ⟨hsequence, hpush⟩ := @Emits.append _ _ [_, _, _, _] [_] hcall
  obtain ⟨t₂, hsteps₂, h₂, hresult⟩ :=
    h₁.call hS hfinds hsequence haligned hroutine harity habi (by omega)
  obtain ⟨t₃, hstep₃, h₃⟩ := h₂.push hS hpush.head hroom
  rw [hresult, hvalues] at h₃
  exact ⟨t₃, (hsteps₁.trans hsteps₂).trans (.single hstep₃), h₃⟩

/-- The commands of an entry of the postfix form have its effect on the stack. -/
theorem At.run_operand (hS : S.Loaded final) (hdecl : S.Declares final env)
    {operand : StackOperand} (heval : evalOperand env operand stack = some stack')
    (h : At S g.program_commands.length stack s) (hle : (g.processStackOperand operand).Le final)
    (hroom : stack.length + 3 ≤ S.room) :
    ∃ t, Steps S.routines s t ∧
      At S (g.processStackOperand operand).program_commands.length stack' t := by
  match operand, stack, heval with
  | .constant value, stack, heval =>
    obtain ⟨t, hsteps, ht⟩ := h.run_constant hS hle hroom
    refine ⟨t, hsteps, ?_⟩
    rw [Generator.processStackOperand_constant, ← Option.some.inj heval]
    simpa [Generator.pushCommands] using ht
  | .variable name, stack, heval =>
    obtain ⟨v, hname, hstack⟩ := Option.map_eq_some_iff.mp heval
    obtain ⟨t, hsteps, ht⟩ := h.run_variable hS hdecl hname hle hroom
    refine ⟨t, hsteps, ?_⟩
    rw [Generator.processStackOperand_variable, ← hstack]
    simpa [Generator.pushCommands] using ht
  | .mathOperator sym, stack, heval =>
    obtain ⟨op, a, b, rest, rfl, rfl, hstack⟩ := evalOperand_mathOperator heval
    obtain ⟨t, hsteps, ht⟩ :=
      h.run_operator hS hle (by simp only [List.length_cons] at hroom; omega)
    refine ⟨t, hsteps, ?_⟩
    rw [Generator.processStackOperand_operator, hstack]
    simpa [Generator.pushCommands] using ht
  | .function name n_arguments, stack, heval =>
    obtain ⟨⟨arity, f⟩, hname, hif⟩ := Option.bind_eq_some_iff.mp heval
    dsimp only at hif
    split at hif
    next hcond =>
      obtain ⟨rfl, hlength⟩ := hcond
      have hsplit : stack = (stack.take arity).reverse.reverse ++ stack.drop arity := by
        rw [List.reverse_reverse, List.take_append_drop]
      rw [hsplit] at h
      have hargs : (stack.take arity).reverse.length = arity := by
        simpa using hlength
      obtain ⟨t, hsteps, ht⟩ :=
        h.run_function hS hdecl hname hargs hle (by rw [List.length_drop]; omega)
      refine ⟨t, hsteps, ?_⟩
      rw [Generator.processStackOperand_function, ← Option.some.inj hif]
      simpa [Generator.pushCommands, Generator.length_popArguments, Nat.add_assoc] using ht
    next => cases hif

/-- An entry of the postfix form leaves at most one more word on the stack. -/
theorem evalOperand_length {operand : StackOperand}
    (heval : evalOperand env operand stack = some stack') : stack'.length ≤ stack.length + 1 := by
  match operand, stack, heval with
  | .constant value, stack, heval => rw [← Option.some.inj heval, List.length_cons]
  | .variable name, stack, heval =>
    obtain ⟨v, -, hstack⟩ := Option.map_eq_some_iff.mp heval
    rw [← hstack, List.length_cons]
  | .mathOperator sym, stack, heval =>
    obtain ⟨op, a, b, rest, rfl, rfl, hstack⟩ := evalOperand_mathOperator heval
    simp [hstack]
  | .function name n_arguments, stack, heval =>
    obtain ⟨⟨arity, f⟩, -, hif⟩ := Option.bind_eq_some_iff.mp heval
    dsimp only at hif
    split at hif
    · rw [← Option.some.inj hif, List.length_cons, List.length_drop]
      omega
    · cases hif

/-- The commands of a postfix form, by induction on it. -/
theorem At.run_operands (hS : S.Loaded final) (hdecl : S.Declares final env)
    {operands : List StackOperand} (heval : evalOperands env operands stack = some stack')
    (h : At S g.program_commands.length stack s) (hle : (g.processStackOperands operands).Le final)
    (hroom : stack.length + operands.length + 2 ≤ S.room) :
    ∃ t, Steps S.routines s t ∧
      At S (g.processStackOperands operands).program_commands.length stack' t := by
  induction operands generalizing g stack s with
  | nil =>
    rw [← Option.some.inj heval]
    exact ⟨s, Steps.refl s, h⟩
  | cons operand operands ih =>
    obtain ⟨middle, hfirst, hrest⟩ := Option.bind_eq_some_iff.mp heval
    have hmiddle := evalOperand_length hfirst
    rw [List.length_cons] at hroom
    have hle₁ : (g.processStackOperand operand).Le final :=
      (Generator.Le.processStackOperands _ operands).trans hle
    obtain ⟨t, hsteps, ht⟩ := h.run_operand hS hdecl hfirst hle₁ (by omega)
    obtain ⟨u, hsteps', hu⟩ := ih hrest ht hle (by omega)
    exact ⟨u, hsteps.trans hsteps', hu⟩

end Operand

/-- The program of a postfix form that leaves one value returns it. -/
theorem Site.Entered.run {S : Site} {env : Env} {g : Generator} {operands : List StackOperand}
    {v : Word} {s : Cpu} (hS : S.Loaded (g.generateMachineCommands operands))
    (hempty : g.program_commands = []) (hdecl : S.Declares (g.generateMachineCommands operands) env)
    (heval : evalOperands env operands [] = some [v]) (h : S.Entered s)
    (hroom : operands.length + 2 ≤ S.room) (hlr : S.lr.toNat % 4 ≠ 2) :
    ∃ t, Steps S.routines s t ∧ ReturnedTo S.lr t ∧ t.reg 0 = v ∧ t.reg 4 = S.r4 ∧ t.sp = S.sp := by
  have hbody : ((g.pushCommands [pushR4Lr]).processStackOperands operands).Le
      (g.generateMachineCommands operands) := Generator.Le.pushCommands _ _
  have hfirst : (g.generateMachineCommands operands).program_commands[0]? = some pushR4Lr := by
    have hemits := Emits.of_le ((Generator.Le.processStackOperands _ operands).trans hbody)
    rw [hempty] at hemits
    exact hemits.head
  obtain ⟨t₁, hstep₁, h₁⟩ := h.push hS hfirst (by omega)
  have hstart : At S (g.pushCommands [pushR4Lr]).program_commands.length [] t₁ := by
    simpa [Generator.pushCommands, hempty] using h₁
  obtain ⟨t₂, hsteps₂, h₂⟩ := hstart.run_operands hS hdecl heval hbody (by simpa using hroom)
  have hend : Emits (g.generateMachineCommands operands)
      ((g.pushCommands [pushR4Lr]).processStackOperands operands).program_commands.length
      [popR 0, popR4Lr, cmdExit] := Emits.of_le (Generator.Le.refl _)
  obtain ⟨t₃, hsteps₃, hreturned⟩ := h₂.leave hS hend hlr
  exact ⟨t₃, ((Steps.single hstep₁).trans hsteps₂).trans hsteps₃, hreturned⟩

end Acos.JitCompile
