import Acos.JitCompile.Correct
import Acos.JitCompile.Discipline
import Acos.JitCompile.Sentinel

/-! The room in the buffer. No character of the text makes more than four words of commands and
data, and a load that lies in the buffer reaches its word. -/
namespace Acos.JitCompile
open Acos.Arm Acos.MachineInt

/-- The words that an entry of the postfix form takes at most. -/
def StackOperand.words : StackOperand → ℕ
  | .constant _ => 3
  | .variable _ => 3
  | .function _ n_arguments => n_arguments.toNat + 5
  | .mathOperator _ => 4

def wordsOf (operands : List StackOperand) : ℕ := (operands.map StackOperand.words).sum

@[simp] theorem wordsOf_nil : wordsOf [] = 0 := rfl

@[simp] theorem wordsOf_append (operands operands' : List StackOperand) :
    wordsOf (operands ++ operands') = wordsOf operands + wordsOf operands' := by
  simp [wordsOf]

@[simp] theorem wordsOf_singleton (operand : StackOperand) :
    wordsOf [operand] = operand.words := by
  simp [wordsOf]

section Parser

/-- The words for which a token on the sorting stack stands. A comma that an open bracket has
counted stands for one. -/
def Token.words (token : Token) : ℕ :=
  wordsOf (operandOf token 0) + match token with
    | .openBracket value => (value % 2 ^ 8).toNat
    | _ => 0

def stackWords (stack : List Token) : ℕ := (stack.map Token.words).sum

@[simp] theorem stackWords_cons (token : Token) (stack : List Token) :
    stackWords (token :: stack) = token.words + stackWords stack := by
  simp [stackWords]

/-- The words for a name that is neither a variable nor a function yet. -/
def Token.pendingWords : Token → ℕ
  | .name _ => 4
  | _ => 0

def Parser.settledWords (p : Parser) : ℕ := wordsOf p.poliz + stackWords p.sorting_stack

def Parser.words (p : Parser) : ℕ := p.settledWords + p.last_read_token.pendingWords

variable {stack rest : List Token} {poliz poliz' : List StackOperand} {value : ℤ}

theorem popToBracket_words (h : popToBracket stack poliz = some (value, rest, poliz')) :
    wordsOf poliz' + stackWords rest + (value % 2 ^ 8).toNat =
      wordsOf poliz + stackWords stack := by
  induction stack generalizing poliz with
  | nil => cases h
  | cons token stack ih =>
    cases token with
    | openBracket value' =>
      cases h
      simp only [stackWords_cons, Token.words, operandOf, wordsOf_nil]
      omega
    | _ =>
      have hrest := ih h
      simp only [wordsOf_append, stackWords_cons, Token.words] at hrest ⊢
      omega

theorem popOperations_words {sym : Char} (h : popOperations sym stack poliz = some (rest, poliz')) :
    wordsOf poliz' + stackWords rest = wordsOf poliz + stackWords stack := by
  induction stack generalizing poliz with
  | nil => cases h
  | cons token stack ih =>
    cases token with
    | operation top =>
      rw [popOperations] at h
      split_ifs at h with hpop
      · have hrest := ih h
        simp only [wordsOf_append, stackWords_cons, Token.words] at hrest ⊢
        omega
      · cases h
        rfl
    | _ =>
      cases h
      rfl

theorem popAll_words (h : popAll stack poliz = some poliz') :
    wordsOf poliz' ≤ wordsOf poliz + stackWords stack := by
  induction stack generalizing poliz with
  | nil => cases h
  | cons token stack ih =>
    cases token with
    | undefined =>
      cases h
      exact Nat.le_add_right _ _
    | _ =>
      have hrest := ih h
      simp only [wordsOf_append, stackWords_cons, Token.words] at hrest ⊢
      omega

theorem bracket_words (value : ℤ) :
    (i32 (value + 1) % 2 ^ 8).toNat ≤ (value % 2 ^ 8).toNat + 1 := by
  unfold i32
  omega

/-- A name that is resolved takes one word more than is kept for it only as a function, and then
an open bracket is being read. -/
theorem resolveName_words (p : Parser) (token : Token) :
    (p.resolveName token).settledWords ≤ p.words + token.brackets := by
  unfold Parser.resolveName Parser.words
  split
  · rename_i name value hlast
    rw [hlast]
    simp only [Parser.settledWords, stackWords_cons, Token.words, operandOf, wordsOf_singleton,
      StackOperand.words, Token.pendingWords, Token.brackets]
    omega
  · rename_i name hlast hopen
    rw [hlast]
    simp only [Parser.settledWords, wordsOf_append, operandOf, wordsOf_singleton,
      StackOperand.words, Token.pendingWords]
    omega
  · omega

theorem readStep_words {p q : Parser} {token : Token} (h : p.readStep token = some q) :
    q.words + token.brackets ≤ p.settledWords + 4 := by
  cases token with
  | number value =>
    cases h
    simp only [Parser.words, Parser.settledWords, wordsOf_append, operandOf, wordsOf_singleton,
      StackOperand.words, Token.pendingWords, Token.brackets]
    omega
  | comma =>
    obtain ⟨⟨value, rest, poliz'⟩, hpop, hq⟩ := Option.bind_eq_some_iff.mp h
    have hwords := popToBracket_words hpop
    have hbracket := bracket_words value
    cases hq
    simp only [Parser.words, Parser.settledWords, stackWords_cons, Token.words, operandOf,
      wordsOf_nil, Token.pendingWords, Token.brackets]
    omega
  | openBracket value =>
    cases h
    simp only [Parser.words, Parser.settledWords, stackWords_cons, Token.words, operandOf,
      wordsOf_nil, Token.pendingWords, Token.brackets]
    omega
  | closeBracket =>
    obtain ⟨⟨value, rest, poliz'⟩, hpop, hq⟩ := Option.bind_eq_some_iff.mp h
    have hwords := popToBracket_words hpop
    simp only at hq
    split at hq
    · cases hq
    · cases hq
      simp only [Parser.words, Parser.settledWords, stackWords_cons, wordsOf_append, Token.words,
        operandOf, wordsOf_singleton, StackOperand.words, Token.pendingWords,
        Token.brackets] at hwords ⊢
      omega
    · cases hq
      simp only [Parser.words, Parser.settledWords, Token.pendingWords, Token.brackets]
      omega
  | operation sym =>
    rw [Parser.readStep] at h
    split_ifs at h with hminus
    · cases h
      simp only [Parser.words, Parser.settledWords, Token.pendingWords, Token.brackets]
      omega
    · obtain ⟨⟨rest, poliz'⟩, hpop, hq⟩ := Option.bind_eq_some_iff.mp h
      have hwords := popOperations_words hpop
      cases hq
      simp only [Parser.words, Parser.settledWords, stackWords_cons, Token.words, operandOf,
        wordsOf_singleton, StackOperand.words, Token.pendingWords, Token.brackets]
      omega
  | _ =>
    cases h
    simp only [Parser.words, Parser.settledWords, Token.pendingWords, Token.brackets]
    omega

theorem run_words {p q : Parser} {tokens : List Token} (h : p.run tokens = some q) :
    q.words ≤ p.words + 4 * tokens.length := by
  induction tokens generalizing p with
  | nil =>
    cases h
    exact le_rfl
  | cons token tokens ih =>
    obtain ⟨r, hstep, hrun⟩ := Option.bind_eq_some_iff.mp h
    have hresolve := resolveName_words p token
    have hread := readStep_words hstep
    have hrest := ih hrun
    rw [List.length_cons]
    omega

theorem readTokens_length_le (fuel : ℕ) (cs : List Char) :
    (readTokens fuel cs).length ≤ fuel := by
  induction fuel generalizing cs with
  | zero => exact le_rfl
  | succ fuel ih =>
    cases cs with
    | nil => exact Nat.zero_le _
    | cons c cs =>
      obtain ⟨⟨token, rest⟩, hread⟩ : ∃ result, readToken (c :: cs) = result := ⟨_, rfl⟩
      rw [readTokens_step (List.cons_ne_nil c cs) hread, List.length_cons]
      exact Nat.succ_le_succ (ih rest)

/-- The entries of the postfix form take at most four words for each character of the text. -/
theorem fromInfixString_words {expression : List Char} {operands : List StackOperand}
    (h : fromInfixString expression = some operands) :
    wordsOf operands ≤ 4 * (expression.length + 1) := by
  rw [fromInfixString_eq] at h
  obtain ⟨p, hp, hall⟩ := Option.bind_eq_some_iff.mp h
  have hrun := run_words hp
  have hpop := popAll_words hall
  have htokens := readTokens_length_le (expression.length + 1) (expression ++ [' '])
  have hinit : Parser.init.words = 0 := rfl
  unfold Parser.words Parser.settledWords at hrun
  unfold tokensOf at hrun
  unfold Parser.words Parser.settledWords at hinit
  omega

end Parser

section Names
variable {isName : Name → Prop}

/-- The names that the entry uses are allowed. -/
def StackOperand.Uses (isName : Name → Prop) : StackOperand → Prop
  | .variable name => isName name
  | .function name _ => isName name
  | _ => True

def Token.Uses (isName : Name → Prop) : Token → Prop
  | .name word => isName word
  | .func word => isName word
  | .var word => isName word
  | _ => True

structure Parser.Uses (isName : Name → Prop) (p : Parser) : Prop where
  poliz : ∀ operand ∈ p.poliz, operand.Uses isName
  stack : ∀ token ∈ p.sorting_stack, token.Uses isName
  last : p.last_read_token.Uses isName

theorem operandOf_uses {token : Token} (h : token.Uses isName) (args_count : ℤ) :
    ∀ operand ∈ operandOf token args_count, operand.Uses isName := by
  cases token <;> simp [operandOf, StackOperand.Uses] <;> exact h

variable {stack rest : List Token} {poliz poliz' : List StackOperand} {value : ℤ}

theorem append_uses (token : Token) (hpoliz : ∀ operand ∈ poliz, operand.Uses isName)
    (htoken : token.Uses isName) (args_count : ℤ) :
    ∀ operand ∈ poliz ++ operandOf token args_count, operand.Uses isName :=
  List.forall_mem_append.mpr ⟨hpoliz, operandOf_uses htoken args_count⟩

theorem popToBracket_uses (hstack : ∀ token ∈ stack, token.Uses isName)
    (hpoliz : ∀ operand ∈ poliz, operand.Uses isName)
    (h : popToBracket stack poliz = some (value, rest, poliz')) :
    (∀ token ∈ rest, token.Uses isName) ∧ ∀ operand ∈ poliz', operand.Uses isName := by
  induction stack generalizing poliz with
  | nil => cases h
  | cons token stack ih =>
    rw [List.forall_mem_cons] at hstack
    cases token with
    | openBracket value' =>
      cases h
      exact ⟨hstack.2, hpoliz⟩
    | _ => exact ih hstack.2 (append_uses _ hpoliz hstack.1 0) h

theorem popOperations_uses {sym : Char} (hstack : ∀ token ∈ stack, token.Uses isName)
    (hpoliz : ∀ operand ∈ poliz, operand.Uses isName)
    (h : popOperations sym stack poliz = some (rest, poliz')) :
    (∀ token ∈ rest, token.Uses isName) ∧ ∀ operand ∈ poliz', operand.Uses isName := by
  induction stack generalizing poliz with
  | nil => cases h
  | cons token stack ih =>
    cases token with
    | operation top =>
      rw [popOperations] at h
      split_ifs at h with hpop
      · exact ih (List.forall_mem_cons.mp hstack).2
          (append_uses _ hpoliz (List.forall_mem_cons.mp hstack).1 0) h
      · cases h
        exact ⟨hstack, hpoliz⟩
    | _ =>
      cases h
      exact ⟨hstack, hpoliz⟩

theorem popAll_uses (hstack : ∀ token ∈ stack, token.Uses isName)
    (hpoliz : ∀ operand ∈ poliz, operand.Uses isName) (h : popAll stack poliz = some poliz') :
    ∀ operand ∈ poliz', operand.Uses isName := by
  induction stack generalizing poliz with
  | nil => cases h
  | cons token stack ih =>
    rw [List.forall_mem_cons] at hstack
    cases token with
    | undefined =>
      cases h
      exact hpoliz
    | _ => exact ih hstack.2 (append_uses _ hpoliz hstack.1 0) h

theorem resolveName_uses {p : Parser} (hp : p.Uses isName) (token : Token) :
    (p.resolveName token).Uses isName := by
  have hlast := hp.last
  unfold Parser.resolveName
  split
  · rename_i name value hname
    rw [hname] at hlast
    exact ⟨hp.poliz, List.forall_mem_cons.mpr ⟨hlast, hp.stack⟩, hlast⟩
  · rename_i name hname hopen
    rw [hname] at hlast
    exact ⟨append_uses (.var name) hp.poliz hlast 0, hp.stack, hlast⟩
  · exact hp

theorem readStep_uses {p q : Parser} (hp : p.Uses isName) {token : Token}
    (htoken : token.Uses isName) (h : p.readStep token = some q) : q.Uses isName := by
  cases token with
  | number value =>
    cases h
    exact ⟨append_uses (.number _) hp.poliz trivial 0, hp.stack, trivial⟩
  | comma =>
    obtain ⟨⟨value, rest, poliz'⟩, hpop, hq⟩ := Option.bind_eq_some_iff.mp h
    obtain ⟨hrest, hpoliz⟩ := popToBracket_uses hp.stack hp.poliz hpop
    cases hq
    exact ⟨hpoliz, List.forall_mem_cons.mpr ⟨trivial, hrest⟩, trivial⟩
  | openBracket value =>
    cases h
    exact ⟨hp.poliz, List.forall_mem_cons.mpr ⟨trivial, hp.stack⟩, trivial⟩
  | closeBracket =>
    obtain ⟨⟨value, rest, poliz'⟩, hpop, hq⟩ := Option.bind_eq_some_iff.mp h
    obtain ⟨hrest, hpoliz⟩ := popToBracket_uses hp.stack hp.poliz hpop
    simp only at hq
    split at hq
    · cases hq
    · cases hq
      rw [List.forall_mem_cons] at hrest
      exact ⟨append_uses _ hpoliz hrest.1 value, hrest.2, trivial⟩
    · cases hq
      exact ⟨hpoliz, hrest, trivial⟩
  | operation sym =>
    rw [Parser.readStep] at h
    split_ifs at h with hminus
    · cases h
      exact ⟨hp.poliz, hp.stack, trivial⟩
    · obtain ⟨⟨rest, poliz'⟩, hpop, hq⟩ := Option.bind_eq_some_iff.mp h
      obtain ⟨hrest, hpoliz⟩ := popOperations_uses hp.stack hp.poliz hpop
      cases hq
      exact ⟨hpoliz, List.forall_mem_cons.mpr ⟨trivial, hrest⟩, trivial⟩
  | _ =>
    cases h
    exact ⟨hp.poliz, hp.stack, htoken⟩

theorem run_uses {p q : Parser} {tokens : List Token} (hp : p.Uses isName)
    (htokens : ∀ token ∈ tokens, token.Uses isName) (h : p.run tokens = some q) :
    q.Uses isName := by
  induction tokens generalizing p with
  | nil =>
    cases h
    exact hp
  | cons token tokens ih =>
    rw [List.forall_mem_cons] at htokens
    obtain ⟨r, hstep, hrun⟩ := Option.bind_eq_some_iff.mp h
    exact ih (readStep_uses (resolveName_uses hp token) htokens.1 hstep) htokens.2 hrun

/-- The names of the postfix form are those of the text. -/
theorem fromInfixString_uses {expression : List Char} {operands : List StackOperand}
    (htokens : ∀ token ∈ tokensOf expression, token.Uses isName)
    (h : fromInfixString expression = some operands) :
    ∀ operand ∈ operands, operand.Uses isName := by
  rw [fromInfixString_eq] at h
  obtain ⟨p, hp, hall⟩ := Option.bind_eq_some_iff.mp h
  have hinit : Parser.init.Uses isName :=
    ⟨by simp [Parser.init], by simp [Parser.init, Token.Uses], trivial⟩
  have huses := run_uses hinit htokens hp
  exact popAll_uses huses.stack huses.poliz hall

end Names

section Buffer
variable {g : Generator} {externs : List Symbol} {name : Name} {pointer : Word}

/-- The words of commands and data. -/
def Generator.words (g : Generator) : ℕ := g.program_commands.length + g.data_section.length

theorem processStackOperand_words (g : Generator) (operand : StackOperand) :
    (g.processStackOperand operand).words ≤ g.words + operand.words := by
  unfold Generator.words
  match operand with
  | .constant value =>
    simp only [Generator.processStackOperand_constant, Generator.pushCommands, List.length_append,
      List.length_cons, List.length_nil, StackOperand.words]
    omega
  | .variable name =>
    simp only [Generator.processStackOperand_variable, Generator.pushCommands, List.length_append,
      List.length_cons, List.length_nil, StackOperand.words]
    omega
  | .function name n_arguments =>
    simp only [Generator.processStackOperand, Generator.pushCommands, List.length_append,
      List.length_cons, List.length_nil, Generator.length_popArguments, StackOperand.words]
    omega
  | .mathOperator sym =>
    simp only [Generator.processStackOperand, StackOperand.words]
    split <;> simp only [Generator.pushCommands, List.length_append, List.length_cons,
      List.length_nil] <;> omega

theorem processStackOperands_words (g : Generator) (operands : List StackOperand) :
    (g.processStackOperands operands).words ≤ g.words + wordsOf operands := by
  induction operands generalizing g with
  | nil => exact le_rfl
  | cons operand operands ih =>
    have hfirst := processStackOperand_words g operand
    have hrest := ih (g.processStackOperand operand)
    have hsum : wordsOf (operand :: operands) = operand.words + wordsOf operands :=
      List.sum_cons
    rw [Generator.processStackOperands, hsum]
    omega

/-- Four commands stand around those of the operands, and each extern has a data word. -/
theorem compile_words (operands : List StackOperand) (externs : List Symbol) :
    (compile operands externs).words ≤ externs.length + 4 + wordsOf operands := by
  have hbody := processStackOperands_words
    ((Generator.init.setSymbols externs).pushCommands [pushR4Lr]) operands
  have hstart : ((Generator.init.setSymbols externs).pushCommands [pushR4Lr]).words =
      externs.length + 1 := by
    simp only [Generator.words, Generator.pushCommands, Generator.setSymbols_commands,
      Generator.setSymbols_data, Generator.init, List.nil_append, List.length_map,
      List.length_cons, List.length_nil]
    omega
  have hend : (compile operands externs).words =
      (((Generator.init.setSymbols externs).pushCommands [pushR4Lr]).processStackOperands
        operands).words + 3 := by
    simp only [compile, Generator.generateMachineCommands, Generator.words, Generator.pushCommands,
      List.length_append, List.length_cons, List.length_nil]
    omega
  omega

/-- Command `k` is `ldr` of register `t` relative to `r15`, and its offset leads to the data word
that holds `v`. -/
def LoadsWord (g : Generator) (k t : ℕ) (v : Word) : Prop :=
  ∃ w j offset, g.program_commands[k]? = some w ∧
    w.toNat = 0xe59f0000 + 0x1000 * t + offset ∧ offset < 4096 ∧
    g.data_section[j]? = some v ∧ 4 * k + 8 + offset + 4 * (j + 1) = 4096

/-- Command `k` loads what the operand stands for. -/
def LoadsFor (g : Generator) (externs : List Symbol) (k : ℕ) : StackOperand → Prop
  | .constant value => LoadsWord g k 0 (BitVec.ofInt 32 value)
  | .variable name | .function name _ =>
    ∃ pointer, symbolAddress externs name = some pointer ∧ LoadsWord g k 4 pointer
  | .mathOperator _ => False

def Command.IsLoad : Command → Prop
  | .loadConstant _ | .loadShiftedAddr _ => True
  | _ => False

/-- The generator when it comes to the operand after those of `before`. -/
def generatorAt (externs : List Symbol) (before : List StackOperand) : Generator :=
  ((Generator.init.setSymbols externs).pushCommands [pushR4Lr]).processStackOperands before

/-- Every load that is emitted for an operand finds its word. -/
def LoadsInPlace (operands : List StackOperand) (externs : List Symbol) : Prop :=
  ∀ before operand after, operands = before ++ operand :: after →
    ∀ (i : ℕ) (command : Command),
      ((generatorAt externs before).commandsOf operand)[i]? = some command → command.IsLoad →
      LoadsFor (compile operands externs) externs
        ((generatorAt externs before).program_commands.length + i) operand

variable {operands before after : List StackOperand} {operand : StackOperand}

theorem processStackOperands_append (g : Generator) (operands operands' : List StackOperand) :
    g.processStackOperands (operands ++ operands') =
      (g.processStackOperands operands).processStackOperands operands' := by
  induction operands generalizing g with
  | nil => rfl
  | cons operand operands ih => exact ih _

theorem compile_le (externs : List Symbol) (before after : List StackOperand)
    (operand : StackOperand) :
    ((generatorAt externs before).processStackOperand operand).Le
      (compile (before ++ operand :: after) externs) := by
  have hbody : generatorAt externs (before ++ operand :: after) =
      ((generatorAt externs before).processStackOperand operand).processStackOperands after :=
    processStackOperands_append _ before (operand :: after)
  have hrest := Generator.Le.processStackOperands
    ((generatorAt externs before).processStackOperand operand) after
  rw [← hbody] at hrest
  exact hrest.trans (Generator.Le.pushCommands _ _)

/-- Three commands come after those of the operands. -/
theorem compile_length (externs : List Symbol) (before after : List StackOperand)
    (operand : StackOperand) :
    ((generatorAt externs before).processStackOperand operand).program_commands.length + 3 ≤
      (compile (before ++ operand :: after) externs).program_commands.length := by
  have hbody : generatorAt externs (before ++ operand :: after) =
      ((generatorAt externs before).processStackOperand operand).processStackOperands after :=
    processStackOperands_append _ before (operand :: after)
  have hrest := (Generator.Le.processStackOperands
    ((generatorAt externs before).processStackOperand operand) after).commands
  rw [← hbody] at hrest
  have hlength := List.IsPrefix.length_le hrest
  have hend : (compile (before ++ operand :: after) externs).program_commands =
      (generatorAt externs (before ++ operand :: after)).program_commands ++
        [popR 0, popR4Lr, cmdExit] := rfl
  rw [hend, List.length_append, List.length_cons, List.length_cons, List.length_singleton]
  omega

/-- A command of an operand is a word of the program. -/
theorem compile_command (after : List StackOperand) {i : ℕ} {command : Command}
    (h : ((generatorAt externs before).commandsOf operand)[i]? = some command) :
    (compile (before ++ operand :: after) externs).program_commands[
        (generatorAt externs before).program_commands.length + i]? = some command.word ∧
      (generatorAt externs before).program_commands.length + i + 4 ≤
        (compile (before ++ operand :: after) externs).program_commands.length := by
  obtain ⟨rest, hrest⟩ := (compile_le externs before after operand).commands
  have hlength := compile_length externs before after operand
  have hi := (List.getElem?_eq_some_iff.mp h).1
  rw [commandsOf_word] at hrest hlength
  rw [List.length_append, List.length_map] at hlength
  refine ⟨?_, by omega⟩
  rw [← hrest, List.append_assoc, List.getElem?_append_right (Nat.le_add_right _ _),
    Nat.add_sub_cancel_left, List.getElem?_append_left (by simpa using hi), List.getElem?_map, h]
  rfl

theorem compile_data {j : ℕ} {w : Word}
    (h : ((generatorAt externs before).processStackOperand operand).data_section[j]? = some w) :
    (compile (before ++ operand :: after) externs).data_section[j]? = some w := by
  obtain ⟨rest, hrest⟩ := (compile_le externs before after operand).data
  rw [← hrest, List.getElem?_append_left (List.getElem?_eq_some_iff.mp h).1]
  exact h

theorem loadsWord_of {g : Generator} {k t j : ℕ} {w v : Word} (hfits : g.words ≤ 1024)
    (hk : k + 4 ≤ g.program_commands.length) (hw : g.program_commands[k]? = some w)
    (hdata : g.data_section[j]? = some v)
    (hword : k + 2 + (j + 1) ≤ 1024 →
      w.toNat = 0xe59f0000 + 0x1000 * t + (4096 - 4 * (j + 1) - 4 * k - 8)) :
    LoadsWord g k t v := by
  have hj := (List.getElem?_eq_some_iff.mp hdata).1
  unfold Generator.words at hfits
  exact ⟨w, j, _, hw, hword (by omega), by omega, hdata, by omega⟩

theorem loadsWord_constant {value : ℤ} {i : ℕ} {command : Command}
    (hfits : (compile (before ++ .constant value :: after) externs).words ≤ 1024)
    (h : ((generatorAt externs before).commandsOf (.constant value))[i]? = some command)
    (hload : command.IsLoad) :
    LoadsWord (compile (before ++ .constant value :: after) externs)
      ((generatorAt externs before).program_commands.length + i) 0 (BitVec.ofInt 32 value) := by
  obtain ⟨hword, hlength⟩ := compile_command after h
  have hdata : ((generatorAt externs before).processStackOperand (.constant value)).data_section[
      (generatorAt externs before).data_section.length]? = some (BitVec.ofInt 32 value) := by
    rw [Generator.processStackOperand_constant]
    exact List.getElem?_concat_length
  match i, h with
  | 0, h =>
    cases h
    exact loadsWord_of hfits hlength hword (compile_data hdata) loadConstant_toNat
  | 1, h =>
    cases h
    exact hload.elim

/-- A load of a pointer `i` commands after the first one of its operand. -/
theorem loadsWord_pointer {g : Generator} {i : ℕ}
    (hfits : (compile (before ++ operand :: after) externs).words ≤ 1024)
    (hpointer : symbolAddress externs name = some pointer)
    (hg : g.program_commands.length = (generatorAt externs before).program_commands.length + i)
    (h : ((generatorAt externs before).commandsOf operand)[i]? = some
      (.loadShiftedAddr (g.shiftTo ((generatorAt externs before).symbols_ptr name)))) :
    LoadsWord (compile (before ++ operand :: after) externs)
      ((generatorAt externs before).program_commands.length + i) 4 pointer := by
  obtain ⟨hword, hlength⟩ := compile_command after h
  have hstart : (Generator.init.setSymbols externs).Le (generatorAt externs before) :=
    (Generator.Le.pushCommands _ _).trans (Generator.Le.processStackOperands _ _)
  obtain ⟨j, hshift, hdata⟩ := (Generator.setSymbols_symbolAddress (g := .init) hpointer).of_le
    (hstart.trans (.processStackOperand _ operand))
  rw [(Generator.Le.processStackOperand _ operand).symbols] at hshift
  rw [hshift, Generator.shiftTo, hg] at hword
  exact loadsWord_of hfits hlength hword (compile_data hdata) loadShiftedAddr_toNat

theorem not_isLoad_popCommands {n : ℕ} {command : Command} (h : command ∈ popCommands n) :
    ¬ command.IsLoad := by
  induction n with
  | zero => cases h
  | succ n ih =>
    rcases List.mem_cons.mp h with rfl | h
    · exact id
    · exact ih h

theorem not_isLoad_mathOperator {sym : Char} {command : Command}
    (h : command ∈ g.commandsOf (.mathOperator sym)) : ¬ command.IsLoad := by
  have hmath : ∀ command ∈ mathCommands sym, ¬ command.IsLoad := by
    unfold mathCommands
    split <;> simp [Command.IsLoad]
  simp only [Generator.commandsOf, List.mem_append, List.mem_cons, List.not_mem_nil,
    or_false] at h
  rcases h with ((rfl | rfl) | h) | rfl
  · exact id
  · exact id
  · exact hmath _ h
  · exact id

theorem length_popCommands (n : ℕ) : (popCommands n).length = n := by
  have hword := congrArg List.length (popCommands_word n)
  rwa [List.length_map, Generator.length_popArguments] at hword

theorem loadsWord_function {n_arguments : ℤ} {i : ℕ} {command : Command}
    (hfits : (compile (before ++ .function name n_arguments :: after) externs).words ≤ 1024)
    (hpointer : symbolAddress externs name = some pointer)
    (h : ((generatorAt externs before).commandsOf (.function name n_arguments))[i]? = some command)
    (hload : command.IsLoad) :
    LoadsWord (compile (before ++ .function name n_arguments :: after) externs)
      ((generatorAt externs before).program_commands.length + i) 4 pointer := by
  have hpops := length_popCommands n_arguments.toNat
  have hsplit := h
  rw [Generator.commandsOf] at hsplit
  by_cases hi : i < n_arguments.toNat
  · rw [List.getElem?_append_left (by omega)] at hsplit
    exact absurd hload (not_isLoad_popCommands (List.mem_of_getElem? hsplit))
  · obtain ⟨m, rfl⟩ := Nat.exists_eq_add_of_le (Nat.le_of_not_lt hi)
    rw [List.getElem?_append_right (by omega), hpops, Nat.add_sub_cancel_left] at hsplit
    rcases m with _ | m
    · cases hsplit
      apply loadsWord_pointer hfits hpointer ?_ h
      simp [Generator.pushCommands, Generator.length_popArguments]
    · -- None of the commands after the first loads a word.
      rcases m with _ | _ | _ | _ | m <;> cases hsplit <;> exact hload.elim

/-- Where commands and data fit the buffer and the names are in the table, every load finds its
word. -/
theorem loadsInPlace_of_fits (hfits : (compile operands externs).words ≤ 1024)
    (huses : ∀ operand ∈ operands, operand.Uses (· ∈ externs.map Symbol.name)) :
    LoadsInPlace operands externs := by
  rintro before operand after rfl i command h hload
  have huse := huses operand (by simp)
  match operand, h with
  | .constant value, h => exact loadsWord_constant hfits h hload
  | .variable name, h =>
    obtain ⟨pointer, hpointer⟩ :=
      Option.isSome_iff_exists.mp ((symbolAddress_isSome_iff externs name).mpr huse)
    match i, h with
    | 0, h => exact ⟨pointer, hpointer, loadsWord_pointer hfits hpointer rfl rfl⟩
    | 1, h =>
      cases h
      exact hload.elim
    | 2, h =>
      cases h
      exact hload.elim
  | .function name n_arguments, h =>
    obtain ⟨pointer, hpointer⟩ :=
      Option.isSome_iff_exists.mp ((symbolAddress_isSome_iff externs name).mpr huse)
    exact ⟨pointer, hpointer, loadsWord_function hfits hpointer h hload⟩
  | .mathOperator sym, h => exact not_isLoad_mathOperator (List.mem_of_getElem? h) hload

end Buffer

section Main
variable {expression : List Char} {externs : List Symbol}

/-- Of a text of at most a hundred characters, the names of which are among at most a hundred
externs, the commands and the data words fit the buffer, and every load finds its word. -/
theorem jit_compile_room (henclosed : Enclosed expression) (hlength : expression.length ≤ 100)
    (hexterns : externs.length ≤ 100)
    (hnames : ∀ token ∈ tokensOf expression, token.Uses (· ∈ externs.map Symbol.name)) :
    ∃ operands, fromInfixString expression = some operands ∧
      4 * (compile operands externs).words ≤ 4096 ∧ LoadsInPlace operands externs := by
  obtain ⟨operands, hparse⟩ := fromInfixString_of_enclosed henclosed
  have hwords := compile_words operands externs
  have htext := fromInfixString_words hparse
  have hfits : (compile operands externs).words ≤ 1024 := by omega
  exact ⟨operands, hparse, by omega,
    loadsInPlace_of_fits hfits (fromInfixString_uses hnames hparse)⟩

theorem jit_compile_room_sample : ∃ operands, fromInfixString sampleText = some operands ∧
    4 * (compile operands sampleExterns).words ≤ 4096 ∧ LoadsInPlace operands sampleExterns := by
  apply jit_compile_room (by decide) (by decide) (by decide)
  have htokens : tokensOf sampleText = [.name ['f'], .openBracket 0, .name ['x'], .closeBracket,
      .operation '-', .number 7, .undefined] := by decide
  rw [htokens]
  simp [Token.Uses, sampleExterns]

/-- The text of an expression is one of those that the theorem is about. -/
theorem enclosed_of_text {e : Expr} (h : IsAnyText Lexable e expression) : Enclosed expression := by
  by_contra hnot
  have hparse := fromInfixString_any h
  rw [fromInfixString_eq, run_of_not_enclosed hnot] at hparse
  cases hparse

/-- For the variable `x_` the compiler emits a load of `x`, which no data word is kept for. -/
theorem jit_compile_room_underscore : ¬ ∀ (e : Expr) (expression : List Char)
    (externs : List Symbol),
    IsText (fun name => Identifier name ∧ name ∈ externs.map Symbol.name) e expression →
    expression.length ≤ 100 → externs.length ≤ 100 →
    ∃ operands, fromInfixString expression = some operands ∧
      4 * (compile operands externs).words ≤ 4096 ∧ LoadsInPlace operands externs := by
  intro hall
  have hname : Renders (fun name => Identifier name ∧ name ∈ underscoreExterns.map Symbol.name) 1
      [.var ['x', '_']] [.name ['x', '_']] :=
    .var ⟨⟨by decide, by simp⟩, by simp [underscoreExterns]⟩
  obtain ⟨operands, hparse, -, hloads⟩ := hall (.var ['x', '_']) ['x', '_'] underscoreExterns
    ⟨_, hname, @spells_token _ _ ['x', '_'] [] rfl (.nil (by simp))⟩ (by decide) (by decide)
  rw [underscore_parsed] at hparse
  cases hparse
  obtain ⟨pointer, hpointer, -⟩ := hloads [] (.variable ['x']) [] rfl 0 _ rfl trivial
  have hnone : symbolAddress underscoreExterns ['x'] = none := by decide
  rw [hnone] at hpointer
  cases hpointer

end Main

end Acos.JitCompile
