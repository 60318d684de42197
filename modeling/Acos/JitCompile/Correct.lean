import Acos.JitCompile.Execution
import Acos.JitCompile.ParserCorrect

/-! `jit_compile_expression_to_arm`: a call of the buffer returns the value of the expression. -/
namespace Acos.JitCompile
open Acos.Arm

/-- The words that stay as they are while the buffer runs: the buffer and the variables. -/
def Kept (env : Env) (externs : List Symbol) (buffer a : Word) : Prop :=
  (∃ i < 1024, a = up buffer i) ∨ ∃ name, (env.var name).isSome = true ∧ ⟨name, a⟩ ∈ externs

/-- The caller enters the buffer, which holds `code`. What `env` says of the names is true of their
pointers, and below the stack pointer `room` words lie apart from the buffer and the variables. -/
structure Invoked (routines : Routines) (env : Env) (externs : List Symbol) (buffer : Word)
    (code : Word → Word) (room : ℕ) (s : Cpu) : Prop where
  pc : s.pc = buffer
  aligned : Aligned buffer
  code : ∀ i < 1024, s.mem (up buffer i) = code (up buffer i) ∧ routines (up buffer i) = none
  lr : s.lr.toNat % 4 ≠ 2
  thumb : s.thumb = false
  sp : Aligned s.sp
  stack : ∀ i, 1 ≤ i → i ≤ room → ¬ Kept env externs buffer (down s.sp i)
  var : ∀ {name v}, env.var name = some v →
    ∃ pointer, ⟨name, pointer⟩ ∈ externs ∧ Aligned pointer ∧ s.mem pointer = v
  func : ∀ {name arity f}, env.func name = some (arity, f) → arity ≤ 4 ∧ ∃ pointer routine,
    ⟨name, pointer⟩ ∈ externs ∧ Aligned pointer ∧ routines pointer = some routine ∧
      Aapcs pointer s.sp room (Kept env externs buffer) arity f routine

/-- The commands and the data words fit the buffer. -/
def Fits (e : Expr) (externs : List Symbol) : Prop :=
  (compile e.rpn externs).program_commands.length +
    (compile e.rpn externs).data_section.length ≤ 1024

section Compile
variable {routines : Routines} {env : Env} {externs : List Symbol} {buffer : Word}
  {mem : Word → Word} {s : Cpu} {room : ℕ} {r4 : Word} {e : Expr}

/-- The place of a call. -/
def callSite (routines : Routines) (env : Env) (externs : List Symbol) (buffer : Word) (room : ℕ)
    (r4 : Word) (s : Cpu) : Site :=
  ⟨routines, buffer, s.sp, r4, s.lr, s.mem, Kept env externs buffer, room⟩

theorem Fits.length_rpn (h : Fits e externs) : e.rpn.length ≤ 1024 := by
  have hlength := Generator.length_generateMachineCommands (Generator.init.setSymbols externs) e.rpn
  unfold Fits at h
  have hcommands : e.rpn.length ≤ (compile e.rpn externs).program_commands.length := hlength
  omega

theorem Invoked.loaded (hfits : Fits e externs) (hroom : room < 2 ^ 29)
    (h : Invoked routines env externs buffer
      ((compile e.rpn externs).writeCommandsByPtr buffer mem) room s) :
    (callSite routines env externs buffer room r4 s).Loaded (compile e.rpn externs) where
  buffer := h.aligned
  sp := h.sp
  fits := hfits
  commands := by
    intro i w hw
    have hi := (List.getElem?_eq_some_iff.mp hw).1
    have hi1024 : i < 1024 := by
      unfold Fits at hfits
      omega
    refine ⟨?_, .inl ⟨i, hi1024, rfl⟩, (h.code i hi1024).2⟩
    exact (h.code i hi1024).1.trans (Generator.writeCommandsByPtr_command hfits hw)
  data := by
    intro j w hw
    have hj := (List.getElem?_eq_some_iff.mp hw).1
    have hj1024 : j + 1 ≤ 1024 := by
      unfold Fits at hfits
      omega
    have hword := @Generator.writeCommandsByPtr_data _ buffer mem _ _ hfits hw
    have hplace : down (buffer + PROGRAM_BUFFER_SIZE) (j + 1) = up buffer (1024 - (j + 1)) :=
      down_buffer hj1024
    have hlast : 1024 - (j + 1) < 1024 := by omega
    show s.mem (down (buffer + PROGRAM_BUFFER_SIZE) (j + 1)) = w ∧
      Kept env externs buffer (down (buffer + PROGRAM_BUFFER_SIZE) (j + 1))
    rw [hplace] at hword ⊢
    exact ⟨(h.code _ hlast).1.trans hword, .inl ⟨_, hlast, rfl⟩⟩
  free := h.stack
  room := hroom

theorem Invoked.declares (hdistinct : (externs.map Symbol.name).Nodup) {code : Word → Word}
    (h : Invoked routines env externs buffer code room s) :
    (callSite routines env externs buffer room r4 s).Declares (compile e.rpn externs) env where
  var := by
    intro name v hname
    obtain ⟨pointer, hmem, haligned, hvalue⟩ := h.var hname
    have hfinds := (@Generator.setSymbols_finds .init _ _ _ hdistinct hmem).of_le
      (Generator.Le.generateMachineCommands _ e.rpn)
    refine ⟨pointer, hfinds, haligned, .inr ⟨name, ?_, hmem⟩, hvalue⟩
    rw [hname]
    rfl
  func := by
    intro name arity f hname
    obtain ⟨harity, pointer, routine, hmem, haligned, hroutine, habi⟩ := h.func hname
    have hfinds := (@Generator.setSymbols_finds .init _ _ _ hdistinct hmem).of_le
      (Generator.Le.generateMachineCommands _ e.rpn)
    exact ⟨harity, pointer, routine, hfinds, haligned, hroutine, habi⟩

end Compile

/-- Of the text of an expression over declared names the compiler makes a program that returns the
value of the expression. -/
theorem jit_compile_expression_correct {e : Expr} {cs : List Char} {env : Env}
    {externs : List Symbol} {v : Word} (htext : IsText Lexable e cs) (hvalue : e.value env = some v)
    (hdistinct : (externs.map Symbol.name).Nodup) (hfits : Fits e externs) (buffer : Word)
    (mem : Word → Word) :
    ∃ code, jitCompileExpressionToArm cs externs buffer mem = some code ∧
      ∀ routines s, Invoked routines env externs buffer code (e.rpn.length + 2) s →
        Returns routines s v := by
  refine ⟨(compile e.rpn externs).writeCommandsByPtr buffer mem, ?_, ?_⟩
  · rw [jitCompileExpressionToArm, fromInfixString_text htext]
    rfl
  · intro routines s h
    have hentered :
        (callSite routines env externs buffer (e.rpn.length + 2) (s.reg 4) s).Entered s :=
      ⟨h.pc, rfl, rfl, rfl, fun _ _ => rfl, h.thumb⟩
    have hlength := hfits.length_rpn
    apply hentered.run (h.loaded hfits (by omega)) (Generator.setSymbols_commands _ _)
      (h.declares hdistinct)
      (evalOperands_rpn e [] hvalue) le_rfl h.lr

section Sample

def double (args : List Word) : Word := args.headD 0 + args.headD 0

def sampleEnv : Env where
  var := fun name => if name = ['x'] then some 5 else none
  func := fun name => if name = ['f'] then some (1, double) else none

def sampleExterns : List Symbol := [⟨['x'], 0x9000⟩, ⟨['f'], 0xa000⟩]

def sampleRoutines : Routines :=
  fun a => if a = 0xa000 then some (Cpu.computing 1 double) else none

def sampleMemory : Word → Word := fun a => if a = 0x9000 then 5 else 0

def sampleExpr : Expr := .binary .sub (.call ['f'] [.var ['x']]) (.literal false 7)

def sampleText : List Char := ['f', '(', 'x', ')', '-', '7']

def sampleCode : Word → Word :=
  (compile sampleExpr.rpn sampleExterns).writeCommandsByPtr 0x10000 sampleMemory

/-- A caller whose stack ends at `0x8000` and to which the code returns at `0x4000`. -/
def sampleCaller (code : Word → Word) : Cpu := Cpu.entering 0x10000 0x8000 0x4000 code

theorem sampleText_isText : IsText Lexable sampleExpr sampleText := by
  have hx : Renders Lexable 0 [.var ['x']] [.name ['x']] := .var ⟨by decide, by simp⟩
  have hcall : Renders Lexable 1 [.call ['f'] [.var ['x']]]
      [.name ['f'], .openBracket 0, .name ['x'], .closeBracket] :=
    .call ⟨by decide, by simp⟩ (by decide) hx
  have hseven : Renders Lexable 2 [.literal false 7] [.number 7] := .literal (by omega)
  refine ⟨_, .binary (by decide) hcall hseven, ?_⟩
  have hnumber : (Token.number 7).Spelled ['7'] := ⟨by simp, by simp [isdigit], rfl⟩
  have hend : Spells [.operation '-', .number 7] ['-', '7'] :=
    @spells_token _ _ ['-'] _ rfl (@spells_token _ _ ['7'] [] hnumber (.nil (by simp)))
  have hargument : Spells [.name ['x'], .closeBracket, .operation '-', .number 7]
      ['x', ')', '-', '7'] :=
    @spells_token _ _ ['x'] _ rfl (@spells_token _ _ [')'] _ rfl hend)
  exact @spells_token _ _ ['f'] _ rfl (@spells_token _ _ ['('] _ rfl hargument)

theorem sample_invoked : Invoked sampleRoutines sampleEnv sampleExterns 0x10000 sampleCode
    (sampleExpr.rpn.length + 2) (sampleCaller sampleCode) where
  pc := rfl
  aligned := by decide
  code := by
    intro i hi
    have hne : up 0x10000 i ≠ 0xa000 := by
      unfold up
      bv_omega
    exact ⟨rfl, if_neg hne⟩
  lr := by decide
  thumb := rfl
  sp := by decide
  stack := by
    intro i hlo hhi hkept
    have hroom : i ≤ 6 := hhi
    have hsp : (sampleCaller sampleCode).sp = 0x8000 := rfl
    rw [hsp] at hkept
    rcases hkept with ⟨j, hj, heq⟩ | ⟨name, -, hmem⟩
    · unfold up down at heq
      bv_omega
    · simp only [sampleExterns, List.mem_cons, Symbol.mk.injEq, List.not_mem_nil, or_false] at hmem
      unfold down at hmem
      rcases hmem with ⟨-, heq⟩ | ⟨-, heq⟩ <;> bv_omega
  var := by
    intro name v hname
    have hcase : name = ['x'] ∧ 5 = v := by simpa [sampleEnv] using hname
    refine ⟨0x9000, by simp [sampleExterns, hcase.1], by decide, ?_⟩
    rw [← hcase.2]
    decide +kernel
  func := by
    intro name arity f hname
    have hcase : name = ['f'] ∧ 1 = arity ∧ double = f := by
      simpa [sampleEnv] using hname
    obtain ⟨rfl, rfl, rfl⟩ := hcase
    exact ⟨by decide, 0xa000, Cpu.computing 1 double, by simp [sampleExterns], by decide, rfl,
      computing_aapcs _ _ _ _ _ _⟩

/-- The program for `f(x)-7` returns `3` where `f` doubles its argument and `x` is `5`. -/
theorem jit_compile_expression_sample :
    Returns sampleRoutines (sampleCaller sampleCode) 3 := by
  obtain ⟨code, hcode, hreturns⟩ := @jit_compile_expression_correct _ _ sampleEnv sampleExterns 3
    sampleText_isText rfl (by decide) (by unfold Fits; decide) 0x10000 sampleMemory
  have hsame : sampleCode = code := by
    rw [jitCompileExpressionToArm, fromInfixString_text sampleText_isText] at hcode
    exact Option.some.inj hcode
  rw [← hsame] at hreturns
  exact hreturns _ _ sample_invoked

end Sample

/-- The identifiers of C. -/
def Identifier : Name → Prop
  | [] => False
  | c :: rest => (isalpha c = true ∨ c = '_') ∧ ∀ d ∈ rest, isalnum d = true ∨ d = '_'

section Underscore

def underscoreEnv : Env where
  var := fun name => if name = ['x', '_'] then some 5 else none
  func := fun _ => none

def underscoreExterns : List Symbol := [⟨['x', '_'], 0x9000⟩]

def underscoreCode : Word → Word :=
  (compile [.variable ['x']] underscoreExterns).writeCommandsByPtr 0x10000 sampleMemory

theorem underscoreText_isText : IsText Identifier (.var ['x', '_']) ['x', '_'] := by
  have hname : Renders Identifier 1 [.var ['x', '_']] [.name ['x', '_']] :=
    .var ⟨by decide, by simp⟩
  exact ⟨_, hname, @spells_token _ _ ['x', '_'] [] rfl (.nil (by simp))⟩

theorem underscore_parsed : fromInfixString ['x', '_'] = some [.variable ['x']] := by
  decide

theorem underscoreCode_compiled :
    jitCompileExpressionToArm ['x', '_'] underscoreExterns 0x10000 sampleMemory =
      some underscoreCode := by
  rw [jitCompileExpressionToArm, underscore_parsed]
  rfl

theorem underscore_invoked : Invoked (fun _ => none) underscoreEnv underscoreExterns 0x10000
    underscoreCode ((Expr.var ['x', '_']).rpn.length + 2) (sampleCaller underscoreCode) where
  pc := rfl
  aligned := by decide
  code := fun _ _ => ⟨rfl, rfl⟩
  lr := by decide
  thumb := rfl
  sp := by decide
  stack := by
    intro i hlo hhi hkept
    have hroom : i ≤ 3 := hhi
    have hsp : (sampleCaller underscoreCode).sp = 0x8000 := rfl
    rw [hsp] at hkept
    rcases hkept with ⟨j, hj, heq⟩ | ⟨name, -, hmem⟩
    · unfold up down at heq
      bv_omega
    · simp only [underscoreExterns, List.mem_singleton, Symbol.mk.injEq] at hmem
      have heq := hmem.2
      unfold down at heq
      bv_omega
  var := by
    intro name v hname
    have hcase : name = ['x', '_'] ∧ 5 = v := by simpa [underscoreEnv] using hname
    refine ⟨0x9000, by simp [underscoreExterns, hcase.1], by decide, ?_⟩
    rw [← hcase.2]
    decide +kernel
  func := by
    intro name arity f hname
    cases hname

/-- The compiler drops the underscore of the name `x_`: the program returns `0`, not the contents
of the variable. -/
theorem jit_compile_underscore : ¬ ∀ (e : Expr) (cs : List Char) (env : Env)
    (externs : List Symbol) (v : Word), IsText Identifier e cs → e.value env = some v →
    (externs.map Symbol.name).Nodup → Fits e externs → ∀ (buffer : Word) (mem : Word → Word),
    ∃ code, jitCompileExpressionToArm cs externs buffer mem = some code ∧
      ∀ routines s, Invoked routines env externs buffer code (e.rpn.length + 2) s →
        Returns routines s v := by
  intro hall
  obtain ⟨code, hcode, hreturns⟩ := hall _ _ underscoreEnv underscoreExterns 5
    underscoreText_isText rfl (by decide) (by unfold Fits; decide) 0x10000 sampleMemory
  have hsame : underscoreCode = code := by
    rw [underscoreCode_compiled] at hcode
    exact Option.some.inj hcode
  rw [← hsame] at hreturns
  obtain ⟨t, hsteps, hreturned, hvalue, -⟩ := hreturns _ _ underscore_invoked
  obtain ⟨n, hn⟩ := hsteps.exists_run
  have hpc : t.pc = 0x4000 := hreturned.1
  have hend : (run (fun _ => none) 8 (sampleCaller underscoreCode)).isNone = true := by
    decide +kernel
  have hzero : ∀ m < 8, (run (fun _ => none) m (sampleCaller underscoreCode)).all
      (fun t => t.pc ≠ 0x4000 || t.reg 0 = 0) = true := by
    decide +kernel
  have hlast : n < 8 := by
    by_contra hge
    rw [run_none_of_le (by omega) (Option.isNone_iff_eq_none.mp hend)] at hn
    cases hn
  have hresult := hzero n hlast
  rw [hn] at hresult
  simp [hvalue] at hresult
  exact hresult hpc

/-- Of the tokens and the text of an expression `FromInfixString` gives exactly the postorder. -/
theorem from_infix_string_postorder {e : Expr} {tokens : List Token} {cs : List Char}
    (hrender : Renders Lexable 1 [e] tokens) (hspell : Spells tokens cs) :
    fromInfixString cs = some e.rpn :=
  fromInfixString_text ⟨tokens, hrender, hspell⟩

theorem from_infix_string_sample : fromInfixString sampleText = some sampleExpr.rpn := by
  obtain ⟨tokens, hrender, hspell⟩ := sampleText_isText
  exact from_infix_string_postorder hrender hspell

/-- The variable `x_` is read as `x`. -/
theorem from_infix_string_underscore : ¬ ∀ (e : Expr) (cs : List Char),
    IsText Identifier e cs → fromInfixString cs = some e.rpn := by
  intro hall
  have hparse := hall _ _ underscoreText_isText
  rw [underscore_parsed] at hparse
  exact absurd hparse (by simp [Expr.rpn])

end Underscore

end Acos.JitCompile
