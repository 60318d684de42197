import Acos.JitCompile.Parser
import Acos.Lib.Arm

/-! `ExpressionFuncGenerator` of `asm-arm_codegen_compileexpr-1/jit_compile_arm.cpp`: commands for
a postfix expression from the start of the buffer, and the words that they load from its end. -/
namespace Acos.JitCompile
open Acos.Arm

def PROGRAM_BUFFER_SIZE : Word := 0x1000
def WORD_SIZE : Word := 0x4

def cmdAdd : Word := 0xe0810002
def cmdSub : Word := 0xe0410002
def cmdMul : Word := 0xe0000291
def pushR0 : Word := 0xe52d0004
def pushR4Lr : Word := 0xe92d4010
def popR4Lr : Word := 0xe8bd4010
def popR (r_num : Word) : Word := 0xe49d0004 + 0x1000 * r_num
def loadConstant (shift : Word) : Word := 0xe59f0000 + shift - 2 * WORD_SIZE
def loadShiftedAddr (shift : Word) : Word := 0xe59f4000 + shift - 2 * WORD_SIZE
def loadR4 : Word := 0xe5940000
def gotoR4 : Word := 0xe1a0f004
def savePc : Word := 0xe1a0e00f
def incrementLr : Word := 0xe28ee004
def cmdExit : Word := 0xe12fff1e

/-- A `symbol_t`. The table ends where the source has a null name. -/
structure Symbol where
  name : Name
  pointer : Word
  deriving DecidableEq, Repr

/-- A name that is not in `symbols_ptr` reads as `0`, as `operator[]` of a `std::map` does. -/
structure Generator where
  symbols_ptr : Name → Word
  program_commands : List Word
  data_section : List Word

namespace Generator

def init : Generator := ⟨fun _ => 0, [], []⟩

def getNextDataWordShift (g : Generator) : Word :=
  PROGRAM_BUFFER_SIZE - WORD_SIZE * (BitVec.ofNat 32 g.data_section.length + 1)

def setSymbols (g : Generator) : List Symbol → Generator
  | [] => g
  | extern_ :: externs =>
    setSymbols ⟨Function.update g.symbols_ptr extern_.name g.getNextDataWordShift,
      g.program_commands, g.data_section ++ [extern_.pointer]⟩ externs

def pushCommands (g : Generator) (cmds : List Word) : Generator :=
  ⟨g.symbols_ptr, g.program_commands ++ cmds, g.data_section⟩

/-- The distance from the command that comes next to the word at `addr_shift`. -/
def shiftTo (g : Generator) (addr_shift : Word) : Word :=
  addr_shift - BitVec.ofNat 32 g.program_commands.length * WORD_SIZE

/-- `pop_r(n - 1)` down to `pop_r(0)`. -/
def popArguments : ℕ → List Word
  | 0 => []
  | n + 1 => popR (BitVec.ofNat 32 n) :: popArguments n

def processStackOperand (g : Generator) (operand : StackOperand) : Generator :=
  let g := match operand with
    | .constant value =>
      let addr_shift := g.getNextDataWordShift
      let g : Generator := ⟨g.symbols_ptr, g.program_commands,
        g.data_section ++ [BitVec.ofInt 32 value]⟩
      g.pushCommands [loadConstant (g.shiftTo addr_shift)]
    | .variable name =>
      (g.pushCommands [loadShiftedAddr (g.shiftTo (g.symbols_ptr name))]).pushCommands [loadR4]
    | .function name n_arguments =>
      let g := g.pushCommands (popArguments n_arguments.toNat)
      let g := g.pushCommands [loadShiftedAddr (g.shiftTo (g.symbols_ptr name))]
      g.pushCommands [savePc, incrementLr, gotoR4]
    | .mathOperator sym =>
      let g := g.pushCommands [popR 2, popR 1]
      match sym with
      | '*' => g.pushCommands [cmdMul]
      | '+' => g.pushCommands [cmdAdd]
      | '-' => g.pushCommands [cmdSub]
      | _ => g
  g.pushCommands [pushR0]

def processStackOperands (g : Generator) : List StackOperand → Generator
  | [] => g
  | operand :: operands => (g.processStackOperand operand).processStackOperands operands

def generateMachineCommands (g : Generator) (expression : List StackOperand) : Generator :=
  ((g.pushCommands [pushR4Lr]).processStackOperands expression).pushCommands
    [popR 0, popR4Lr, cmdExit]

end Generator

/-- Words at ascending addresses. -/
def writeUp (mem : Word → Word) (ptr : Word) : List Word → Word → Word
  | [] => mem
  | w :: ws => writeUp (Function.update mem ptr w) (ptr + 4) ws

/-- Words at descending addresses. -/
def writeDown (mem : Word → Word) (ptr : Word) : List Word → Word → Word
  | [] => mem
  | w :: ws => writeDown (Function.update mem ptr w) (ptr - 4) ws

def Generator.writeCommandsByPtr (g : Generator) (out_buffer : Word) (mem : Word → Word) :
    Word → Word :=
  writeDown (writeUp mem out_buffer g.program_commands)
    (out_buffer + PROGRAM_BUFFER_SIZE - WORD_SIZE) g.data_section

/-- The generator after all commands have been emitted. -/
def compile (expression : List StackOperand) (externs : List Symbol) : Generator :=
  (Generator.init.setSymbols externs).generateMachineCommands expression

/-- The memory after the call; `none` where the parser's behaviour is undefined. -/
def jitCompileExpressionToArm (expression : List Char) (externs : List Symbol)
    (out_buffer : Word) (mem : Word → Word) : Option (Word → Word) :=
  (fromInfixString expression).map fun polishStack =>
    (compile polishStack externs).writeCommandsByPtr out_buffer mem

end Acos.JitCompile
