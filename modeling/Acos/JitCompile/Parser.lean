import Acos.Lib.MachineInt

/-! `ReversePolishNotation` of `asm-arm_codegen_compileexpr-1/jit_compile_arm.cpp`: the reading of
tokens and the sorting station that puts them into postfix order. -/
namespace Acos.JitCompile
open Acos.MachineInt

/-- A `std::string` that names a variable or a function. -/
abbrev Name := List Char

/-- A `Token` with the fields that its type uses. -/
inductive Token where
  | openBracket (value : ℤ)
  | closeBracket
  | operation (sym : Char)
  | name (name : Name)
  | func (name : Name)
  | var (name : Name)
  | number (value : ℤ)
  | comma
  | undefined
  deriving DecidableEq, Repr

/-- A `StackOperand`, an entry of the postfix form. -/
inductive StackOperand where
  | constant (value : ℤ)
  | mathOperator (name : Char)
  | function (name : Name) (n_arguments : ℤ)
  | variable (name : Name)
  deriving DecidableEq, Repr

def isdigit (c : Char) : Bool := '0' ≤ c && c ≤ '9'

/-- `isalpha` in the C locale. -/
def isalpha (c : Char) : Bool := ('a' ≤ c && c ≤ 'z') || ('A' ≤ c && c ≤ 'Z')

def isalnum (c : Char) : Bool := isalpha c || isdigit c

/-- The name and the characters that are left. -/
def readName : List Char → Name × List Char
  | [] => ([], [])
  | c :: rest =>
    if isalnum c then
      let (name, rest) := readName rest
      (c :: name, rest)
    else ([], c :: rest)

/-- The loop of `ReadNumber`; `value` is an `int`. -/
def readNumber (value : ℤ) : List Char → ℤ × List Char
  | [] => (value, [])
  | c :: rest =>
    if isdigit c then readNumber (i32 (i32 (value * 10) + (c.toNat - '0'.toNat))) rest
    else (value, c :: rest)

/-- The next token and the characters that are left. White space and other characters are
skipped. -/
def readToken : List Char → Token × List Char
  | [] => (.undefined, [])
  | c :: rest =>
    if c = '+' ∨ c = '-' ∨ c = '*' then (.operation c, rest)
    else if c = '(' then (.openBracket 0, rest)
    else if c = ')' then (.closeBracket, rest)
    else if c = ',' then (.comma, rest)
    else if isdigit c then
      let (value, rest) := readNumber 0 (c :: rest)
      (.number value, rest)
    else if isalpha c then
      let (name, rest) := readName (c :: rest)
      (.name name, rest)
    else readToken rest

/-- The tokens read while characters are left, each of which takes at least one. -/
def readTokens : ℕ → List Char → List Token
  | 0, _ => []
  | _ + 1, [] => []
  | fuel + 1, c :: rest =>
    let (token, rest) := readToken (c :: rest)
    token :: readTokens fuel rest

/-- What `PushTokenToPoliz` appends. -/
def operandOf (token : Token) (args_count : ℤ) : List StackOperand :=
  match token with
  | .number value => [.constant value]
  | .func name => [.function name (args_count % 2 ^ 8)]
  | .var name => [.variable name]
  | .operation sym => [.mathOperator sym]
  | _ => []

/-- The variables of `FromInfixString`; the head of `sorting_stack` is its top. -/
structure Parser where
  sorting_stack : List Token
  poliz : List StackOperand
  last_read_token : Token
  unary_minus : Bool
  args_count : ℤ
  deriving DecidableEq, Repr

def Parser.init : Parser where
  sorting_stack := [.undefined]
  poliz := []
  last_read_token := .undefined
  unary_minus := false
  args_count := 0

/-- The tokens above the first open bracket go to the postfix form; `none` where `top` is called
on an empty stack. -/
def popToBracket : List Token → List StackOperand → Option (ℤ × List Token × List StackOperand)
  | [], _ => none
  | .openBracket value :: stack, poliz => some (value, stack, poliz)
  | token :: stack, poliz => popToBracket stack (poliz ++ operandOf token 0)

/-- The operations that bind at least as tightly as `sym` go to the postfix form. -/
def popOperations (sym : Char) : List Token → List StackOperand →
    Option (List Token × List StackOperand)
  | [], _ => none
  | .operation top :: stack, poliz =>
    if sym ≠ '*' ∨ top = '*' then
      popOperations sym stack (poliz ++ operandOf (.operation top) 0)
    else some (.operation top :: stack, poliz)
  | token :: stack, poliz => some (token :: stack, poliz)

/-- The last loop of `FromInfixString`. -/
def popAll : List Token → List StackOperand → Option (List StackOperand)
  | [], _ => none
  | .undefined :: _, poliz => some poliz
  | token :: stack, poliz => popAll stack (poliz ++ operandOf token 0)

/-- A name is a function or a variable by the token after it. -/
def Parser.resolveName (p : Parser) (token : Token) : Parser :=
  match p.last_read_token, token with
  | .name name, .openBracket _ =>
    { p with last_read_token := .func name, sorting_stack := .func name :: p.sorting_stack }
  | .name name, _ =>
    { p with last_read_token := .var name, poliz := p.poliz ++ operandOf (.var name) 0 }
  | _, _ => p

/-- A minus after this token is unary. -/
def Token.beforeUnary : Token → Bool
  | .openBracket _ | .comma | .undefined | .operation _ => true
  | _ => false

/-- The `switch` of the loop, with the token that is remembered as the last one. -/
def Parser.readStep (p : Parser) (token : Token) : Option Parser :=
  match token with
  | .number value =>
    let value := if p.unary_minus then i32 (value * -1) else value
    some { p with
      poliz := p.poliz ++ operandOf (.number value) 0
      last_read_token := .number value
      unary_minus := false }
  | .comma => do
    let (value, stack, poliz) ← popToBracket p.sorting_stack p.poliz
    some { p with
      sorting_stack := .openBracket (i32 (value + 1)) :: stack
      poliz := poliz
      last_read_token := .comma }
  | .openBracket _ =>
    some { p with
      sorting_stack := .openBracket 1 :: p.sorting_stack
      last_read_token := .openBracket 1 }
  | .closeBracket => do
    let (value, stack, poliz) ← popToBracket p.sorting_stack p.poliz
    match stack with
    | [] => none
    | .func name :: stack =>
      some { p with
        sorting_stack := stack
        poliz := poliz ++ operandOf (.func name) value
        last_read_token := .closeBracket
        args_count := value }
    | stack =>
      some { p with
        sorting_stack := stack
        poliz := poliz
        last_read_token := .closeBracket
        args_count := value }
  | .operation sym =>
    if sym = '-' ∧ p.last_read_token.beforeUnary then
      some { p with unary_minus := true, last_read_token := .operation sym }
    else do
      let (stack, poliz) ← popOperations sym p.sorting_stack p.poliz
      some { p with
        sorting_stack := .operation sym :: stack
        poliz := poliz
        last_read_token := .operation sym }
  | token => some { p with last_read_token := token }

/-- One round of the loop of `FromInfixString`. -/
def Parser.step (p : Parser) (token : Token) : Option Parser := (p.resolveName token).readStep token

def Parser.run (p : Parser) : List Token → Option Parser
  | [] => some p
  | token :: tokens => (p.step token).bind fun p => p.run tokens

/-- `FromInfixString`; `none` where the behaviour of `std::stack` is undefined. -/
def fromInfixString (expression : List Char) : Option (List StackOperand) := do
  let expr_string := expression ++ [' ']
  let p ← Parser.init.run (readTokens expr_string.length expr_string)
  popAll p.sorting_stack p.poliz

example : fromInfixString "(1+a)*c + div(2+4,-2) + 3".toList = some
    [.constant 1, .variable ['a'], .mathOperator '+', .variable ['c'], .mathOperator '*',
      .constant 2, .constant 4, .mathOperator '+', .constant (-2), .function ['d', 'i', 'v'] 2,
      .mathOperator '+', .constant 3, .mathOperator '+'] := by
  decide

end Acos.JitCompile
