import Acos.JitCompile.Parser
import Mathlib.Order.Basic

/-! The expressions of the compiler: their trees, the tokens and texts that stand for them, and
their postfix form. -/
namespace Acos.JitCompile

inductive Operator where
  | add
  | sub
  | mul
  deriving DecidableEq, Repr

def Operator.sym : Operator → Char
  | .add => '+'
  | .sub => '-'
  | .mul => '*'

/-- A literal may have a minus directly before it. -/
inductive Expr where
  | literal (minus : Bool) (n : ℕ)
  | var (name : Name)
  | binary (op : Operator) (left right : Expr)
  | call (name : Name) (args : List Expr)

/-- How tightly an operation binds; `0` is for the commas between arguments. -/
def symPrec (sym : Char) : ℕ := if sym = '*' then 2 else 1

def Operator.prec (op : Operator) : ℕ := symPrec op.sym

mutual

/-- The postorder of a tree. -/
def Expr.rpn : Expr → List StackOperand
  | .literal minus n => [.constant (if minus then -n else n)]
  | .var name => [.variable name]
  | .binary op left right => left.rpn ++ right.rpn ++ [.mathOperator op.sym]
  | .call name args => rpnList args ++ [.function name args.length]

def rpnList : List Expr → List StackOperand
  | [] => []
  | e :: es => e.rpn ++ rpnList es

end

/-- The tokens of an expression, or of several separated by commas, in a place where operations
must bind at least as tightly as `p`. Parentheses may stand around any expression. -/
inductive Renders (isName : Name → Prop) : ℕ → List Expr → List Token → Prop where
  | literal {p n : ℕ} (hn : n < 2 ^ 31) : Renders isName p [.literal false n] [.number n]
  | negative {p n : ℕ} (hn : n < 2 ^ 31) :
    Renders isName p [.literal true n] [.operation '-', .number n]
  | var {p : ℕ} {name : Name} (hname : isName name) :
    Renders isName p [.var name] [.name name]
  | paren {p : ℕ} {e : Expr} {tokens : List Token} (h : Renders isName 1 [e] tokens) :
    Renders isName p [e] (.openBracket 0 :: (tokens ++ [.closeBracket]))
  | binary {p : ℕ} {op : Operator} {left right : Expr} {ltokens rtokens : List Token}
    (hp : p ≤ op.prec) (hleft : Renders isName op.prec [left] ltokens)
    (hright : Renders isName (op.prec + 1) [right] rtokens) :
    Renders isName p [.binary op left right] (ltokens ++ .operation op.sym :: rtokens)
  | call {p : ℕ} {name : Name} {args : List Expr} {tokens : List Token} (hname : isName name)
    (hargs : args.length ≤ 4) (h : Renders isName 0 args tokens) :
    Renders isName p [.call name args]
      (.name name :: .openBracket 0 :: (tokens ++ [.closeBracket]))
  | comma {es : List Expr} {e : Expr} {tokens etokens : List Token}
    (h : Renders isName 0 es tokens) (he : Renders isName 1 [e] etokens) :
    Renders isName 0 (es ++ [e]) (tokens ++ .comma :: etokens)

def isspace (c : Char) : Bool := c = ' ' || ('\t' ≤ c && c ≤ '\r')

/-- The number that decimal digits continue from `value`. -/
def digitsValue (value : ℕ) (digits : List Char) : ℕ :=
  digits.foldl (fun value c => value * 10 + (c.toNat - 48)) value

/-- The text of one token; a number may have leading zeros. -/
def Token.Spelled : Token → List Char → Prop
  | .number value, text =>
    text ≠ [] ∧ (∀ c ∈ text, isdigit c = true) ∧ (digitsValue 0 text : ℤ) = value
  | .name word, text => text = word
  | .operation sym, text => text = [sym]
  | .openBracket _, text => text = ['(']
  | .closeBracket, text => text = [')']
  | .comma, text => text = [',']
  | _, _ => False

/-- Tokens as text, with white space in front of each and at the end. -/
inductive Spells : List Token → List Char → Prop where
  | nil {space : List Char} (hspace : ∀ c ∈ space, isspace c = true) : Spells [] space
  | cons {token : Token} {tokens : List Token} {space text rest : List Char}
    (hspace : ∀ c ∈ space, isspace c = true) (htext : token.Spelled text)
    (h : Spells tokens rest) : Spells (token :: tokens) (space ++ (text ++ rest))

theorem spells_token {token : Token} {tokens : List Token} {text rest : List Char}
    (htext : token.Spelled text) (h : Spells tokens rest) :
    Spells (token :: tokens) (text ++ rest) :=
  @Spells.cons _ _ [] _ _ (by simp) htext h

/-- The text `cs` is the expression `e`, its names being those that `isName` allows. -/
def IsText (isName : Name → Prop) (e : Expr) (cs : List Char) : Prop :=
  ∃ tokens, Renders isName 1 [e] tokens ∧ Spells tokens cs

/-- The names that the compiler reads: a letter and then letters and digits. -/
def Lexable : Name → Prop
  | [] => False
  | c :: rest => isalpha c = true ∧ ∀ d ∈ rest, isalnum d = true

/-- The tokens of expressions in which a call may also have an empty argument list. -/
inductive RendersAny (isName : Name → Prop) : ℕ → List Expr → List Token → Prop where
  | literal {p n : ℕ} (hn : n < 2 ^ 31) : RendersAny isName p [.literal false n] [.number n]
  | negative {p n : ℕ} (hn : n < 2 ^ 31) :
    RendersAny isName p [.literal true n] [.operation '-', .number n]
  | var {p : ℕ} {name : Name} (hname : isName name) :
    RendersAny isName p [.var name] [.name name]
  | paren {p : ℕ} {e : Expr} {tokens : List Token} (h : RendersAny isName 1 [e] tokens) :
    RendersAny isName p [e] (.openBracket 0 :: (tokens ++ [.closeBracket]))
  | binary {p : ℕ} {op : Operator} {left right : Expr} {ltokens rtokens : List Token}
    (hp : p ≤ op.prec) (hleft : RendersAny isName op.prec [left] ltokens)
    (hright : RendersAny isName (op.prec + 1) [right] rtokens) :
    RendersAny isName p [.binary op left right] (ltokens ++ .operation op.sym :: rtokens)
  | emptyCall {p : ℕ} {name : Name} (hname : isName name) :
    RendersAny isName p [.call name []] [.name name, .openBracket 0, .closeBracket]
  | call {p : ℕ} {name : Name} {args : List Expr} {tokens : List Token} (hname : isName name)
    (hargs : args.length ≤ 4) (h : RendersAny isName 0 args tokens) :
    RendersAny isName p [.call name args]
      (.name name :: .openBracket 0 :: (tokens ++ [.closeBracket]))
  | comma {es : List Expr} {e : Expr} {tokens etokens : List Token}
    (h : RendersAny isName 0 es tokens) (he : RendersAny isName 1 [e] etokens) :
    RendersAny isName 0 (es ++ [e]) (tokens ++ .comma :: etokens)

/-- The text `cs` is the expression `e`, whose calls may have empty argument lists. -/
def IsAnyText (isName : Name → Prop) (e : Expr) (cs : List Char) : Prop :=
  ∃ tokens, RendersAny isName 1 [e] tokens ∧ Spells tokens cs

theorem Renders.any {isName : Name → Prop} {p : ℕ} {es : List Expr} {tokens : List Token}
    (h : Renders isName p es tokens) : RendersAny isName p es tokens := by
  induction h with
  | literal hn => exact .literal hn
  | negative hn => exact .negative hn
  | var hname => exact .var hname
  | paren h ih => exact .paren ih
  | binary hp hleft hright ihl ihr => exact .binary hp ihl ihr
  | call hname hargs h ih => exact .call hname hargs ih
  | comma h he ih ihe => exact .comma ih ihe

mutual

/-- What the parser makes of a tree: a call with an empty argument list gets one argument. -/
def Expr.postfixed : Expr → List StackOperand
  | .literal minus n => [.constant (if minus then -n else n)]
  | .var name => [.variable name]
  | .binary op left right => left.postfixed ++ right.postfixed ++ [.mathOperator op.sym]
  | .call name args => postfixList args ++ [.function name (max 1 args.length : ℕ)]

def postfixList : List Expr → List StackOperand
  | [] => []
  | e :: es => e.postfixed ++ postfixList es

end

mutual

/-- How many calls of a tree have an empty argument list. -/
def Expr.emptyCalls : Expr → ℕ
  | .literal _ _ => 0
  | .var _ => 0
  | .binary _ left right => left.emptyCalls + right.emptyCalls
  | .call _ args => (if args = [] then 1 else 0) + emptyCallsList args

def emptyCallsList : List Expr → ℕ
  | [] => 0
  | e :: es => e.emptyCalls + emptyCallsList es

end

end Acos.JitCompile
