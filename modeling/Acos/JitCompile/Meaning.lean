import Acos.JitCompile.Grammar
import Acos.Lib.Arm
import Mathlib.Data.List.Induction

/-! The meaning of an expression over 32-bit words, and of its postfix form on a stack. -/
namespace Acos.JitCompile
open Acos.Arm

/-- What the declared names stand for: the contents of a variable; of a function its number of
arguments and its result. -/
structure Env where
  var : Name → Option Word
  func : Name → Option (ℕ × (List Word → Word))

def Operator.apply : Operator → Word → Word → Word
  | .add => (· + ·)
  | .sub => (· - ·)
  | .mul => (· * ·)

mutual

/-- The value in wrap-around arithmetic; `none` where a name is not declared or a function is
called with a wrong number of arguments. -/
def Expr.value (env : Env) : Expr → Option Word
  | .literal minus n => some (BitVec.ofInt 32 (if minus then -n else n))
  | .var name => env.var name
  | .binary op left right => do
    let a ← left.value env
    let b ← right.value env
    some (op.apply a b)
  | .call name args => do
    let vs ← values env args
    let (arity, f) ← env.func name
    if vs.length = arity then some (f vs) else none

def values (env : Env) : List Expr → Option (List Word)
  | [] => some []
  | e :: es => do
    let v ← e.value env
    let vs ← values env es
    some (v :: vs)

end

/-- The effect of an entry of the postfix form on the stack, whose top is the head of the list. -/
def evalOperand (env : Env) : StackOperand → List Word → Option (List Word)
  | .constant value, stack => some (BitVec.ofInt 32 value :: stack)
  | .variable name, stack => (env.var name).map (· :: stack)
  | .mathOperator sym, b :: a :: stack =>
    match sym with
    | '*' => some (Operator.mul.apply a b :: stack)
    | '+' => some (Operator.add.apply a b :: stack)
    | '-' => some (Operator.sub.apply a b :: stack)
    | _ => none
  | .mathOperator _, _ => none
  | .function name n_arguments, stack => do
    let (arity, f) ← env.func name
    if n_arguments = arity ∧ arity ≤ stack.length then
      some (f (stack.take arity).reverse :: stack.drop arity)
    else none

def evalOperands (env : Env) : List StackOperand → List Word → Option (List Word)
  | [], stack => some stack
  | operand :: operands, stack => (evalOperand env operand stack).bind (evalOperands env operands)

section Postfix
variable {env : Env}

theorem evalOperands_append (operands operands' : List StackOperand) (stack : List Word) :
    evalOperands env (operands ++ operands') stack =
      (evalOperands env operands stack).bind (evalOperands env operands') := by
  induction operands generalizing stack with
  | nil => rfl
  | cons operand operands ih =>
    rw [List.cons_append, evalOperands, evalOperands, Option.bind_assoc]
    congr 1
    funext stack'
    exact ih stack'

theorem evalOperand_operator (op : Operator) (a b : Word) (stack : List Word) :
    evalOperand env (.mathOperator op.sym) (b :: a :: stack) = some (op.apply a b :: stack) := by
  cases op <;> rfl

theorem evalOperand_mathOperator {sym : Char} {stack stack' : List Word}
    (h : evalOperand env (.mathOperator sym) stack = some stack') :
    ∃ (op : Operator) (a b : Word) (rest : List Word), sym = op.sym ∧ stack = b :: a :: rest ∧
      stack' = op.apply a b :: rest := by
  match stack, h with
  | b :: a :: rest, h =>
    simp only [evalOperand] at h
    split at h
    · exact ⟨.mul, a, b, rest, rfl, rfl, (Option.some.inj h).symm⟩
    · exact ⟨.add, a, b, rest, rfl, rfl, (Option.some.inj h).symm⟩
    · exact ⟨.sub, a, b, rest, rfl, rfl, (Option.some.inj h).symm⟩
    · cases h

theorem evalOperand_function {name : Name} {arity : ℕ} {f : List Word → Word} {vs : List Word}
    (hname : env.func name = some (arity, f)) (hlength : vs.length = arity)
    (stack : List Word) :
    evalOperand env (.function name arity) (vs.reverse ++ stack) = some (f vs :: stack) := by
  have hle : arity ≤ (vs.reverse ++ stack).length := by
    simp [hlength]
  have htake : (vs.reverse ++ stack).take arity = vs.reverse := by
    apply List.take_left'
    simpa using hlength
  have hdrop : (vs.reverse ++ stack).drop arity = stack := by
    apply List.drop_left'
    simpa using hlength
  show (env.func name).bind _ = _
  rw [hname, Option.bind_some]
  dsimp only
  rw [if_pos ⟨rfl, hle⟩, htake, hdrop, List.reverse_reverse]

mutual

/-- The postorder of a tree computes its value. -/
theorem evalOperands_rpn {v : Word} : ∀ (e : Expr) (stack : List Word),
    e.value env = some v → evalOperands env e.rpn stack = some (v :: stack)
  | .literal minus n, stack, h => by
    simpa [Expr.rpn, evalOperands, evalOperand, Expr.value] using h
  | .var name, stack, h => by
    rw [Expr.value] at h
    simp [Expr.rpn, evalOperands, evalOperand, h]
  | .binary op left right, stack, h => by
    simp only [Expr.value, Option.bind_eq_bind, Option.bind_eq_some_iff] at h
    obtain ⟨a, ha, b, hb, hv⟩ := h
    rw [Option.some.injEq] at hv
    rw [Expr.rpn, evalOperands_append, evalOperands_append, evalOperands_rpn left stack ha,
      Option.bind_some, evalOperands_rpn right (a :: stack) hb, Option.bind_some, evalOperands,
      evalOperand_operator, hv]
    rfl
  | .call name args, stack, h => by
    simp only [Expr.value, Option.bind_eq_bind, Option.bind_eq_some_iff] at h
    obtain ⟨vs, hvs, ⟨arity, f⟩, hname, hv⟩ := h
    have hlength := length_values args hvs
    split at hv
    next harity =>
      rw [Option.some.injEq] at hv
      rw [Expr.rpn, evalOperands_append, evalOperands_rpnList args stack hvs, Option.bind_some,
        evalOperands, ← hlength, harity, evalOperand_function hname harity]
      exact congrArg (fun v => some (v :: stack)) hv
    next => cases hv

theorem evalOperands_rpnList {vs : List Word} : ∀ (es : List Expr) (stack : List Word),
    values env es = some vs → evalOperands env (rpnList es) stack = some (vs.reverse ++ stack)
  | [], stack, h => by
    simp only [values, Option.some.injEq] at h
    simp [rpnList, evalOperands, ← h]
  | e :: es, stack, h => by
    simp only [values, Option.bind_eq_bind, Option.bind_eq_some_iff] at h
    obtain ⟨v, hv, ws, hws, hvs⟩ := h
    rw [Option.some.injEq] at hvs
    rw [rpnList, evalOperands_append, evalOperands_rpn e stack hv, Option.bind_some,
      evalOperands_rpnList es (v :: stack) hws, ← hvs]
    simp

theorem length_values {vs : List Word} : ∀ es : List Expr, values env es = some vs →
    vs.length = es.length
  | [], h => by
    simp only [values, Option.some.injEq] at h
    simp [← h]
  | e :: es, h => by
    simp only [values, Option.bind_eq_bind, Option.bind_eq_some_iff] at h
    obtain ⟨v, hv, ws, hws, hvs⟩ := h
    rw [Option.some.injEq] at hvs
    simp [← hvs, length_values es hws]

end

end Postfix

end Acos.JitCompile
