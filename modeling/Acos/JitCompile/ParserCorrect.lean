import Acos.JitCompile.LexerCorrect

/-! The sorting station on the tokens of an expression: it leaves the operations of the right
edge of the tree on its stack, above what was there before. -/
namespace Acos.JitCompile
open Acos.MachineInt

/-- The stack can take an expression at level `p`: no operation of the expression pops its top. -/
def Blocks (p : ℕ) : List Token → Prop
  | .operation sym :: _ => symPrec sym < p
  | .openBracket _ :: _ => True
  | .undefined :: _ => True
  | _ => False

/-- The bracket on top has counted `k` more arguments. -/
def bump (k : ℕ) : List Token → List Token
  | .openBracket value :: stack => .openBracket (value + k) :: stack
  | stack => stack

/-- The operations of `pending` bind at least as tightly as `p`. -/
def Pending (p : ℕ) (pending : List Token) : Prop :=
  ∀ token ∈ pending, ∃ sym, token = .operation sym ∧ p ≤ symPrec sym

def operands (pending : List Token) : List StackOperand :=
  pending.flatMap fun token => operandOf token 0

/-- An expression may begin here. -/
structure Parser.Ready (q : Parser) : Prop where
  unary_minus : q.unary_minus = false
  last : q.last_read_token.beforeUnary = true

/-- An expression has ended here. -/
structure Parser.Ended (q : Parser) : Prop where
  unary_minus : q.unary_minus = false
  last : q.last_read_token.beforeUnary = false

section Stack
variable {p : ℕ} {pending stack : List Token} {poliz : List StackOperand}

@[simp] theorem bump_zero (stack : List Token) : bump 0 stack = stack := by
  cases stack with
  | nil => rfl
  | cons token stack => cases token <;> simp [bump]

theorem Blocks.mono {q : ℕ} (h : Blocks p stack) (hpq : p ≤ q) : Blocks q stack := by
  cases stack with
  | nil => exact h
  | cons token stack =>
    cases token with
    | operation sym => exact lt_of_lt_of_le h hpq
    | _ => exact h

theorem Pending.mono {q : ℕ} (h : Pending q pending) (hpq : p ≤ q) : Pending p pending := by
  intro token htoken
  obtain ⟨sym, heq, hle⟩ := h token htoken
  exact ⟨sym, heq, le_trans hpq hle⟩

theorem popToBracket_pending (h : Pending p pending) (value : ℤ) :
    popToBracket (pending ++ .openBracket value :: stack) poliz =
      some (value, stack, poliz ++ operands pending) := by
  induction pending generalizing poliz with
  | nil => simp [popToBracket, operands]
  | cons token pending ih =>
    obtain ⟨sym, rfl, -⟩ := h token (List.mem_cons_self)
    have hrest : Pending p pending := fun t ht => h t (List.mem_cons_of_mem _ ht)
    simp only [List.cons_append, popToBracket, ih hrest]
    simp [operands]

theorem popAll_pending (h : Pending p pending) :
    popAll (pending ++ .undefined :: stack) poliz = some (poliz ++ operands pending) := by
  induction pending generalizing poliz with
  | nil => simp [popAll, operands]
  | cons token pending ih =>
    obtain ⟨sym, rfl, -⟩ := h token (List.mem_cons_self)
    have hrest : Pending p pending := fun t ht => h t (List.mem_cons_of_mem _ ht)
    simp only [List.cons_append, popAll, ih hrest]
    simp [operands]

/-- An operation of level `p` pops just what is pending at this level. -/
theorem popOperations_pending {op : Operator} (h : Pending op.prec pending)
    (hblocks : Blocks op.prec stack) :
    popOperations op.sym (pending ++ stack) poliz = some (stack, poliz ++ operands pending) := by
  induction pending generalizing poliz with
  | nil =>
    cases stack with
    | nil => exact absurd hblocks (by simp [Blocks])
    | cons token stack =>
      cases token with
      | operation sym =>
        have hlt : symPrec sym < symPrec op.sym := hblocks
        have hstop : ¬ (op.sym ≠ '*' ∨ sym = '*') := by
          unfold symPrec at hlt
          by_cases hsym : sym = '*'
          · rw [if_pos hsym] at hlt
            split_ifs at hlt <;> omega
          · rw [if_neg hsym] at hlt
            split_ifs at hlt with hop
            · simp [hop, hsym]
            · omega
        simp [popOperations, hstop, operands]
      | _ => simp [popOperations, operands]
  | cons token pending ih =>
    obtain ⟨sym, rfl, hle⟩ := h token (List.mem_cons_self)
    have hrest : Pending op.prec pending := fun t ht => h t (List.mem_cons_of_mem _ ht)
    have hpop : op.sym ≠ '*' ∨ sym = '*' := by
      by_contra hno
      rw [not_or, not_not] at hno
      simp [Operator.prec, symPrec, hno.1, hno.2] at hle
    simp only [List.cons_append, popOperations, if_pos hpop, ih hrest]
    simp [operands]

end Stack

section Steps
variable {q : Parser} {token : Token}

theorem resolveName_of_last (hlast : ∀ word, q.last_read_token ≠ .name word) (token : Token) :
    q.resolveName token = q := by
  unfold Parser.resolveName
  cases h : q.last_read_token with
  | name word => exact absurd h (hlast word)
  | _ => rfl

theorem Parser.Ready.resolveName (h : q.Ready) (token : Token) : q.resolveName token = q := by
  apply resolveName_of_last
  intro word hname
  have hlast := h.last
  rw [hname] at hlast
  cases hlast

/-- Before a token that is no open bracket a name becomes a variable. -/
theorem resolveName_of_closing (hopen : ∀ value, token ≠ .openBracket value) :
    q.resolveName token = q.resolveName .undefined := by
  unfold Parser.resolveName
  cases q.last_read_token with
  | name word =>
    cases token with
    | openBracket value => exact absurd rfl (hopen value)
    | _ => rfl
  | _ => rfl

theorem run_append (q : Parser) (tokens rest : List Token) :
    q.run (tokens ++ rest) = (q.run tokens).bind fun q => q.run rest := by
  induction tokens generalizing q with
  | nil => rfl
  | cons token tokens ih =>
    cases h : q.step token with
    | none => simp [Parser.run, h]
    | some r => simpa [Parser.run, h] using ih r

end Steps

/-- The parser `r` has read `n` expressions at level `p` from `q` on, which are `out` in postfix
form. A name at their end is resolved with the next token. -/
structure Parsed (p n : ℕ) (out : List StackOperand) (q r : Parser) : Prop where
  ended : (r.resolveName .undefined).Ended
  stack : ∃ pending, Pending p pending ∧
    (r.resolveName .undefined).sorting_stack = pending ++ bump (n - 1) q.sorting_stack ∧
    (r.resolveName .undefined).poliz ++ operands pending = q.poliz ++ out

/-- Several expressions are read only above a bracket that can count them. -/
def Counts (n : ℕ) (stack : List Token) : Prop :=
  n = 1 ∨ ∃ value rest, stack = .openBracket value :: rest ∧ 0 ≤ value ∧ value + n < 2 ^ 31

/-- The station reads these tokens as `n` expressions from wherever one may begin. -/
def Reads (p n : ℕ) (out : List StackOperand) (tokens : List Token) : Prop :=
  ∀ q : Parser, q.Ready → Blocks p q.sorting_stack → Counts n q.sorting_stack →
    ∃ r, q.run tokens = some r ∧ Parsed p n out q r

/-- What has been read when nothing is pending. -/
theorem parsed_of_resolved {p : ℕ} {out : List StackOperand} {q r : Parser}
    (hended : (r.resolveName .undefined).Ended)
    (hstack : (r.resolveName .undefined).sorting_stack = q.sorting_stack)
    (hpoliz : (r.resolveName .undefined).poliz = q.poliz ++ out) : Parsed p 1 out q r := by
  refine ⟨hended, [], by simp [Pending], ?_, ?_⟩
  · simp [hstack]
  · simp [hpoliz, operands]

section Tokens
variable {q : Parser}

theorem step_number (hq : q.Ready) (value : ℤ) : q.step (.number value) =
    some ⟨q.sorting_stack, q.poliz ++ [.constant value], .number value, false, q.args_count⟩ := by
  simp [Parser.step, hq.resolveName, Parser.readStep, hq.unary_minus, operandOf]

/-- A minus where an expression may begin makes the number after it negative. -/
theorem step_minus (hq : q.Ready) : q.step (.operation '-') =
    some ⟨q.sorting_stack, q.poliz, .operation '-', true, q.args_count⟩ := by
  simp [Parser.step, hq.resolveName, Parser.readStep, hq.last]

theorem step_negative {n : ℕ} (hn : n < 2 ^ 31) (stack : List Token) (poliz : List StackOperand)
    (args_count : ℤ) :
    Parser.step ⟨stack, poliz, .operation '-', true, args_count⟩ (.number n) =
      some ⟨stack, poliz ++ [.constant (-n)], .number (-n), false, args_count⟩ := by
  have hneg : i32 ((n : ℤ) * -1) = -n := by
    rw [i32_of_range (by omega) (by omega)]
    omega
  have hstep : Parser.step ⟨stack, poliz, .operation '-', true, args_count⟩ (.number n) =
      some ⟨stack, poliz ++ [.constant (i32 ((n : ℤ) * -1))], .number (i32 ((n : ℤ) * -1)), false,
        args_count⟩ := rfl
  rw [hstep, hneg]

theorem step_name (hq : q.Ready) (word : Name) : q.step (.name word) =
    some ⟨q.sorting_stack, q.poliz, .name word, q.unary_minus, q.args_count⟩ := by
  simp [Parser.step, hq.resolveName, Parser.readStep]

theorem step_open (hq : q.Ready) : q.step (.openBracket 0) =
    some ⟨.openBracket 1 :: q.sorting_stack, q.poliz, .openBracket 1, q.unary_minus,
      q.args_count⟩ := by
  simp [Parser.step, hq.resolveName, Parser.readStep]

/-- The bracket after a name makes it a function. -/
theorem step_call (stack : List Token) (poliz : List StackOperand) (word : Name)
    (unary_minus : Bool) (args_count : ℤ) :
    Parser.step ⟨stack, poliz, .name word, unary_minus, args_count⟩ (.openBracket 0) =
      some ⟨.openBracket 1 :: .func word :: stack, poliz, .openBracket 1, unary_minus,
        args_count⟩ := rfl

end Tokens

section Ends
variable {q : Parser} {p : ℕ} {pending stack : List Token} {value : ℤ}

theorem step_comma (hpending : Pending p pending)
    (hstack : (q.resolveName .undefined).sorting_stack = pending ++ .openBracket value :: stack) :
    q.step .comma = some ⟨.openBracket (i32 (value + 1)) :: stack,
      (q.resolveName .undefined).poliz ++ operands pending, .comma,
      (q.resolveName .undefined).unary_minus, (q.resolveName .undefined).args_count⟩ := by
  unfold Parser.step
  rw [resolveName_of_closing (by simp)]
  simp [Parser.readStep, hstack, popToBracket_pending hpending]

/-- A closing bracket with no function below its open one. -/
theorem step_close {level : ℕ} (hpending : Pending p pending)
    (hstack : (q.resolveName .undefined).sorting_stack = pending ++ .openBracket value :: stack)
    (hblocks : Blocks level stack) :
    q.step .closeBracket = some ⟨stack, (q.resolveName .undefined).poliz ++ operands pending,
      .closeBracket, (q.resolveName .undefined).unary_minus, value⟩ := by
  unfold Parser.step
  rw [resolveName_of_closing (by simp)]
  simp only [Parser.readStep, hstack, popToBracket_pending hpending, Option.bind_eq_bind,
    Option.bind_some]
  cases stack with
  | nil => exact absurd hblocks (by simp [Blocks])
  | cons token stack =>
    cases token with
    | func word => exact absurd hblocks (by simp [Blocks])
    | _ => rfl

theorem step_closeCall {word : Name} (hpending : Pending p pending)
    (hstack : (q.resolveName .undefined).sorting_stack =
      pending ++ .openBracket value :: .func word :: stack) :
    q.step .closeBracket = some ⟨stack, (q.resolveName .undefined).poliz ++ operands pending ++
      [.function word (value % 2 ^ 8)], .closeBracket, (q.resolveName .undefined).unary_minus,
      value⟩ := by
  unfold Parser.step
  rw [resolveName_of_closing (by simp)]
  simp only [Parser.readStep, hstack, popToBracket_pending hpending, Option.bind_eq_bind,
    Option.bind_some]
  rfl

/-- An operation between two operands. -/
theorem step_operation {op : Operator} (hended : (q.resolveName .undefined).Ended)
    (hpending : Pending op.prec pending) (hblocks : Blocks op.prec stack)
    (hstack : (q.resolveName .undefined).sorting_stack = pending ++ stack) :
    q.step (.operation op.sym) = some ⟨.operation op.sym :: stack,
      (q.resolveName .undefined).poliz ++ operands pending, .operation op.sym, false,
      (q.resolveName .undefined).args_count⟩ := by
  unfold Parser.step
  rw [resolveName_of_closing (by simp)]
  simp [Parser.readStep, hended.last, hstack, popOperations_pending hpending hblocks,
    hended.unary_minus]

end Ends

theorem run_two {q r t : Parser} {a b : Token} (ha : q.step a = some r) (hb : r.step b = some t) :
    q.run [a, b] = some t := by
  simp [Parser.run, ha, hb]

section Reads
variable {p : ℕ} {out : List StackOperand} {tokens : List Token}

theorem reads_literal {n : ℕ} : Reads p 1 [.constant n] [.number n] := by
  intro q hq _ _
  refine ⟨_, by simp [Parser.run, step_number hq]; rfl, ?_⟩
  exact parsed_of_resolved ⟨rfl, rfl⟩ rfl rfl

theorem reads_negative {n : ℕ} (hn : n < 2 ^ 31) :
    Reads p 1 [.constant (-n)] [.operation '-', .number n] := by
  intro q hq _ _
  refine ⟨_, run_two (step_minus hq) (step_negative hn _ _ _), ?_⟩
  exact parsed_of_resolved ⟨rfl, rfl⟩ rfl rfl

theorem reads_var {name : Name} : Reads p 1 [.variable name] [.name name] := by
  intro q hq _ _
  refine ⟨_, by simp [Parser.run, step_name hq]; rfl, ?_⟩
  exact parsed_of_resolved ⟨hq.unary_minus, rfl⟩ rfl rfl

theorem Reads.paren (h : Reads 1 1 out tokens) :
    Reads p 1 out (.openBracket 0 :: (tokens ++ [.closeBracket])) := by
  intro q hq hblocks _
  obtain ⟨r, hrun, hended, pending, hpending, hstack, hpoliz⟩ :=
    h ⟨.openBracket 1 :: q.sorting_stack, q.poliz, .openBracket 1, q.unary_minus, q.args_count⟩
      ⟨hq.unary_minus, rfl⟩ trivial (.inl rfl)
  have hclose := step_close hpending (by simpa using hstack) hblocks
  have hrunr : q.run (.openBracket 0 :: (tokens ++ [.closeBracket])) = r.step .closeBracket := by
    rw [Parser.run, step_open hq, Option.bind_some, run_append, hrun, Option.bind_some]
    simp [Parser.run]
  exact ⟨_, hrunr.trans hclose, parsed_of_resolved ⟨hended.unary_minus, rfl⟩ rfl hpoliz⟩

theorem Reads.binary {op : Operator} {lout rout : List StackOperand} {ltokens rtokens : List Token}
    (hp : p ≤ op.prec) (hleft : Reads op.prec 1 lout ltokens)
    (hright : Reads (op.prec + 1) 1 rout rtokens) :
    Reads p 1 (lout ++ rout ++ [.mathOperator op.sym])
      (ltokens ++ .operation op.sym :: rtokens) := by
  intro q hq hblocks _
  obtain ⟨r, hrun, hended, pending, hpending, hstack, hpoliz⟩ :=
    hleft q hq (hblocks.mono hp) (.inl rfl)
  have hop := step_operation hended hpending (hblocks.mono hp) (by simpa using hstack)
  obtain ⟨t, hrunt, hendedt, pendingt, hpendingt, hstackt, hpolizt⟩ :=
    hright ⟨.operation op.sym :: q.sorting_stack,
      (r.resolveName .undefined).poliz ++ operands pending,
      .operation op.sym, false, (r.resolveName .undefined).args_count⟩ ⟨rfl, rfl⟩
      (Nat.lt_succ_self _) (.inl rfl)
  refine ⟨t, ?_, hendedt, pendingt ++ [.operation op.sym], ?_, ?_, ?_⟩
  · rw [run_append, hrun, Option.bind_some, Parser.run, hop, Option.bind_some, hrunt]
  · intro token htoken
    rcases List.mem_append.mp htoken with hright' | hlast
    · exact (hpendingt.mono (hp.trans (Nat.le_succ _))) token hright'
    · exact ⟨op.sym, List.mem_singleton.mp hlast, hp⟩
  · simpa using hstackt
  · rw [hpoliz] at hpolizt
    simp only [operands, List.flatMap_append, ← List.append_assoc] at hpolizt ⊢
    rw [hpolizt]
    simp [operandOf]

/-- What stands between the brackets of a call has been counted in the open one. -/
theorem Reads.call {name : Name} {n : ℕ} (hpos : 1 ≤ n) (hn : n < 2 ^ 8)
    (h : Reads 0 n out tokens) :
    Reads p 1 (out ++ [.function name n])
      (.name name :: .openBracket 0 :: (tokens ++ [.closeBracket])) := by
  intro q hq hblocks _
  obtain ⟨r, hrun, hended, pending, hpending, hstack, hpoliz⟩ :=
    h ⟨.openBracket 1 :: .func name :: q.sorting_stack, q.poliz, .openBracket 1, q.unary_minus,
      q.args_count⟩ ⟨hq.unary_minus, rfl⟩ trivial
      (.inr ⟨1, _, rfl, by decide, by omega⟩)
  have hclose := step_closeCall hpending hstack
  have hrunr : q.run (.name name :: .openBracket 0 :: (tokens ++ [.closeBracket])) =
      r.step .closeBracket := by
    rw [Parser.run, step_name hq, Option.bind_some, Parser.run, step_call, Option.bind_some,
      run_append, hrun, Option.bind_some]
    simp [Parser.run]
  refine ⟨_, hrunr.trans hclose, parsed_of_resolved ⟨hended.unary_minus, rfl⟩ rfl ?_⟩
  have hcount : ((1 : ℤ) + (n - 1 : ℕ)) % 2 ^ 8 = n := by omega
  show (r.resolveName .undefined).poliz ++ operands pending ++ [.function name _] = _
  rw [hpoliz, hcount, List.append_assoc]

/-- An empty argument list counts as one argument. -/
theorem reads_emptyCall {name : Name} :
    Reads p 1 [.function name 1] [.name name, .openBracket 0, .closeBracket] := by
  intro q hq hblocks _
  have hclose := @step_closeCall
    ⟨.openBracket 1 :: .func name :: q.sorting_stack, q.poliz, .openBracket 1, q.unary_minus,
      q.args_count⟩ 0 [] q.sorting_stack 1 name (by simp [Pending]) rfl
  have hrun : q.run [.name name, .openBracket 0, .closeBracket] = Parser.step
      ⟨.openBracket 1 :: .func name :: q.sorting_stack, q.poliz, .openBracket 1, q.unary_minus,
        q.args_count⟩ .closeBracket := by
    rw [Parser.run, step_name hq, Option.bind_some, Parser.run, step_call, Option.bind_some]
    simp [Parser.run]
  refine ⟨_, hrun.trans hclose, parsed_of_resolved ⟨hq.unary_minus, rfl⟩ rfl ?_⟩
  show q.poliz ++ operands [] ++ [.function name _] = _
  simp [operands]

theorem Reads.comma {n : ℕ} {eout : List StackOperand} {etokens : List Token} (hpos : 1 ≤ n)
    (h : Reads 0 n out tokens) (he : Reads 1 1 eout etokens) :
    Reads 0 (n + 1) (out ++ eout) (tokens ++ .comma :: etokens) := by
  intro q hq _ hcounts
  obtain ⟨value, rest, hbracket, hvalue, hbound⟩ : ∃ value rest,
      q.sorting_stack = .openBracket value :: rest ∧ 0 ≤ value ∧
        value + (n + 1) < 2 ^ 31 := by
    rcases hcounts with hone | ⟨value, rest, hbracket, hvalue, hbound⟩
    · omega
    · exact ⟨value, rest, hbracket, hvalue, by simpa using hbound⟩
  obtain ⟨r, hrun, hended, pending, hpending, hstack, hpoliz⟩ :=
    h q hq (by rw [hbracket]; trivial) (.inr ⟨value, rest, hbracket, hvalue, by omega⟩)
  rw [hbracket] at hstack
  have hcomma := step_comma hpending hstack
  have hvalue' : i32 (value + (n - 1 : ℕ) + 1) = value + n := by
    rw [i32_of_range (by omega) (by omega)]
    omega
  rw [hvalue'] at hcomma
  obtain ⟨t, hrunt, hendedt, pendingt, hpendingt, hstackt, hpolizt⟩ :=
    he ⟨.openBracket (value + n) :: rest,
      (r.resolveName .undefined).poliz ++ operands pending, .comma,
      (r.resolveName .undefined).unary_minus, (r.resolveName .undefined).args_count⟩
      ⟨hended.unary_minus, rfl⟩ trivial (.inl rfl)
  refine ⟨t, ?_, hendedt, pendingt, hpendingt.mono (Nat.zero_le _), ?_, ?_⟩
  · rw [run_append, hrun, Option.bind_some, Parser.run, hcomma, Option.bind_some, hrunt]
  · simpa [hbracket, bump] using hstackt
  · rw [hpolizt, hpoliz, List.append_assoc]

end Reads

theorem RendersAny.length_pos {isName : Name → Prop} {p : ℕ} {es : List Expr} {tokens : List Token}
    (h : RendersAny isName p es tokens) : 1 ≤ es.length := by
  cases h <;> simp

theorem postfixList_append (es fs : List Expr) :
    postfixList (es ++ fs) = postfixList es ++ postfixList fs := by
  induction es with
  | nil => rfl
  | cons e es ih => simp [postfixList, ih]

theorem rpnList_append (es fs : List Expr) : rpnList (es ++ fs) = rpnList es ++ rpnList fs := by
  induction es with
  | nil => rfl
  | cons e es ih => simp [rpnList, ih]

/-- The tokens of expressions are read as their postfix form. -/
theorem reads_renders {isName : Name → Prop} {p : ℕ} {es : List Expr} {tokens : List Token}
    (h : RendersAny isName p es tokens) : Reads p es.length (postfixList es) tokens := by
  induction h with
  | literal hn => exact reads_literal
  | negative hn => exact reads_negative hn
  | var hname => exact reads_var
  | paren h ih => exact ih.paren
  | @binary p op left right ltokens rtokens hp hleft hright ihl ihr =>
    simp only [postfixList, List.append_nil] at ihl ihr ⊢
    exact ihl.binary hp ihr
  | emptyCall hname => exact reads_emptyCall
  | @call p name args tokens hname hargs h ih =>
    have hcount : max 1 args.length = args.length := max_eq_right h.length_pos
    simp only [postfixList, List.append_nil, Expr.postfixed, hcount]
    exact ih.call h.length_pos (by omega)
  | @comma es e tokens etokens h he ih ihe =>
    rw [postfixList_append, List.length_append]
    exact ih.comma h.length_pos ihe

/-- Where no argument list is empty the postfix form is the postorder. -/
theorem Renders.postfixList_eq {isName : Name → Prop} {p : ℕ} {es : List Expr}
    {tokens : List Token} (h : Renders isName p es tokens) : postfixList es = rpnList es := by
  induction h with
  | @call p name args tokens hname hargs h ih =>
    have hcount : max 1 args.length = args.length := max_eq_right h.any.length_pos
    simp only [postfixList, rpnList, Expr.postfixed, Expr.rpn, ih, hcount]
  | binary hp hleft hright ihl ihr =>
    simp only [postfixList, rpnList, List.append_nil] at ihl ihr
    simp only [postfixList, rpnList, Expr.postfixed, Expr.rpn, ihl, ihr]
  | comma h he ih ihe => rw [postfixList_append, rpnList_append, ih, ihe]
  | paren h ih => exact ih
  | _ => rfl

/-- `FromInfixString` on the tokens of an expression gives its postfix form. -/
theorem run_renders {isName : Name → Prop} {e : Expr} {tokens : List Token}
    (h : RendersAny isName 1 [e] tokens) : ∃ q, Parser.init.run (tokens ++ [.undefined]) = some q ∧
      popAll q.sorting_stack q.poliz = some e.postfixed := by
  obtain ⟨r, hrun, hended, pending, hpending, hstack, hpoliz⟩ :=
    reads_renders h Parser.init ⟨rfl, rfl⟩ trivial (.inl rfl)
  have hpop : popAll (r.resolveName .undefined).sorting_stack (r.resolveName .undefined).poliz =
      some e.postfixed := by
    have hall := @popAll_pending _ _ [] (r.resolveName .undefined).poliz hpending
    rw [hpoliz] at hall
    rw [hstack]
    simpa [Parser.init, bump, postfixList] using hall
  refine ⟨⟨(r.resolveName .undefined).sorting_stack, (r.resolveName .undefined).poliz, .undefined,
    (r.resolveName .undefined).unary_minus, (r.resolveName .undefined).args_count⟩, ?_, hpop⟩
  rw [run_append, hrun, Option.bind_some]
  rfl

/-- Of the text of an expression `FromInfixString` gives the postfix form. -/
theorem fromInfixString_any {e : Expr} {cs : List Char} (h : IsAnyText Lexable e cs) :
    fromInfixString cs = some e.postfixed := by
  obtain ⟨tokens, hrender, hspell⟩ := h
  obtain ⟨q, hrun, hpop⟩ := run_renders hrender
  show ((Parser.init.run (readTokens (cs ++ [' ']).length (cs ++ [' ']))).bind fun q =>
    popAll q.sorting_stack q.poliz) = some e.postfixed
  rw [readTokens_text hrender hspell, hrun]
  exact hpop

/-- Without empty argument lists this is the postorder. -/
theorem fromInfixString_text {e : Expr} {cs : List Char} (h : IsText Lexable e cs) :
    fromInfixString cs = some e.rpn := by
  obtain ⟨tokens, hrender, hspell⟩ := h
  have hsame : e.postfixed = e.rpn := by
    simpa [postfixList, rpnList] using hrender.postfixList_eq
  rw [fromInfixString_any ⟨tokens, hrender.any, hspell⟩, hsame]

end Acos.JitCompile
