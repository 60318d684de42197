import Acos.JitCompile.ParserCorrect

/-! The plug at the bottom of the sorting stack: for which texts `FromInfixString` leaves it
there. -/
namespace Acos.JitCompile

/-- How many brackets are open after a character; `none` for a `)` or a `,` outside of them. -/
def nesting (depth : ℕ) (c : Char) : Option ℕ :=
  if c = '(' then some (depth + 1)
  else if c = ')' then if depth = 0 then none else some (depth - 1)
  else if c = ',' then if depth = 0 then none else some depth
  else some depth

/-- Every closing bracket and every comma of the text stands inside a bracket. -/
def Enclosed (expression : List Char) : Prop := (expression.foldlM nesting 0).isSome = true

instance (expression : List Char) : Decidable (Enclosed expression) :=
  inferInstanceAs (Decidable (_ = true))

/-- The same for a token. -/
def Token.nesting (depth : ℕ) : Token → Option ℕ
  | .openBracket _ => some (depth + 1)
  | .closeBracket => if depth = 0 then none else some (depth - 1)
  | .comma => if depth = 0 then none else some depth
  | _ => some depth

section Lexer
variable {cs rest : List Char} {depth : ℕ}

theorem nesting_alnum {c : Char} (hc : isalnum c = true) (depth : ℕ) :
    nesting depth c = some depth := by
  have hsym : ∀ d, isalnum d = false → c ≠ d := fun d hd => ne_of_class hc hd
  rw [nesting, if_neg (hsym _ (by decide)), if_neg (hsym _ (by decide)),
    if_neg (hsym _ (by decide))]

theorem foldlM_nesting_word {word : List Char} (hword : ∀ c ∈ word, isalnum c = true) :
    (word ++ rest).foldlM nesting depth = rest.foldlM nesting depth := by
  induction word with
  | nil => rfl
  | cons c word ih =>
    rw [List.cons_append, List.foldlM_cons, nesting_alnum (hword c List.mem_cons_self)]
    exact ih fun d hd => hword d (List.mem_cons_of_mem _ hd)

theorem readName_split (cs : List Char) :
    cs = (readName cs).1 ++ (readName cs).2 ∧ ∀ c ∈ (readName cs).1, isalnum c = true := by
  induction cs with
  | nil => exact ⟨rfl, by simp [readName]⟩
  | cons c cs ih =>
    rw [readName]
    split_ifs with hc
    · exact ⟨congrArg (c :: ·) ih.1, List.forall_mem_cons.mpr ⟨hc, ih.2⟩⟩
    · exact ⟨rfl, by simp⟩

theorem readNumber_split (value : ℤ) (cs : List Char) :
    ∃ digits, cs = digits ++ (readNumber value cs).2 ∧ ∀ c ∈ digits, isalnum c = true := by
  induction cs generalizing value with
  | nil => exact ⟨[], rfl, by simp⟩
  | cons c cs ih =>
    rw [readNumber]
    split_ifs with hc
    · obtain ⟨digits, heq, hdigits⟩ := ih (MachineInt.i32 (MachineInt.i32 (value * 10) +
        (c.toNat - '0'.toNat)))
      refine ⟨c :: digits, congrArg (c :: ·) heq, List.forall_mem_cons.mpr ⟨?_, hdigits⟩⟩
      simp [isalnum, hc]
    · exact ⟨[], rfl, by simp⟩

/-- A token counts as the characters that it is read from. -/
theorem readToken_nesting (cs : List Char) (depth : ℕ) : cs.foldlM nesting depth =
    ((readToken cs).1.nesting depth).bind fun depth => (readToken cs).2.foldlM nesting depth := by
  induction cs with
  | nil => rfl
  | cons c cs ih =>
    rw [readToken]
    split_ifs with hop hopen hclose hcomma hdigit halpha
    · rcases hop with rfl | rfl | rfl <;> rfl
    · subst hopen
      rfl
    · subst hclose
      cases depth <;> rfl
    · subst hcomma
      cases depth <;> rfl
    · obtain ⟨digits, heq, hdigits⟩ := readNumber_split 0 (c :: cs)
      conv_lhs => rw [heq]
      exact foldlM_nesting_word hdigits
    · obtain ⟨heq, hword⟩ := readName_split (c :: cs)
      conv_lhs => rw [heq]
      exact foldlM_nesting_word hword
    · have hskip : nesting depth c = some depth := by
        rw [nesting, if_neg hopen, if_neg hclose, if_neg hcomma]
      rw [List.foldlM_cons, hskip]
      exact ih

theorem readToken_length_le (cs : List Char) : (readToken cs).2.length ≤ cs.length - 1 := by
  induction cs with
  | nil => exact le_rfl
  | cons c cs ih =>
    rw [readToken]
    split_ifs with hop hopen hclose hcomma hdigit halpha
    · exact le_rfl
    · exact le_rfl
    · exact le_rfl
    · exact le_rfl
    · obtain ⟨digits, heq, -⟩ := readNumber_split
        (MachineInt.i32 (MachineInt.i32 (0 * 10) + (c.toNat - '0'.toNat))) cs
      have hlen := congrArg List.length heq
      rw [List.length_append] at hlen
      simp only [readNumber, hdigit, ↓reduceIte, List.length_cons]
      omega
    · have hlen := congrArg List.length (readName_split cs).1
      rw [List.length_append] at hlen
      simp only [readName, isalnum, halpha, Bool.true_or, ↓reduceIte, List.length_cons]
      omega
    · rw [List.length_cons]
      omega

theorem readTokens_nesting {fuel : ℕ} (hfuel : cs.length ≤ fuel) (depth : ℕ) :
    (readTokens fuel cs).foldlM Token.nesting depth = cs.foldlM nesting depth := by
  induction fuel generalizing cs depth with
  | zero =>
    have hnil : cs = [] := List.length_eq_zero_iff.mp (by omega)
    rw [hnil]
    rfl
  | succ fuel ih =>
    cases cs with
    | nil => rfl
    | cons c cs =>
      have hlen := readToken_length_le (c :: cs)
      rw [readToken_nesting]
      obtain ⟨⟨token, rest⟩, hread⟩ : ∃ result, readToken (c :: cs) = result := ⟨_, rfl⟩
      rw [hread] at hlen ⊢
      rw [List.length_cons] at hfuel hlen
      have hrest : rest.length ≤ fuel := by
        simp only at hlen
        omega
      rw [readTokens_step (List.cons_ne_nil c cs) hread, List.foldlM_cons]
      simp only [ih hrest]
      rfl

end Lexer

def Token.brackets : Token → ℕ
  | .openBracket _ => 1
  | _ => 0

def openBrackets (stack : List Token) : ℕ := (stack.map Token.brackets).sum

theorem openBrackets_cons (token : Token) (stack : List Token) :
    openBrackets (token :: stack) = token.brackets + openBrackets stack := by
  simp [openBrackets]

/-- The plug is at the bottom of the stack and nowhere else, and `depth` brackets are open. -/
structure Plugged (stack : List Token) (depth : ℕ) : Prop where
  bottom : ∃ above, stack = above ++ [.undefined] ∧ .undefined ∉ above
  depth : openBrackets stack = depth

section Stack
variable {stack : List Token} {token : Token} {depth : ℕ}

theorem Plugged.ne_nil (h : Plugged stack depth) : stack ≠ [] := by
  obtain ⟨above, rfl, -⟩ := h.bottom
  simp

theorem Plugged.getLast? (h : Plugged stack depth) : stack.getLast? = some .undefined := by
  obtain ⟨above, rfl, -⟩ := h.bottom
  simp

theorem Plugged.cons (h : Plugged stack depth) (htoken : token ≠ .undefined) :
    Plugged (token :: stack) (token.brackets + depth) := by
  obtain ⟨⟨above, rfl, habove⟩, hdepth⟩ := h
  refine ⟨⟨token :: above, rfl, ?_⟩, ?_⟩
  · rw [List.mem_cons, not_or]
    exact ⟨htoken.symm, habove⟩
  · rw [openBrackets_cons, hdepth]

/-- A token above the plug can be taken off. -/
theorem Plugged.tail (h : Plugged (token :: stack) depth) (htoken : token ≠ .undefined) :
    Plugged stack (depth - token.brackets) := by
  obtain ⟨⟨above, heq, habove⟩, hdepth⟩ := h
  cases above with
  | nil =>
    rw [List.nil_append, List.cons.injEq] at heq
    exact absurd heq.1 htoken
  | cons top above =>
    rw [List.cons_append, List.cons.injEq] at heq
    rw [List.mem_cons, not_or] at habove
    refine ⟨⟨above, heq.2, habove.2⟩, ?_⟩
    rw [openBrackets_cons] at hdepth
    omega

theorem Plugged.undefined (h : Plugged (.undefined :: stack) depth) : stack = [] ∧ depth = 0 := by
  obtain ⟨⟨above, heq, habove⟩, hdepth⟩ := h
  cases above with
  | nil =>
    rw [List.nil_append, List.cons.injEq] at heq
    rw [heq.2] at hdepth
    exact ⟨heq.2, hdepth.symm⟩
  | cons top above =>
    rw [List.cons_append, List.cons.injEq] at heq
    rw [← heq.1] at habove
    exact absurd List.mem_cons_self habove

/-- The loop for `)` and `,` ends at an open bracket if there is one, and otherwise takes off the
plug. -/
theorem popToBracket_plugged (h : Plugged stack depth) (poliz : List StackOperand) :
    if depth = 0 then popToBracket stack poliz = none
    else ∃ value rest poliz', popToBracket stack poliz = some (value, rest, poliz') ∧
      Plugged rest (depth - 1) := by
  induction stack generalizing depth poliz with
  | nil => exact absurd rfl h.ne_nil
  | cons token stack ih =>
    by_cases hundefined : token = .undefined
    · subst hundefined
      obtain ⟨rfl, rfl⟩ := h.undefined
      rfl
    · have htail := h.tail hundefined
      cases token with
      | undefined => exact absurd rfl hundefined
      | openBracket value =>
        have hdepth : depth ≠ 0 := by
          have hcount := h.depth
          rw [openBrackets_cons, Token.brackets] at hcount
          omega
        rw [if_neg hdepth]
        exact ⟨value, stack, poliz, rfl, htail⟩
      | _ => exact ih htail _

/-- The loop for an operation stops at the plug. -/
theorem popOperations_plugged (sym : Char) (h : Plugged stack depth) (poliz : List StackOperand) :
    ∃ rest poliz', popOperations sym stack poliz = some (rest, poliz') ∧ Plugged rest depth := by
  induction stack generalizing poliz with
  | nil => exact absurd rfl h.ne_nil
  | cons token stack ih =>
    cases token with
    | operation top =>
      rw [popOperations]
      split_ifs with hpop
      · exact ih (h.tail (by simp)) _
      · exact ⟨_, _, rfl, h⟩
    | _ => exact ⟨_, _, rfl, h⟩

/-- The last loop stops at the plug. -/
theorem popAll_plugged (h : Plugged stack depth) (poliz : List StackOperand) :
    (popAll stack poliz).isSome = true := by
  induction stack generalizing depth poliz with
  | nil => exact absurd rfl h.ne_nil
  | cons token stack ih =>
    cases token with
    | undefined => rfl
    | _ => exact ih (h.tail (by simp)) _

end Stack

section Run
variable {p : Parser} {depth : ℕ}

theorem resolveName_plugged (h : Plugged p.sorting_stack depth) (token : Token) :
    Plugged (p.resolveName token).sorting_stack depth := by
  unfold Parser.resolveName
  split
  · rw [← Nat.zero_add depth]
    exact h.cons (by simp)
  · exact h
  · exact h

/-- A token that ends outside of brackets takes off the plug; no other does. -/
theorem readStep_plugged (h : Plugged p.sorting_stack depth) (token : Token) :
    match token.nesting depth with
    | none => p.readStep token = none
    | some depth' => ∃ q, p.readStep token = some q ∧ Plugged q.sorting_stack depth' := by
  cases token with
  | openBracket value =>
    refine ⟨_, rfl, ?_⟩
    rw [Nat.add_comm]
    exact h.cons (by simp)
  | comma =>
    have hpop := popToBracket_plugged h p.poliz
    simp only [Token.nesting]
    split_ifs at hpop ⊢ with hdepth
    · simp [Parser.readStep, hpop]
    · obtain ⟨value, rest, poliz', hpop, hrest⟩ := hpop
      refine ⟨_, by simp [Parser.readStep, hpop]; rfl, ?_⟩
      rw [show depth = 1 + (depth - 1) by omega]
      exact hrest.cons (by simp)
  | closeBracket =>
    have hpop := popToBracket_plugged h p.poliz
    simp only [Token.nesting]
    split_ifs at hpop ⊢ with hdepth
    · simp [Parser.readStep, hpop]
    · obtain ⟨value, rest, poliz', hpop, hrest⟩ := hpop
      simp only [Parser.readStep, hpop, Option.bind_eq_bind, Option.bind_some]
      cases rest with
      | nil => exact absurd rfl hrest.ne_nil
      | cons top rest =>
        cases top with
        | func name => exact ⟨_, rfl, hrest.tail (by simp)⟩
        | _ => exact ⟨_, rfl, hrest⟩
  | operation sym =>
    simp only [Token.nesting, Parser.readStep]
    split_ifs with hminus
    · exact ⟨_, rfl, h⟩
    · obtain ⟨rest, poliz', hpop, hrest⟩ := popOperations_plugged sym h p.poliz
      refine ⟨_, by simp [hpop]; rfl, ?_⟩
      rw [← Nat.zero_add depth]
      exact hrest.cons (by simp)
  | _ => exact ⟨_, rfl, h⟩

theorem run_plugged (h : Plugged p.sorting_stack depth) (tokens : List Token) :
    match tokens.foldlM Token.nesting depth with
    | none => p.run tokens = none
    | some depth' => ∃ q, p.run tokens = some q ∧ Plugged q.sorting_stack depth' := by
  induction tokens generalizing p depth with
  | nil => exact ⟨p, rfl, h⟩
  | cons token tokens ih =>
    have hstep := readStep_plugged (resolveName_plugged h token) token
    rw [List.foldlM_cons]
    cases hnest : token.nesting depth with
    | none =>
      rw [hnest] at hstep
      show (p.step token).bind _ = none
      rw [Parser.step, hstep]
      rfl
    | some depth' =>
      rw [hnest] at hstep
      obtain ⟨q, hq, hplugged⟩ := hstep
      have hrun : p.run (token :: tokens) = q.run tokens := by
        show (p.step token).bind _ = _
        rw [Parser.step, hq]
        rfl
      rw [hrun]
      exact ih hplugged

theorem init_plugged : Plugged Parser.init.sorting_stack 0 := ⟨⟨[], rfl, by simp⟩, rfl⟩

end Run

/-- The tokens that `FromInfixString` reads. -/
def tokensOf (expression : List Char) : List Token :=
  readTokens (expression.length + 1) (expression ++ [' '])

/-- Whatever has been read of the text, the plug is at the bottom of the stack, and the last loop
would stop at it. -/
def KeepsPlug (expression : List Char) : Prop :=
  ∀ tokens, tokens <+: tokensOf expression → ∃ p, Parser.init.run tokens = some p ∧
    p.sorting_stack.getLast? = some .undefined ∧ (popAll p.sorting_stack p.poliz).isSome = true

section Text
variable {expression : List Char}

theorem tokensOf_nesting (expression : List Char) :
    (tokensOf expression).foldlM Token.nesting 0 = expression.foldlM nesting 0 := by
  have hlength : (expression ++ [' ']).length ≤ expression.length + 1 := by simp
  have htokens := readTokens_nesting hlength 0
  rw [tokensOf, htokens, List.foldlM_append]
  cases expression.foldlM nesting 0 <;> rfl

/-- The parser gets to the end of a text whose commas and closing brackets are enclosed. -/
theorem run_of_enclosed (h : Enclosed expression) :
    ∃ p depth, Parser.init.run (tokensOf expression) = some p ∧ Plugged p.sorting_stack depth := by
  have hrun := run_plugged init_plugged (tokensOf expression)
  rw [tokensOf_nesting] at hrun
  obtain ⟨depth, hdepth⟩ := Option.isSome_iff_exists.mp h
  rw [hdepth] at hrun
  obtain ⟨p, hp, hplugged⟩ := hrun
  exact ⟨p, depth, hp, hplugged⟩

theorem run_of_not_enclosed (h : ¬ Enclosed expression) :
    Parser.init.run (tokensOf expression) = none := by
  have hrun := run_plugged init_plugged (tokensOf expression)
  rw [tokensOf_nesting, Option.not_isSome_iff_eq_none.mp h] at hrun
  exact hrun

theorem fromInfixString_eq (expression : List Char) : fromInfixString expression =
    (Parser.init.run (tokensOf expression)).bind fun p => popAll p.sorting_stack p.poliz := by
  have hlength : (expression ++ [' ']).length = expression.length + 1 := List.length_append
  simp only [fromInfixString, tokensOf, hlength, Option.bind_eq_bind]

theorem fromInfixString_of_enclosed (h : Enclosed expression) :
    ∃ operands, fromInfixString expression = some operands := by
  obtain ⟨p, depth, hp, hplugged⟩ := run_of_enclosed h
  obtain ⟨operands, hall⟩ := Option.isSome_iff_exists.mp (popAll_plugged hplugged p.poliz)
  exact ⟨operands, by rw [fromInfixString_eq, hp, Option.bind_some, hall]⟩

/-- The plug stays where it is for exactly the texts in which every `)` and every `,` stands inside
a bracket. -/
theorem from_infix_string_plug_iff (expression : List Char) :
    KeepsPlug expression ↔ Enclosed expression := by
  constructor
  · intro hkeeps
    obtain ⟨p, hp, -⟩ := hkeeps _ List.prefix_rfl
    by_contra hnot
    rw [run_of_not_enclosed hnot] at hp
    cases hp
  · rintro henclosed tokens ⟨rest, hrest⟩
    obtain ⟨q, -, hq, -⟩ := run_of_enclosed henclosed
    rw [← hrest, run_append] at hq
    obtain ⟨p, hp, -⟩ := Option.bind_eq_some_iff.mp hq
    have hrun := run_plugged init_plugged tokens
    cases hdepth : tokens.foldlM Token.nesting 0 with
    | none =>
      rw [hdepth, hp] at hrun
      cases hrun
    | some depth =>
      rw [hdepth] at hrun
      obtain ⟨p, hp, hplugged⟩ := hrun
      exact ⟨p, hp, hplugged.getLast?, popAll_plugged hplugged p.poliz⟩

/-- A single `)` takes the plug off, and then the empty stack is asked for its top. -/
theorem from_infix_string_plug_lost : ¬ ∀ expression, KeepsPlug expression := by
  intro hall
  obtain ⟨p, hp, -⟩ := hall [')'] _ List.prefix_rfl
  have hnone : Parser.init.run (tokensOf [')']) = none := by decide
  rw [hnone] at hp
  cases hp

end Text

end Acos.JitCompile
