import Acos.JitCompile.Grammar
import Mathlib.Data.List.Chain

/-! Reading tokens back from text. Two names or numbers never stand next to each other in an
expression, so no white space is needed between its tokens. -/
namespace Acos.JitCompile
open Acos.MachineInt

/-- The text goes on with a character that ends a name and a number. -/
def EndsWord : List Char → Prop
  | [] => True
  | c :: _ => isalnum c = false

/-- The token is a name or a number. -/
def Token.isWord : Token → Bool
  | .name _ | .number _ => true
  | _ => false

/-- No two words stand next to each other. -/
def Separated (tokens : List Token) : Prop :=
  tokens.IsChain fun a b => ¬ (a.isWord = true ∧ b.isWord = true)

section Chars
variable {c d : Char}

theorem isdigit_iff : isdigit c = true ↔ 48 ≤ c.toNat ∧ c.toNat ≤ 57 := by
  simp only [isdigit, Bool.and_eq_true, decide_eq_true_eq, Char.le_def, UInt32.le_iff_toNat_le]
  rfl

theorem isalpha_iff : isalpha c = true ↔
    (97 ≤ c.toNat ∧ c.toNat ≤ 122) ∨ (65 ≤ c.toNat ∧ c.toNat ≤ 90) := by
  simp only [isalpha, Bool.or_eq_true, Bool.and_eq_true, decide_eq_true_eq, Char.le_def,
    UInt32.le_iff_toNat_le]
  rfl

theorem isspace_bounds (h : isspace c = true) : c.toNat ≤ 32 := by
  simp only [isspace, Bool.or_eq_true, Bool.and_eq_true, decide_eq_true_eq, Char.le_def,
    UInt32.le_iff_toNat_le] at h
  rcases h with rfl | h
  · decide
  · exact h.2.trans (by decide)

theorem isdigit_of_isspace (h : isspace c = true) : isdigit c = false := by
  have hle := isspace_bounds h
  rw [Bool.eq_false_iff, ne_eq, isdigit_iff]
  omega

theorem isalpha_of_isspace (h : isspace c = true) : isalpha c = false := by
  have hle := isspace_bounds h
  rw [Bool.eq_false_iff, ne_eq, isalpha_iff]
  omega

theorem isalnum_of_isspace (h : isspace c = true) : isalnum c = false := by
  simp [isalnum, isdigit_of_isspace h, isalpha_of_isspace h]

theorem isdigit_of_isalpha (h : isalpha c = true) : isdigit c = false := by
  rw [isalpha_iff] at h
  rw [Bool.eq_false_iff, ne_eq, isdigit_iff]
  omega

/-- A character of a class is none of the characters outside it. -/
theorem ne_of_class {p : Char → Bool} (hc : p c = true) (hd : p d = false) : c ≠ d := by
  intro h
  rw [h, hd] at hc
  cases hc

end Chars

section Words
variable {rest : List Char}

theorem readName_append {word : List Char} (hword : ∀ c ∈ word, isalnum c = true)
    (hrest : EndsWord rest) : readName (word ++ rest) = (word, rest) := by
  induction word with
  | nil =>
    cases rest with
    | nil => rfl
    | cons c rest =>
      have hend : isalnum c = false := hrest
      simp [readName, hend]
  | cons c word ih =>
    have hc := hword c List.mem_cons_self
    simp [readName, hc, ih fun d hd => hword d (List.mem_cons_of_mem _ hd)]

theorem digitsValue_cons (value : ℕ) (c : Char) (digits : List Char) :
    digitsValue value (c :: digits) = digitsValue (value * 10 + (c.toNat - 48)) digits := by
  simp only [digitsValue, List.foldl_cons]

/-- More digits never make a number smaller. -/
theorem digitsValue_ge (digits : List Char) (value : ℕ) : value ≤ digitsValue value digits := by
  induction digits generalizing value with
  | nil => exact le_rfl
  | cons c digits ih =>
    have hrest := ih (value * 10 + (c.toNat - 48))
    rw [digitsValue_cons]
    omega

theorem readNumber_append {digits : List Char} (hdigits : ∀ c ∈ digits, isdigit c = true)
    (hrest : EndsWord rest) (value : ℕ) (hbound : digitsValue value digits < 2 ^ 31) :
    readNumber value (digits ++ rest) = ((digitsValue value digits : ℤ), rest) := by
  induction digits generalizing value with
  | nil =>
    cases rest with
    | nil => rfl
    | cons c rest =>
      have hend : isalnum c = false := hrest
      have hdigit : isdigit c = false := by
        simp only [isalnum, Bool.or_eq_false_iff] at hend
        exact hend.2
      simp [readNumber, hdigit, digitsValue]
  | cons c digits ih =>
    have hc := hdigits c List.mem_cons_self
    have hzero : 48 ≤ c.toNat := (isdigit_iff.mp hc).1
    have hge := digitsValue_ge digits (value * 10 + (c.toNat - 48))
    rw [digitsValue_cons] at hbound ⊢
    rw [List.cons_append, readNumber, if_pos hc]
    have hten : i32 ((value : ℤ) * 10) = value * 10 := i32_of_range (by omega) (by omega)
    have hnext : i32 ((value : ℤ) * 10 + (c.toNat - '0'.toNat)) =
        (value * 10 + (c.toNat - 48) : ℕ) := by
      rw [show '0'.toNat = 48 from rfl, i32_of_range (by omega) (by omega)]
      omega
    rw [hten, hnext]
    exact ih (fun d hd => hdigits d (List.mem_cons_of_mem _ hd)) _ hbound

end Words

section Tokens
variable {rest : List Char}

theorem readToken_space {space : List Char} (h : ∀ c ∈ space, isspace c = true) :
    readToken (space ++ rest) = readToken rest := by
  induction space with
  | nil => rfl
  | cons c space ih =>
    have hc := h c List.mem_cons_self
    have hsym : ∀ d, isspace d = false → c ≠ d := fun d hd => ne_of_class hc hd
    rw [List.cons_append, readToken, if_neg, if_neg (hsym _ (by decide)),
      if_neg (hsym _ (by decide)), if_neg (hsym _ (by decide)), if_neg, if_neg]
    · exact ih fun d hd => h d (List.mem_cons_of_mem _ hd)
    · simp [isalpha_of_isspace hc]
    · simp [isdigit_of_isspace hc]
    · simp [hsym '+' (by decide), hsym '-' (by decide), hsym '*' (by decide)]

theorem readToken_number {text : List Char} {value : ℤ} (h : (Token.number value).Spelled text)
    (hvalue : value < 2 ^ 31) (hrest : EndsWord rest) :
    readToken (text ++ rest) = (.number value, rest) := by
  obtain ⟨hne, hdigits, hspelled⟩ := h
  cases text with
  | nil => exact absurd rfl hne
  | cons c digits =>
    have hc := hdigits c List.mem_cons_self
    have hsym : ∀ d, isdigit d = false → c ≠ d := fun d hd => ne_of_class hc hd
    have hread := @readNumber_append rest (c :: digits) hdigits hrest 0
      (by have hlt : (digitsValue 0 (c :: digits) : ℤ) < 2 ^ 31 := hspelled ▸ hvalue
          exact_mod_cast hlt)
    rw [List.cons_append, readToken, if_neg, if_neg (hsym _ (by decide)),
      if_neg (hsym _ (by decide)), if_neg (hsym _ (by decide)), if_pos hc]
    · rw [← List.cons_append, show (0 : ℤ) = (0 : ℕ) from rfl, hread, ← hspelled]
    · simp [hsym '+' (by decide), hsym '-' (by decide), hsym '*' (by decide)]

theorem readToken_name {word : Name} (h : Lexable word) (hrest : EndsWord rest) :
    readToken (word ++ rest) = (.name word, rest) := by
  cases word with
  | nil => exact absurd h (by simp [Lexable])
  | cons c tail =>
    obtain ⟨hc, htail⟩ := h
    have hsym : ∀ d, isalpha d = false → c ≠ d := fun d hd => ne_of_class hc hd
    have hall : ∀ d ∈ c :: tail, isalnum d = true := by
      intro d hd
      rcases List.mem_cons.mp hd with rfl | hd
      · simp [isalnum, hc]
      · exact htail d hd
    have hread := readName_append hall hrest
    rw [List.cons_append, readToken, if_neg, if_neg (hsym _ (by decide)),
      if_neg (hsym _ (by decide)), if_neg (hsym _ (by decide)), if_neg, if_pos hc]
    · rw [← List.cons_append, hread]
    · simp [isdigit_of_isalpha hc]
    · simp [hsym '+' (by decide), hsym '-' (by decide), hsym '*' (by decide)]

/-- A token that `ReadToken` can return for its text. -/
inductive Token.Readable : Token → Prop where
  | number {value : ℤ} (hvalue : value < 2 ^ 31) : Readable (.number value)
  | name {word : Name} (hword : Lexable word) : Readable (.name word)
  | operation (op : Operator) : Readable (.operation op.sym)
  | openBracket : Readable (.openBracket 0)
  | closeBracket : Readable .closeBracket
  | comma : Readable .comma

theorem readToken_spelled {token : Token} {text : List Char} (hread : token.Readable)
    (htext : token.Spelled text) (hrest : token.isWord = true → EndsWord rest) :
    readToken (text ++ rest) = (token, rest) := by
  cases hread with
  | number hvalue => exact readToken_number htext hvalue (hrest rfl)
  | name hword =>
    obtain rfl : text = _ := htext
    exact readToken_name hword (hrest rfl)
  | operation op =>
    obtain rfl : text = [op.sym] := htext
    cases op <;> rfl
  | openBracket =>
    obtain rfl : text = ['('] := htext
    rfl
  | closeBracket =>
    obtain rfl : text = [')'] := htext
    rfl
  | comma =>
    obtain rfl : text = [','] := htext
    rfl

theorem spelled_length {token : Token} {text : List Char} (hread : token.Readable)
    (htext : token.Spelled text) : 0 < text.length := by
  cases hread with
  | number hvalue => exact List.length_pos_iff.mpr htext.1
  | @name word hword =>
    obtain rfl : text = word := htext
    cases text with
    | nil => exact hword.elim
    | cons c text => exact Nat.succ_pos _
  | operation op =>
    obtain rfl : text = [op.sym] := htext
    exact Nat.one_pos
  | openBracket =>
    obtain rfl : text = ['('] := htext
    exact Nat.one_pos
  | closeBracket =>
    obtain rfl : text = [')'] := htext
    exact Nat.one_pos
  | comma =>
    obtain rfl : text = [','] := htext
    exact Nat.one_pos

/-- A token that is no word begins with a character that ends one. -/
theorem spelled_endsWord {token : Token} {text : List Char} (hread : token.Readable)
    (htext : token.Spelled text) (hword : token.isWord = false) : EndsWord (text ++ rest) := by
  cases hread with
  | number hvalue => cases hword
  | name hname => cases hword
  | operation op =>
    obtain rfl : text = [op.sym] := htext
    show isalnum op.sym = false
    cases op <;> decide
  | openBracket =>
    obtain rfl : text = ['('] := htext
    show isalnum '(' = false
    decide
  | closeBracket =>
    obtain rfl : text = [')'] := htext
    show isalnum ')' = false
    decide
  | comma =>
    obtain rfl : text = [','] := htext
    show isalnum ',' = false
    decide

theorem space_endsWord {space : List Char} (hspace : ∀ c ∈ space, isspace c = true)
    (hrest : EndsWord rest) : EndsWord (space ++ rest) := by
  cases space with
  | nil => exact hrest
  | cons c space => exact isalnum_of_isspace (hspace c List.mem_cons_self)

theorem spells_endsWord {tokens : List Token} {cs : List Char} (h : Spells tokens cs)
    (hread : ∀ token ∈ tokens, token.Readable)
    (hword : ∀ token ∈ tokens.head?, token.isWord = false) : EndsWord (cs ++ [' ']) := by
  cases h with
  | nil hspace => exact space_endsWord hspace (by show isalnum ' ' = false; decide)
  | cons hspace htext h =>
    rw [List.append_assoc, List.append_assoc]
    exact space_endsWord hspace
      (spelled_endsWord (hread _ List.mem_cons_self) htext (hword _ (by simp)))

theorem readTokens_nil (fuel : ℕ) : readTokens fuel [] = [] := by cases fuel <;> rfl

theorem readTokens_step {cs : List Char} {token : Token} (hne : cs ≠ [])
    (h : readToken cs = (token, rest)) (fuel : ℕ) :
    readTokens (fuel + 1) cs = token :: readTokens fuel rest := by
  cases cs with
  | nil => exact absurd rfl hne
  | cons c cs => simp [readTokens, h]

/-- The tokens of a text are read back, with one `UNDEFINED` at its end. -/
theorem readTokens_spells {tokens : List Token} {cs : List Char} (h : Spells tokens cs) :
    (∀ token ∈ tokens, token.Readable) → Separated tokens → ∀ fuel, (cs ++ [' ']).length ≤ fuel →
      readTokens fuel (cs ++ [' ']) = tokens ++ [.undefined] := by
  induction h with
  | @nil space hspace =>
    intro _ _ fuel hfuel
    have hskip : readToken (space ++ [' ']) = (.undefined, []) := by
      have hall : ∀ c ∈ space ++ [' '], isspace c = true := by
        intro c hc
        rcases List.mem_append.mp hc with hc | hc
        · exact hspace c hc
        · rw [List.mem_singleton.mp hc]
          decide
      have hread := @readToken_space [] _ hall
      simpa [readToken] using hread
    obtain ⟨n, rfl⟩ : ∃ n, fuel = n + 1 := ⟨fuel - 1, by simp at hfuel; omega⟩
    rw [readTokens_step (by simp) hskip, readTokens_nil]
    rfl
  | @cons token tokens space text rest hspace htext h ih =>
    intro hread hsep fuel hfuel
    have htoken := hread token List.mem_cons_self
    have hrest : ∀ t ∈ tokens, t.Readable := fun t ht => hread t (List.mem_cons_of_mem _ ht)
    have hpos := spelled_length htoken htext
    obtain ⟨hnext, hsep'⟩ := List.isChain_cons.mp hsep
    have hword : token.isWord = true → EndsWord (rest ++ [' ']) := by
      intro hword
      apply spells_endsWord h hrest
      intro t ht
      simpa [hword] using hnext t ht
    have hstep : readToken (space ++ (text ++ (rest ++ [' ']))) = (token, rest ++ [' ']) := by
      rw [readToken_space hspace]
      exact readToken_spelled htoken htext hword
    simp only [List.length_append] at hfuel
    obtain ⟨n, rfl⟩ : ∃ n, fuel = n + 1 := ⟨fuel - 1, by omega⟩
    rw [List.append_assoc, List.append_assoc, readTokens_step _ hstep,
      ih hrest hsep' n (by rw [List.length_append]; omega)]
    · rfl
    · simp

end Tokens

section Renders
variable {p : ℕ} {es : List Expr} {tokens : List Token}

theorem renders_readable (h : RendersAny Lexable p es tokens) :
    ∀ token ∈ tokens, token.Readable := by
  induction h with
  | literal hn =>
    intro token htoken
    rw [List.mem_singleton.mp htoken]
    exact .number (by omega)
  | negative hn =>
    intro token htoken
    simp only [List.mem_cons, List.not_mem_nil, or_false] at htoken
    rcases htoken with rfl | rfl
    · exact .operation .sub
    · exact .number (by omega)
  | var hname =>
    intro token htoken
    rw [List.mem_singleton.mp htoken]
    exact .name hname
  | paren h ih =>
    intro token htoken
    simp only [List.mem_cons, List.mem_append, List.not_mem_nil, or_false] at htoken
    rcases htoken with rfl | htoken | rfl
    · exact .openBracket
    · exact ih token htoken
    · exact .closeBracket
  | @binary p op left right ltokens rtokens hp hleft hright ihl ihr =>
    intro token htoken
    simp only [List.mem_cons, List.mem_append] at htoken
    rcases htoken with htoken | rfl | htoken
    · exact ihl token htoken
    · exact .operation op
    · exact ihr token htoken
  | emptyCall hname =>
    intro token htoken
    simp only [List.mem_cons, List.not_mem_nil, or_false] at htoken
    rcases htoken with rfl | rfl | rfl
    · exact .name hname
    · exact .openBracket
    · exact .closeBracket
  | call hname hargs h ih =>
    intro token htoken
    simp only [List.mem_cons, List.mem_append, List.not_mem_nil, or_false] at htoken
    rcases htoken with rfl | rfl | htoken | rfl
    · exact .name hname
    · exact .openBracket
    · exact ih token htoken
    · exact .closeBracket
  | comma h he ih ihe =>
    intro token htoken
    simp only [List.mem_cons, List.mem_append] at htoken
    rcases htoken with htoken | rfl | htoken
    · exact ih token htoken
    · exact .comma
    · exact ihe token htoken

/-- Tokens on both sides of one that is no word stay separated. -/
theorem Separated.join {left right : List Token} {token : Token} (hl : Separated left)
    (hr : Separated right) (hword : token.isWord = false) :
    Separated (left ++ token :: right) := by
  apply List.isChain_append.mpr
  refine ⟨hl, List.isChain_cons.mpr ⟨?_, hr⟩, ?_⟩
  · simp [hword]
  · simp [hword]

theorem renders_separated {isName : Name → Prop} (h : RendersAny isName p es tokens) :
    Separated tokens := by
  induction h with
  | literal hn => exact List.isChain_singleton _
  | negative hn => exact @Separated.join [] _ _ List.isChain_nil (List.isChain_singleton _) rfl
  | var hname => exact List.isChain_singleton _
  | paren h ih =>
    have hclosed := ih.join (List.isChain_nil) (rfl : Token.closeBracket.isWord = false)
    exact @Separated.join [] _ _ List.isChain_nil hclosed rfl
  | binary hp hleft hright ihl ihr => exact ihl.join ihr rfl
  | @emptyCall p name hname =>
    have hclosed := @Separated.join [] [] .closeBracket List.isChain_nil List.isChain_nil rfl
    exact @Separated.join [.name name] _ _ (List.isChain_singleton _) hclosed rfl
  | @call p name args tokens hname hargs h ih =>
    have hclosed := ih.join (List.isChain_nil) (rfl : Token.closeBracket.isWord = false)
    exact @Separated.join [.name name] _ _ (List.isChain_singleton _) hclosed rfl
  | comma h he ih ihe => exact ih.join ihe rfl

end Renders

/-- The tokens of an expression's text are read back. -/
theorem readTokens_text {tokens : List Token} {p : ℕ} {es : List Expr} {cs : List Char}
    (h : RendersAny Lexable p es tokens) (hcs : Spells tokens cs) :
    readTokens (cs ++ [' ']).length (cs ++ [' ']) = tokens ++ [.undefined] :=
  readTokens_spells hcs (renders_readable h) (renders_separated h) _ le_rfl

end Acos.JitCompile
