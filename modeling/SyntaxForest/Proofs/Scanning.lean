import SyntaxForest.Proofs.Grouping

/-! # Scanning

A text is cut into lexemes: marks, string literals, and words, which a blank, a mark or a quote ends.
A lexeme of an expression is a token: a parenthesis, a part of a conditional, an operator or an
operand.

* `scan_quote`, `scan_word`: literals and words are cut off where they end.
* `tokenizes_text`: the tokens of an expression's text are those written for it. -/

namespace SyntaxForest

/-! ### Lexemes -/

/-- A piece of a text. A literal without a closing quote is followed by `unclosed`. -/
inductive Lexeme where
  | mark (c : Char)
  | literal (text : List Char)
  | word (letters : List Char)
  | unclosed
deriving DecidableEq, Repr

namespace Lexeme

/-- Whether a character only separates words. -/
def isSpace (c : Char) : Bool := c = ' ' || c = '\n'

/-- Whether a character is a lexeme of its own. -/
def isMark (c : Char) : Bool := ['(', ')', '\x7b', '\x7d', ';'].contains c

/-- Whether a word ends before the character. -/
def endsWord (c : Char) : Bool := isSpace c || isMark c || c = '"'

/-- The character that stands for `c` after a backslash. -/
def unescape : Char → Char
  | 'n' => '\n'
  | 'r' => '\r'
  | 't' => '\t'
  | c => c

/-- Puts a letter in front: to the word that comes next if they are joined, else as a new word. -/
def glue (c : Char) : Bool → List Lexeme → List Lexeme
  | true, word letters :: rest => word (c :: letters) :: rest
  | _, rest => word [c] :: rest

/-- Whether a word goes on with the next character. -/
def goesOn (cs : List Char) : Bool := cs.head?.any fun c => !endsWord c

mutual

/-- The lexemes of a text. -/
def scan : List Char → List Lexeme
  | [] => []
  | c :: cs =>
    if c = '"' then literal (scanLiteral cs).1 :: (scanLiteral cs).2
    else if isSpace c then scan cs
    else if isMark c then mark c :: scan cs
    else glue c (goesOn cs) (scan cs)

/-- The characters up to the closing quote, and the lexemes after it. -/
def scanLiteral : List Char → List Char × List Lexeme
  | [] => ([], [unclosed])
  | '"' :: cs => ([], scan cs)
  | '\\' :: c :: cs => (unescape c :: (scanLiteral cs).1, (scanLiteral cs).2)
  | c :: cs => (c :: (scanLiteral cs).1, (scanLiteral cs).2)

end

variable {cs rest : List Char}

theorem scan_space (cs : List Char) : scan (' ' :: cs) = scan cs := by
  rw [scan, if_neg (by decide), if_pos (by decide)]

theorem scan_mark {c : Char} (hc : isMark c) (hs : isSpace c = false) (hq : c ≠ '"') :
    scan (c :: cs) = mark c :: scan cs := by
  rw [scan, if_neg hq, if_neg (by simp [hs]), if_pos hc]

/-- How a character is written in a literal is read back as the character. -/
theorem scanLiteral_escape (c : Char) (cs : List Char) :
    scanLiteral (Literal.escape c ++ cs) = (c :: (scanLiteral cs).1, (scanLiteral cs).2) := by
  unfold Literal.escape
  split <;> simp_all [scanLiteral, unescape]

theorem scanLiteral_body (text rest : List Char) :
    scanLiteral (Literal.body text ++ '"' :: rest) = (text, scan rest) := by
  induction text with
  | nil => rw [Literal.body, List.flatMap_nil, List.nil_append, scanLiteral]
  | cons c text ih =>
    rw [Literal.body] at ih
    rw [Literal.body, List.flatMap_cons, List.append_assoc, scanLiteral_escape, ih]

/-- **A literal is cut off at its closing quote.** -/
theorem scan_quote (text rest : List Char) :
    scan (Literal.quote text ++ rest) = literal text :: scan rest := by
  have hbody := scanLiteral_body text rest
  simp [Literal.quote, scan, hbody]

theorem scan_letter {c : Char} (hc : endsWord c = false) :
    scan (c :: cs) = glue c (goesOn cs) (scan cs) := by
  simp only [endsWord, Bool.or_eq_false_iff, decide_eq_false_iff_not] at hc
  rw [scan, if_neg hc.2, if_neg (by simp [hc.1.1]), if_neg (by simp [hc.1.2])]

/-- **A word is cut off where it ends.** -/
theorem scan_word {w : List Char} (hw : w ≠ []) (hall : ∀ c ∈ w, endsWord c = false)
    (hrest : goesOn rest = false) : scan (w ++ rest) = word w :: scan rest := by
  induction w with
  | nil => exact absurd rfl hw
  | cons c w ih =>
    have hc := hall c (by simp)
    rw [List.cons_append, scan_letter hc]
    cases w with
    | nil => rw [List.nil_append, hrest, glue]; simp
    | cons d w =>
      have hd : goesOn ((d :: w) ++ rest) = true := by simp [goesOn, hall d (by simp)]
      rw [hd, ih (by simp) fun e he => hall e (by simp [he]), glue]

end Lexeme

/-! ### Tokens -/

/-- What a lexeme is in an expression. -/
inductive Token where
  | opening
  | closing
  | question
  | colon
  | operator (o : Operator)
  | operand (g : Grouping)
  | other (l : Lexeme)
deriving DecidableEq, Repr

/-- The operand that a literal or an identifier stands for. -/
def Grouping.ofName : String → Grouping
  | "true" => .boolean true
  | "false" => .boolean false
  | "null" => .null
  | identifier => .name identifier

/-- The operand that a word stands for. -/
def Grouping.ofWord? (w : List Char) : Option Grouping :=
  if isNumber w then some (.number (String.ofList w))
  else if isIdentifier w then some (ofName (String.ofList w))
  else none

/-- The token that a word stands for. -/
def Token.ofWord (w : List Char) : Token :=
  match Grouping.ofWord? w with
  | some g => .operand g
  | none =>
    if w = ['?'] then .question
    else if w = [':'] then .colon
    else
      match Operator.ofSymbol (String.ofList w) with
      | .ok o => .operator o
      | .error _ => .other (.word w)

/-- The token that a lexeme stands for. -/
def Lexeme.token : Lexeme → Token
  | mark '(' => .opening
  | mark ')' => .closing
  | literal text => .operand (.string (String.ofList text))
  | word w => Token.ofWord w
  | l => .other l

/-- The tokens of a text. -/
def tokenize (cs : List Char) : List Token := (Lexeme.scan cs).map Lexeme.token

/-- Tokens with or without parentheses around them. -/
def bracketed (parentheses : Bool) (tokens : List Token) : List Token :=
  if parentheses then .opening :: tokens ++ [.closing] else tokens

mutual

/-- **The tokens of an expression.** -/
def Expression.tokens : Expression → List Token
  | .number token => [.operand (.number token)]
  | .boolean value => [.operand (.boolean value)]
  | .string text => [.operand (.string text)]
  | .null => [.operand .null]
  | .name identifier => [.operand (.name identifier)]
  | .parenthesized inner => bracketed true inner.tokens
  | .chain type? operator left right extended =>
    bracketed (left.needsParentheses type? operator true) left.tokens ++
      .operator operator :: bracketed (right.needsParentheses type? operator false) right.tokens ++
      operandsTokens type? operator extended
  | .conditional condition thenExpression elseExpression =>
    bracketed condition.isConditional condition.tokens ++ .question :: thenExpression.tokens ++
      .colon :: elseExpression.tokens

/-- The tokens of the later operands of a chain, each after its operator. -/
def operandsTokens (type? : Option TypeRef) (operator : Operator) : List Expression → List Token
  | [] => []
  | operand :: rest =>
    .operator operator :: bracketed (operand.needsParentheses type? operator false) operand.tokens ++
      operandsTokens type? operator rest

end

/-! ### The tokens of a text -/

section Texts

open Lexeme

variable {rest a b s : List Char} {x y : List Token} {t : Token}

theorem tokenize_opening (cs : List Char) : tokenize ('(' :: cs) = .opening :: tokenize cs := by
  rw [tokenize, scan_mark (by decide) (by decide) (by decide)]; rfl

theorem tokenize_closing (cs : List Char) : tokenize (')' :: cs) = .closing :: tokenize cs := by
  rw [tokenize, scan_mark (by decide) (by decide) (by decide)]; rfl

theorem tokenize_quote (text rest : List Char) :
    tokenize (Literal.quote text ++ rest) =
      .operand (.string (String.ofList text)) :: tokenize rest := by
  rw [tokenize, scan_quote]; rfl

theorem tokenize_word {w : List Char} (hw : w ≠ []) (hall : ∀ c ∈ w, endsWord c = false)
    (hrest : goesOn rest = false) : tokenize (w ++ rest) = Token.ofWord w :: tokenize rest := by
  rw [tokenize, scan_word hw hall hrest]; rfl

/-- The text has the tokens, whatever stands after it that is not part of a last word. -/
def Tokenizes (a : List Char) (x : List Token) : Prop :=
  ∀ rest, goesOn rest = false → tokenize (a ++ rest) = x ++ tokenize rest

/-- The text ends a word before it, and has one token whatever stands after it. -/
def Separates (s : List Char) (t : Token) : Prop :=
  ∀ rest, goesOn (s ++ rest) = false ∧ tokenize (s ++ rest) = t :: tokenize rest

theorem separates_spaced {w : List Char} (hw : w ≠ []) (hall : w.all fun c => !endsWord c)
    (ht : Token.ofWord w = t) : Separates (' ' :: w ++ [' ']) t := by
  intro rest
  have hspace : goesOn (' ' :: rest) = false := rfl
  have hword := tokenize_word hw (by simpa using hall) hspace
  refine ⟨rfl, ?_⟩
  rw [ht] at hword
  simp only [tokenize, List.cons_append, List.append_assoc, List.nil_append, scan_space] at hword ⊢
  exact hword

theorem separates_operator (o : Operator) : Separates o.spaced (.operator o) := by
  refine separates_spaced ?_ ?_ ?_ <;> cases o <;> decide

theorem separates_question : Separates " ? ".toList .question :=
  separates_spaced (w := ['?']) (by decide) (by decide) (by decide)

theorem separates_colon : Separates " : ".toList .colon :=
  separates_spaced (w := [':']) (by decide) (by decide) (by decide)

theorem Tokenizes.join (ha : Tokenizes a x) (hs : Separates s t) (hb : Tokenizes b y) :
    Tokenizes (a ++ s ++ b) (x ++ t :: y) := by
  intro rest hrest
  rw [List.append_assoc, List.append_assoc, ha _ (hs _).1, (hs _).2, hb rest hrest]
  simp

theorem Tokenizes.wrap (ha : Tokenizes a x) (parentheses : Bool) :
    Tokenizes (wrap parentheses a) (bracketed parentheses x) := by
  cases parentheses with
  | false => exact ha
  | true =>
    intro rest _
    have hclosing : goesOn (')' :: rest) = false := rfl
    have hinner := ha _ hclosing
    simp [SyntaxForest.wrap, bracketed, tokenize_opening, hinner, tokenize_closing]

theorem plain_of_endsWord {c : Char} (hc : endsWord c) :
    c.isDigit = false ∧ startsIdentifier c = false := by
  have hmem : c ∈ [' ', '\n', '(', ')', '\x7b', '\x7d', ';', '"'] := by
    simpa [endsWord, isSpace, isMark, or_assoc] using hc
  have hall : [' ', '\n', '(', ')', '\x7b', '\x7d', ';', '"'].all fun c =>
    !c.isDigit && !startsIdentifier c := by decide
  simpa using List.all_eq_true.mp hall c hmem

theorem endsWord_of_isDigit {c : Char} (hc : c.isDigit) : endsWord c = false :=
  Bool.eq_false_iff.mpr fun h => by simp [(plain_of_endsWord h).1] at hc

theorem endsWord_of_startsIdentifier {c : Char} (hc : startsIdentifier c) : endsWord c = false :=
  Bool.eq_false_iff.mpr fun h => by simp [(plain_of_endsWord h).2] at hc

theorem not_isDigit_of_startsIdentifier {c : Char} (hc : startsIdentifier c) : ¬ c.isDigit := by
  intro hd
  have halpha : c.isAlpha = (decide ('A'.val ≤ c.val ∧ c.val ≤ 'Z'.val) ||
    decide ('a'.val ≤ c.val) && decide (c.val ≤ 'z'.val)) := rfl
  simp only [Char.isDigit, Bool.and_eq_true, decide_eq_true_eq, ge_iff_le,
    UInt32.le_iff_toNat_le] at hd
  simp only [startsIdentifier, halpha, Bool.or_eq_true, Bool.and_eq_true, decide_eq_true_eq,
    UInt32.le_iff_toNat_le, Char.toNat] at hc
  have h0 : '0'.val.toNat = 48 := rfl
  have h9 : '9'.val.toNat = 57 := rfl
  have hA : 'A'.val.toNat = 65 := rfl
  have ha : 'a'.val.toNat = 97 := rfl
  rcases hc with (((h | h) | rfl) | rfl) | h
  · omega
  · omega
  · exact absurd hd (by decide)
  · exact absurd hd (by decide)
  · omega

theorem tokenizes_number {w : List Char} (hw : isNumber w) :
    Tokenizes w [.operand (.number (String.ofList w))] := by
  have hword : Token.ofWord w = .operand (.number (String.ofList w)) := by
    simp [Token.ofWord, Grouping.ofWord?, hw]
  simp only [isNumber, Bool.and_eq_true, Bool.not_eq_true', List.isEmpty_eq_false_iff,
    List.all_eq_true] at hw
  intro rest hrest
  rw [tokenize_word hw.1 (fun c hc => endsWord_of_isDigit (hw.2 c hc)) hrest, hword]; rfl

theorem ofName_of_not_mem {s : String} (hs : s ∉ ["true", "false", "null"]) :
    Grouping.ofName s = .name s := by
  unfold Grouping.ofName
  split <;> simp_all

theorem tokenizes_name {w : List Char} (hw : isIdentifier w) :
    Tokenizes w [.operand (Grouping.ofName (String.ofList w))] := by
  cases w with
  | nil => cases hw
  | cons c cs =>
    have hw' := hw
    simp only [isIdentifier, Bool.and_eq_true, List.all_eq_true, Bool.or_eq_true] at hw'
    have hnumber : isNumber (c :: cs) = false := by
      simp [isNumber, not_isDigit_of_startsIdentifier hw'.1]
    have hword : Token.ofWord (c :: cs) = .operand (Grouping.ofName (String.ofList (c :: cs))) := by
      simp only [Token.ofWord, Grouping.ofWord?, hnumber, hw]; rfl
    have hall : ∀ d ∈ c :: cs, endsWord d = false := by
      intro d hd
      rcases List.mem_cons.mp hd with rfl | hd
      · exact endsWord_of_startsIdentifier hw'.1
      · exact (hw'.2 d hd).elim endsWord_of_startsIdentifier endsWord_of_isDigit
    intro rest hrest
    rw [tokenize_word (List.cons_ne_nil _ _) hall hrest, hword]; rfl

mutual

/-- **The text of an ordinary expression has its tokens.** -/
theorem Expression.tokenizes_text : ∀ e : Expression, e.ordinary → Tokenizes e.text e.tokens
  | .number token, he => by
    simpa [Expression.text, Expression.tokens] using tokenizes_number he
  | .boolean value, _ => by
    cases value <;> exact tokenizes_name rfl
  | .string text, _ => by
    intro rest _
    simp [Expression.text, Expression.tokens, tokenize_quote]
  | .null, _ => tokenizes_name rfl
  | .name identifier, he => by
    simp only [Expression.ordinary, Expression.every, Expression.wellSpelled, Bool.and_eq_true,
      decide_eq_true_eq] at he
    simpa [Expression.text, Expression.tokens, ofName_of_not_mem he.2] using tokenizes_name he.1
  | .parenthesized inner, he => by
    simp only [Expression.ordinary, Expression.every, Bool.and_eq_true] at he
    exact (inner.tokenizes_text he.2).wrap true
  | .chain type? operator left right extended, he => by
    simp only [Expression.ordinary, Expression.every, Bool.and_eq_true] at he
    have hleft := (left.tokenizes_text he.1.1.2).wrap (left.needsParentheses type? operator true)
    have hright := (right.tokenizes_text he.1.2).wrap (right.needsParentheses type? operator false)
    simpa only [Expression.text, Expression.tokens] using
      tokenizes_operands extended he.2 (hleft.join (separates_operator operator) hright)
  | .conditional condition thenExpression elseExpression, he => by
    simp only [Expression.ordinary, Expression.every, Bool.and_eq_true] at he
    have hcondition := (condition.tokenizes_text he.1.1.2).wrap condition.isConditional
    have hthen := hcondition.join separates_question (thenExpression.tokenizes_text he.1.2)
    have helse := hthen.join separates_colon (elseExpression.tokenizes_text he.2)
    simpa only [Expression.text, Expression.tokens] using helse

theorem tokenizes_operands {type? : Option TypeRef} {operator : Operator} :
    ∀ xs : List Expression, everyOperand Expression.wellSpelled xs →
      ∀ {a : List Char} {x : List Token}, Tokenizes a x →
        Tokenizes (a ++ operandsText type? operator xs) (x ++ operandsTokens type? operator xs)
  | [], _, a, x, ha => by simpa [operandsText, operandsTokens] using ha
  | operand :: rest, hxs, a, x, ha => by
    simp only [everyOperand, Bool.and_eq_true] at hxs
    have hoperand := (operand.tokenizes_text hxs.1).wrap
      (operand.needsParentheses type? operator false)
    simpa [operandsText, operandsTokens, List.append_assoc] using
      tokenizes_operands rest hxs.2 (ha.join (separates_operator operator) hoperand)

end

end Texts

end SyntaxForest
