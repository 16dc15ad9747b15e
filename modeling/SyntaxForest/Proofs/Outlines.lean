import SyntaxForest.Proofs.Scanning

/-! # Outlines of statements

The outline of a statement is the statement with the groupings of its expressions
(`Statement.outline`). The text of a statement has the tokens of its expressions and, between them,
braces, semicolons and keywords. A keyword is spelled like a name, so a statement is ordinary only
if no name in it is one.

* `tokenize_text_append`: the text of an ordinary statement, in any number of blocks, has its
  tokens. -/

namespace SyntaxForest

/-! ### Outlines -/

/-- A statement with groupings for its expressions. -/
inductive Outline where
  | value (g : Grouping)
  | ret (g? : Option Grouping)
  | block (outlines : List Outline)
  | branch (condition : Grouping) (thenOutline : Outline) (elseOutline : Option Outline)
deriving Repr

mutual

/-- **The outline of a statement.** -/
def Statement.outline : Statement → Outline
  | .expression value => .value value.grouping
  | .ret value => .ret (value.map Expression.grouping)
  | .block statements => .block (outlines statements)
  | .branch condition thenStatement elseStatement =>
    .branch condition.grouping thenStatement.outline (elseOutline elseStatement)

/-- The outlines of the statements of a block. -/
def outlines : List Statement → List Outline
  | [] => []
  | statement :: rest => statement.outline :: outlines rest

/-- The outline of the second branch, if there is one. -/
def elseOutline : Option Statement → Option Outline
  | none => none
  | some statement => some statement.outline

end

/-! ### Ordinary untyped statements -/

/-- The words that start statements and branches. -/
def keywords : List String := ["if", "else", "return"]

/-- Whether the expression is no name that is a keyword. -/
def Expression.isNoKeyword : Expression → Bool
  | name identifier => decide (identifier ∉ keywords)
  | _ => true

/-- Whether no name in the expression is a keyword. -/
def Expression.lacksKeywords (e : Expression) : Bool := e.every isNoKeyword

mutual

/-- Whether all expressions of a statement pass a test. -/
def Statement.every (p : Expression → Bool) : Statement → Bool
  | .expression value => p value
  | .ret value => value.all p
  | .block statements => everyStatement p statements
  | .branch condition thenStatement elseStatement =>
    p condition && thenStatement.every p && everyElse p elseStatement

/-- Whether all expressions of the statements of a block pass a test. -/
def everyStatement (p : Expression → Bool) : List Statement → Bool
  | [] => true
  | statement :: rest => statement.every p && everyStatement p rest

/-- Whether all expressions of the second branch pass a test. -/
def everyElse (p : Expression → Bool) : Option Statement → Bool
  | none => true
  | some statement => statement.every p

end

namespace Statement

/-- Whether no chain in the statement has a type. -/
def untyped (s : Statement) : Bool := s.every Expression.untyped

/-- Whether all numbers and names in the statement are ordinary, and no name is a keyword. -/
def ordinary (s : Statement) : Bool := s.every fun e => e.ordinary && e.lacksKeywords

end Statement

/-! ### The tokens of a statement -/

namespace Token

/-- The token of a keyword. -/
def keyword (word : String) : Token := .operand (.name word)

/-- The token of a brace or a semicolon. -/
def mark (c : Char) : Token := .other (.mark c)

end Token

mutual

/-- **The tokens of a statement.** -/
def Statement.tokens : Statement → List Token
  | .expression value => value.tokens ++ [.mark ';']
  | .ret none => [.keyword "return", .mark ';']
  | .ret (some value) => .keyword "return" :: value.tokens ++ [.mark ';']
  | .block statements => .mark '\x7b' :: statementsTokens statements ++ [.mark '\x7d']
  | .branch condition thenStatement elseStatement =>
    .keyword "if" :: .opening :: condition.tokens ++ .closing :: thenStatement.tokens ++
      elseTokens elseStatement

/-- The tokens of the statements of a block. -/
def statementsTokens : List Statement → List Token
  | [] => []
  | statement :: rest => statement.tokens ++ statementsTokens rest

/-- The tokens of the second branch, if there is one. -/
def elseTokens : Option Statement → List Token
  | none => []
  | some statement => .keyword "else" :: statement.tokens

end

/-! ### The tokens of a text -/

section Texts

open Lexeme

theorem tokenize_space {c : Char} (hc : isSpace c) (cs : List Char) :
    tokenize (c :: cs) = tokenize cs := by
  have hquote : c ≠ '"' := by rintro rfl; cases hc
  rw [tokenize, scan, if_neg hquote, if_pos hc]; rfl

theorem tokenize_newLine (depth : Nat) (cs : List Char) :
    tokenize (newLine depth ++ cs) = tokenize cs := by
  have hspaces : ∀ n, tokenize (List.replicate n ' ' ++ cs) = tokenize cs := by
    intro n
    induction n with
    | zero => rfl
    | succ n ih => rw [List.replicate_succ, List.cons_append, tokenize_space rfl, ih]
  rw [newLine, List.cons_append, tokenize_space rfl, hspaces]

theorem tokenize_mark {c : Char} (hc : c ∈ ['\x7b', '\x7d', ';']) (cs : List Char) :
    tokenize (c :: cs) = .mark c :: tokenize cs := by
  simp only [List.mem_cons, List.not_mem_nil, or_false] at hc
  rcases hc with rfl | rfl | rfl <;>
    · rw [tokenize, scan_mark (by decide) (by decide) (by decide)]; rfl

theorem tokenize_keyword {word : String} (hw : word ∈ keywords) {rest : List Char}
    (hrest : goesOn rest = false) :
    tokenize (word.toList ++ rest) = .keyword word :: tokenize rest := by
  simp only [keywords, List.mem_cons, List.not_mem_nil, or_false] at hw
  rcases hw with rfl | rfl | rfl <;> exact tokenizes_name rfl rest hrest

theorem Expression.tokenize_text_append {e : Expression} (he : e.ordinary) {c : Char}
    (hc : endsWord c) (rest : List Char) :
    tokenize (e.text ++ c :: rest) = e.tokens ++ tokenize (c :: rest) :=
  e.tokenizes_text he _ (by simp [goesOn, hc])

namespace Statement

variable (depth : Nat) (value condition : Expression) (statement : Statement)

theorem text_expression : (expression value).text depth = value.text ++ [';'] := rfl

theorem text_ret_none : (ret none).text depth = "return;".toList := rfl

theorem text_ret_some :
    (ret (some value)).text depth = "return ".toList ++ value.text ++ [';'] := rfl

theorem text_block_nil : (block []).text depth = ['\x7b', '\x7d'] := rfl

theorem text_block_cons (rest : List Statement) : (block (statement :: rest)).text depth =
    '\x7b' :: linesText (depth + 1) (statement :: rest) ++ newLine depth ++ ['\x7d'] := by
  have hlines : linesText (depth + 1) (statement :: rest) =
    newLine (depth + 1) ++ statement.text (depth + 1) ++ linesText (depth + 1) rest := rfl
  have hblock : (block (statement :: rest)).text depth = '\x7b' :: newLine (depth + 1) ++
    statement.text (depth + 1) ++ linesText (depth + 1) rest ++ newLine depth ++ ['\x7d'] := rfl
  rw [hblock, hlines]
  simp only [List.cons_append, List.append_assoc]

theorem text_branch (elseStatement : Option Statement) :
    (branch condition statement elseStatement).text depth = "if (".toList ++ condition.text ++
      ") ".toList ++ statement.text depth ++ elseText depth elseStatement := rfl

theorem elseText_some : elseText depth (some statement) = " else ".toList ++ statement.text depth :=
  rfl

end Statement

open Statement in
mutual

/-- **The text of an ordinary statement has its tokens**, whatever stands after it. -/
theorem Statement.tokenize_text_append : ∀ (s : Statement), s.ordinary → ∀ (depth : Nat)
    (rest : List Char), tokenize (s.text depth ++ rest) = s.tokens ++ tokenize rest
  | .expression value, hs, depth, rest => by
    simp only [ordinary, every, Bool.and_eq_true] at hs
    simp only [text_expression, tokens, List.append_assoc, List.cons_append, List.nil_append]
    rw [Expression.tokenize_text_append hs.1 rfl, tokenize_mark (by decide)]
  | .ret none, _, depth, rest => by
    have hsplit : "return;".toList = "return".toList ++ [';'] := by decide
    simp only [text_ret_none, tokens, hsplit, List.append_assoc, List.cons_append, List.nil_append]
    rw [tokenize_keyword (by decide) rfl, tokenize_mark (by decide)]
  | .ret (some value), hs, depth, rest => by
    simp only [ordinary, every, Option.all_some, Bool.and_eq_true] at hs
    have hsplit : "return ".toList = "return".toList ++ [' '] := by decide
    simp only [text_ret_some, tokens, hsplit, List.append_assoc, List.cons_append, List.nil_append]
    rw [tokenize_keyword (by decide) rfl, tokenize_space rfl,
      Expression.tokenize_text_append hs.1 rfl, tokenize_mark (by decide)]
  | .block [], _, depth, rest => by
    simp only [text_block_nil, tokens, statementsTokens, List.cons_append, List.nil_append]
    rw [tokenize_mark (by decide), tokenize_mark (by decide)]
  | .block (first :: statements), hs, depth, rest => by
    have hlines := tokenize_linesText_append (first :: statements) hs (depth + 1)
    simp only [text_block_cons, tokens, List.append_assoc, List.cons_append, List.nil_append]
    rw [tokenize_mark (by decide), hlines, tokenize_newLine, tokenize_mark (by decide)]
  | .branch condition thenStatement elseStatement, hs, depth, rest => by
    simp only [ordinary, every, Bool.and_eq_true] at hs
    obtain ⟨⟨hc, ht⟩, he⟩ := hs
    have hopening : "if (".toList = "if".toList ++ [' ', '('] := by decide
    have hclosing : ") ".toList = [')', ' '] := by decide
    simp only [text_branch, tokens, hopening, hclosing, List.append_assoc, List.cons_append,
      List.nil_append]
    rw [tokenize_keyword (by decide) rfl, tokenize_space rfl, tokenize_opening,
      Expression.tokenize_text_append hc.1 rfl, tokenize_closing, tokenize_space rfl,
      thenStatement.tokenize_text_append ht, tokenize_elseText_append elseStatement he]

theorem tokenize_linesText_append : ∀ (statements : List Statement),
    everyStatement (fun e => e.ordinary && e.lacksKeywords) statements → ∀ (depth : Nat)
      (rest : List Char), tokenize (linesText depth statements ++ rest) =
        statementsTokens statements ++ tokenize rest
  | [], _, _, _ => rfl
  | statement :: statements, hs, depth, rest => by
    simp only [everyStatement, Bool.and_eq_true] at hs
    have hfirst := statement.tokenize_text_append hs.1 depth
    have hlines := tokenize_linesText_append statements hs.2 depth rest
    simp only [linesText, statementsTokens, List.append_assoc, tokenize_newLine, hfirst, hlines]

theorem tokenize_elseText_append : ∀ (elseStatement : Option Statement),
    everyElse (fun e => e.ordinary && e.lacksKeywords) elseStatement → ∀ (depth : Nat)
      (rest : List Char), tokenize (elseText depth elseStatement ++ rest) =
        elseTokens elseStatement ++ tokenize rest
  | none, _, _, _ => rfl
  | some statement, hs, depth, rest => by
    have hsplit : " else ".toList = ' ' :: "else".toList ++ [' '] := by decide
    simp only [elseText_some, elseTokens, hsplit, List.append_assoc, List.cons_append,
      List.nil_append]
    rw [tokenize_space rfl, tokenize_keyword (by decide) rfl, tokenize_space rfl,
      statement.tokenize_text_append hs]

end

end Texts

end SyntaxForest
