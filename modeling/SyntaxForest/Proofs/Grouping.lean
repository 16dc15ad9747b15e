import SyntaxForest.Tree.Text

/-! # How trees group

The grouping of an expression is the binary tree that it stands for: parentheses that are nodes are
left out, and a chain groups from the left (`Expression.grouping`). How tightly an expression holds
together as an operand is its `strength`: a conditional is weakest, then come the chains by the
precedence of their operator, and all others are strongest. Without types, parentheses depend on the
strength alone (`needsParentheses_first`, `needsParentheses_later`).

A number is ordinary if it is a run of digits, and a name if it is an identifier and no literal. -/

namespace SyntaxForest

/-! ### Groupings -/

/-- A binary tree of operands, operators and conditionals. -/
inductive Grouping where
  | number (token : String)
  | boolean (value : Bool)
  | string (text : String)
  | null
  | name (identifier : String)
  | binary (left : Grouping) (operator : Operator) (right : Grouping)
  | conditional (condition thenGrouping elseGrouping : Grouping)
deriving DecidableEq, Repr

mutual

/-- **The grouping of an expression.** -/
def Expression.grouping : Expression → Grouping
  | .number token => .number token
  | .boolean value => .boolean value
  | .string text => .string text
  | .null => .null
  | .name identifier => .name identifier
  | .parenthesized inner => inner.grouping
  | .chain _ operator left right extended =>
    groupedFrom operator (.binary left.grouping operator right.grouping) extended
  | .conditional condition thenExpression elseExpression =>
    .conditional condition.grouping thenExpression.grouping elseExpression.grouping

/-- The grouping of a chain with more operands. -/
def groupedFrom (operator : Operator) (left : Grouping) : List Expression → Grouping
  | [] => left
  | operand :: rest => groupedFrom operator (.binary left operator operand.grouping) rest

end

/-! ### Strength -/

/-- How tightly an operator binds, from one on. -/
def Operator.strength (o : Operator) : Nat := o.precedence.level + 1

theorem Operator.strength_pos (o : Operator) : 0 < o.strength := Nat.succ_pos _

theorem Operator.strength_le (o : Operator) : o.strength ≤ 10 := by cases o <;> decide

theorem Operator.precedence_lt_iff {a b : Operator} :
    a.precedence < b.precedence ↔ a.strength < b.strength := by
  rw [Precedence.lt_def]; unfold strength; omega

theorem Operator.precedence_eq_iff {a b : Operator} :
    a.precedence = b.precedence ↔ a.strength = b.strength := by
  rw [← Precedence.level_inj]; unfold strength; omega

namespace Expression

/-- How tightly an expression holds together as an operand. -/
def strength : Expression → Nat
  | conditional .. => 0
  | chain _ operator .. => operator.strength
  | _ => 11

theorem needsParentheses_first (type? : Option TypeRef) (o : Operator) (e : Expression) :
    e.needsParentheses type? o true ↔ e.strength < o.strength := by
  have hpos := o.strength_pos
  have hle := o.strength_le
  cases e with
  | chain => simp [needsParentheses, strength, Operator.precedence_lt_iff]
  | conditional => simpa [needsParentheses, strength] using hpos
  | _ => simp only [needsParentheses, strength, Bool.false_eq_true, false_iff]; omega

/-- A later operand needs parentheses, without types, unless it is stronger than the operator. -/
theorem needsParentheses_later (o : Operator) (e : Expression) :
    e.needsParentheses none o false ↔ e.strength ≤ o.strength := by
  have hle := o.strength_le
  cases e with
  | chain =>
    simp [needsParentheses, strength, regroups, Operator.precedence_lt_iff,
      Operator.precedence_eq_iff, Nat.le_iff_lt_or_eq]
  | conditional => simp [needsParentheses, strength]
  | _ => simp only [needsParentheses, strength, Bool.false_eq_true, false_iff]; omega

theorem isConditional_iff (e : Expression) : e.isConditional ↔ e.strength < 1 := by
  cases e with
  | chain _ o => simpa [isConditional, strength] using Nat.pos_iff_ne_zero.mp o.strength_pos
  | _ => simp [isConditional, strength]

end Expression

/-! ### Ordinary untyped expressions -/

mutual

/-- Whether an expression and all expressions in it pass a test. -/
def Expression.every (p : Expression → Bool) : Expression → Bool
  | .parenthesized inner => p (.parenthesized inner) && inner.every p
  | .chain type? operator left right extended =>
    p (.chain type? operator left right extended) && left.every p && right.every p &&
      everyOperand p extended
  | .conditional condition thenExpression elseExpression =>
    p (.conditional condition thenExpression elseExpression) && condition.every p &&
      thenExpression.every p && elseExpression.every p
  | e => p e

/-- Whether all expressions in several operands pass a test. -/
def everyOperand (p : Expression → Bool) : List Expression → Bool
  | [] => true
  | operand :: rest => operand.every p && everyOperand p rest

end

/-- Whether a character may start an identifier. All characters beyond ASCII may. -/
def startsIdentifier (c : Char) : Bool := c.isAlpha || c = '_' || c = '$' || decide (127 < c.toNat)

/-- Whether the characters make an identifier. -/
def isIdentifier : List Char → Bool
  | [] => false
  | c :: cs => startsIdentifier c && cs.all fun d => startsIdentifier d || d.isDigit

/-- Whether the characters make a number. -/
def isNumber (cs : List Char) : Bool := !cs.isEmpty && cs.all Char.isDigit

namespace Expression

/-- Whether the expression is no chain with a type. -/
def lacksType : Expression → Bool
  | chain type? .. => type?.isNone
  | _ => true

/-- Whether a number is a run of digits, and a name is an identifier and no literal. -/
def wellSpelled : Expression → Bool
  | number token => isNumber token.toList
  | name identifier =>
    isIdentifier identifier.toList && decide (identifier ∉ ["true", "false", "null"])
  | _ => true

/-- Whether no chain in the expression has a type. -/
def untyped (e : Expression) : Bool := e.every lacksType

/-- Whether all numbers and names in the expression are ordinary. -/
def ordinary (e : Expression) : Bool := e.every wellSpelled

end Expression

end SyntaxForest
