import SyntaxForest.Tree.Basic
import SyntaxForest.Tree.Literal

/-!
# Trees: their source text

An expression is written on one line. Parentheses are added to an operand of a chain only where the
text would read differently without them:

* around a conditional;
* around a chain whose operator binds looser;
* around a chain whose operator binds as tightly, unless it is the first operand or regrouping it
  does not change its meaning. It does not if both chains have the same associative operator and the
  same type, and that type is an integral one or `boolean`; strings and floating-point numbers do
  not regroup.

The condition of a conditional is put in parentheses if it is a conditional. Parentheses that are
nodes of the tree are always written.

A block has one statement per line, each indented by four spaces more than the block.
-/

namespace SyntaxForest

/-- Whether the grouping of two chains of these types may be left out. -/
def regroups (outer inner : Option TypeRef) : Bool :=
  match outer, inner with
  | some a, some b => a.same b && (a.binding.isIntegral || a.binding.isBoolean)
  | _, _ => false

namespace Expression

/-- Whether the expression is a conditional. -/
def isConditional : Expression → Bool
  | conditional .. => true
  | _ => false

/-- Whether an expression needs parentheses as an operand of a chain with the given type and
operator, as its first operand or as a later one. -/
def needsParentheses (type? : Option TypeRef) (operator : Operator) (first : Bool) :
    Expression → Bool
  | conditional .. => true
  | chain inner? inner .. =>
    inner.precedence < operator.precedence ||
      (inner.precedence = operator.precedence && !first &&
        !(inner = operator && operator.isAssociative && regroups type? inner?))
  | _ => false

end Expression

/-- A text with or without parentheses around it. -/
def wrap (parentheses : Bool) (text : List Char) : List Char :=
  if parentheses then '(' :: text ++ [')'] else text

/-- An operator with the spaces around it. -/
def Operator.spaced (o : Operator) : List Char := ' ' :: o.symbol.toList ++ [' ']

mutual

/-- The text of an expression. -/
def Expression.text : Expression → List Char
  | .number token => token.toList
  | .boolean value => (if value then "true" else "false").toList
  | .string text => Literal.quote text.toList
  | .null => "null".toList
  | .name identifier => identifier.toList
  | .parenthesized inner => '(' :: inner.text ++ [')']
  | .chain type? operator left right extended =>
    wrap (left.needsParentheses type? operator true) left.text ++
      operator.spaced ++ wrap (right.needsParentheses type? operator false) right.text ++
      operandsText type? operator extended
  | .conditional condition thenExpression elseExpression =>
    wrap condition.isConditional condition.text ++ " ? ".toList ++ thenExpression.text ++
      " : ".toList ++ elseExpression.text

/-- The text of the later operands of a chain, each after its operator. -/
def operandsText (type? : Option TypeRef) (operator : Operator) : List Expression → List Char
  | [] => []
  | operand :: rest =>
    operator.spaced ++ wrap (operand.needsParentheses type? operator false) operand.text ++
      operandsText type? operator rest

end

/-- A new line, indented for a statement inside the given number of blocks. -/
def newLine (depth : Nat) : List Char := '\n' :: List.replicate (4 * depth) ' '

mutual

/-- The text of a statement inside the given number of blocks. -/
def Statement.text (depth : Nat) : Statement → List Char
  | .expression value => value.text ++ [';']
  | .ret none => "return;".toList
  | .ret (some value) => "return ".toList ++ value.text ++ [';']
  | .block [] => "\x7b\x7d".toList
  | .block (first :: rest) =>
    '\x7b' :: newLine (depth + 1) ++ first.text (depth + 1) ++ linesText (depth + 1) rest ++
      newLine depth ++ ['\x7d']
  | .branch condition thenStatement elseStatement =>
    "if (".toList ++ condition.text ++ ") ".toList ++ thenStatement.text depth ++
      elseText depth elseStatement

/-- The text of the statements of a block, each on a new line. -/
def linesText (depth : Nat) : List Statement → List Char
  | [] => []
  | statement :: rest => newLine depth ++ statement.text depth ++ linesText depth rest

/-- The text of the second branch, if there is one. -/
def elseText (depth : Nat) : Option Statement → List Char
  | none => []
  | some statement => " else ".toList ++ statement.text depth

end

/-- The text of an expression or of a statement outside any block. -/
def Fragment.text : Fragment → List Char
  | .expression e => e.text
  | .statement s => s.text 0

end SyntaxForest
