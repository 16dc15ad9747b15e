/-!
# Kinds, categories, fields

A node has one of twelve kinds. A kind belongs to one of two categories, expressions and statements.
The children of a node stand in fields, and a field takes nodes of one category only.
-/

namespace SyntaxForest

/-- Expressions have a value, statements are executed. -/
inductive Category where
  | expression
  | statement
deriving DecidableEq, Repr, Inhabited

namespace Category

/-- The category as it stands in messages. -/
def name : Category → String
  | expression => "Expression"
  | statement => "Statement"

end Category

/-- The kinds of nodes. -/
inductive Kind where
  | number
  | boolean
  | string
  | null
  | name
  | parenthesized
  | chain
  | conditional
  | expressionStatement
  | returnStatement
  | block
  | ifStatement
deriving DecidableEq, Repr, Inhabited

namespace Kind

/-- Every kind, in the order of declaration. -/
def all : List Kind :=
  [number, boolean, string, null, name, parenthesized, chain, conditional, expressionStatement,
    returnStatement, block, ifStatement]

/-- The kind as it stands in messages. -/
def display : Kind → String
  | number => "NumberLiteral"
  | boolean => "BooleanLiteral"
  | string => "StringLiteral"
  | null => "NullLiteral"
  | name => "SimpleName"
  | parenthesized => "ParenthesizedExpression"
  | chain => "InfixExpression"
  | conditional => "ConditionalExpression"
  | expressionStatement => "ExpressionStatement"
  | returnStatement => "ReturnStatement"
  | block => "Block"
  | ifStatement => "IfStatement"

/-- The category that nodes of the kind belong to. -/
def category : Kind → Category
  | expressionStatement | returnStatement | block | ifStatement => .statement
  | _ => .expression

/-- Whether nodes of the kind are expressions. -/
def isExpression (k : Kind) : Bool := k.category = .expression

/-- Whether nodes of the kind are statements. -/
def isStatement (k : Kind) : Bool := k.category = .statement

end Kind

/-- The places of a node that hold children. -/
inductive Field where
  | expression
  | leftOperand
  | rightOperand
  | extendedOperands
  | thenExpression
  | elseExpression
  | thenStatement
  | elseStatement
  | statements
deriving DecidableEq, Repr, Inhabited

namespace Field

/-- Every field, in the order of declaration. -/
def all : List Field :=
  [expression, leftOperand, rightOperand, extendedOperands, thenExpression, elseExpression,
    thenStatement, elseStatement, statements]

/-- The field as it stands in messages. -/
def name : Field → String
  | expression => "expression"
  | leftOperand => "left_operand"
  | rightOperand => "right_operand"
  | extendedOperands => "extended_operands"
  | thenExpression => "then_expression"
  | elseExpression => "else_expression"
  | thenStatement => "then_statement"
  | elseStatement => "else_statement"
  | statements => "statements"

/-- The category of the nodes that the field takes. -/
def category : Field → Category
  | thenStatement | elseStatement | statements => .statement
  | _ => .expression

end Field

end SyntaxForest
