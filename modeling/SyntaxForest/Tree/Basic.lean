import SyntaxForest.Operator
import SyntaxForest.Types.Binding

/-!
# Trees: expressions and statements

The shape of one program tree, without handles. Of the types that nodes carry it keeps those of
chains, on which the text of a tree depends.
-/

namespace SyntaxForest

/-- An expression. A chain has two operands or more, all joined by the same operator. -/
inductive Expression where
  | number (token : String)
  | boolean (value : Bool)
  | string (text : String)
  | null
  | name (identifier : String)
  | parenthesized (inner : Expression)
  | chain (type? : Option TypeRef) (operator : Operator) (left right : Expression)
      (extended : List Expression)
  | conditional (condition thenExpression elseExpression : Expression)
deriving Repr, Inhabited

/-- A statement. -/
inductive Statement where
  | expression (value : Expression)
  | ret (value : Option Expression)
  | block (statements : List Statement)
  | branch (condition : Expression) (thenStatement : Statement) (elseStatement : Option Statement)
deriving Repr, Inhabited

/-- An expression or a statement. -/
inductive Fragment where
  | expression (e : Expression)
  | statement (s : Statement)
deriving Repr, Inhabited

end SyntaxForest
