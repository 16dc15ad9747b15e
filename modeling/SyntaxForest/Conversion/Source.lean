import SyntaxForest.Span

/-!
# Conversion: source trees

The tree that an outside reader of programs produced. It need not be well-formed: an operator is any
text, and an expression may stand where a statement is expected or the other way round. Each node
may tell the name of its resolved type and its range in the source text.
-/

namespace SyntaxForest

/-- What a source node tells besides its shape. -/
structure SourceInfo where
  typeName? : Option String := none
  span? : Option Span := none
deriving DecidableEq, Repr, Inhabited

/-- A node of a source tree with everything below it. -/
inductive SourceTree where
  | number (info : SourceInfo) (token : String)
  | boolean (info : SourceInfo) (value : Bool)
  | string (info : SourceInfo) (text : String)
  | null (info : SourceInfo)
  | name (info : SourceInfo) (identifier : String)
  | parenthesized (info : SourceInfo) (inner : SourceTree)
  | chain (info : SourceInfo) (symbol : String) (left right : SourceTree)
      (extended : List SourceTree)
  | conditional (info : SourceInfo) (condition thenExpression elseExpression : SourceTree)
  | expressionStatement (info : SourceInfo) (expression : SourceTree)
  | returnStatement (info : SourceInfo) (expression : Option SourceTree)
  | block (info : SourceInfo) (statements : List SourceTree)
  | ifStatement (info : SourceInfo) (condition thenStatement : SourceTree)
      (elseStatement : Option SourceTree)
deriving Repr, Inhabited

namespace SourceTree

/-- What the root of the tree tells besides its shape. -/
def info : SourceTree → SourceInfo
  | number info _ | boolean info _ | string info _ | null info | name info _
  | parenthesized info _ | chain info .. | conditional info .. | expressionStatement info _
  | returnStatement info _ | block info _ | ifStatement info .. => info

end SourceTree

end SyntaxForest
