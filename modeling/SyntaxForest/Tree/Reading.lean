import SyntaxForest.Forest.Slots
import SyntaxForest.Tree.Text

/-!
# Trees: reading them off a forest

The tree below a node, read off the forest from the node down. A path down a tree meets each entry
at most once, so a depth of as many levels as there are entries is enough.
-/

namespace SyntaxForest

namespace Forest

/-- The expression below a node, down to the given depth. -/
def expressionWithin (f : Forest) : Nat → Handle → Except TreeError Expression
  | 0, h => .error (.staleNode h)
  | n + 1, h => do
    let node ← f.node h
    let child := fun (field : Field) => do f.expressionWithin n (← f.required h field)
    match node.payload with
    | .number token => return .number token
    | .boolean value => return .boolean value
    | .string text => return .string text
    | .null => return .null
    | .name identifier => return .name identifier
    | .parenthesized _ => return .parenthesized (← child .expression)
    | .chain operator _ _ extended =>
      return .chain node.type? operator (← child .leftOperand) (← child .rightOperand)
        (← extended.mapM (f.expressionWithin n))
    | .conditional .. =>
      return .conditional (← child .expression) (← child .thenExpression) (← child .elseExpression)
    | other => throw (.categoryMismatch .expression .expression other.kind)

/-- The statement below a node, down to the given depth. -/
def statementWithin (f : Forest) : Nat → Handle → Except TreeError Statement
  | 0, h => .error (.staleNode h)
  | n + 1, h => do
    let node ← f.node h
    let expression := fun (field : Field) => do f.expressionWithin n (← f.required h field)
    match node.payload with
    | .expressionStatement _ => return .expression (← expression .expression)
    | .returnStatement value => return .ret (← value.mapM (f.expressionWithin n))
    | .block statements => return .block (← statements.mapM (f.statementWithin n))
    | .ifStatement _ _ elseStatement =>
      return .branch (← expression .expression)
        (← f.statementWithin n (← f.required h .thenStatement))
        (← elseStatement.mapM (f.statementWithin n))
    | other => throw (.categoryMismatch .statements .statement other.kind)

/-- The tree below a node. -/
def fragment (f : Forest) (h : Handle) : Except TreeError Fragment := do
  match (← f.kind h).category with
  | .expression => return .expression (← f.expressionWithin f.entries.size h)
  | .statement => return .statement (← f.statementWithin f.entries.size h)

/-- The source text of the tree below a node. -/
def sourceText (f : Forest) (h : Handle) : Except TreeError String := do
  return String.ofList (← f.fragment h).text

end Forest

end SyntaxForest
