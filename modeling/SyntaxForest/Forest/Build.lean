import SyntaxForest.Forest.Edit

/-!
# Forests: building nodes

A new node takes its children from the roots of the forest. Each child has to be live, detached, of
the category that its field takes, and distinct from the children before it; these are checked child
by child, in the order of traversal.
-/

namespace SyntaxForest

namespace Forest

/-- Checks that a node is live, detached, and of the category that a field takes. -/
def checkAttachable (f : Forest) (field : Field) (child : Handle) : Except TreeError Unit :=
  match f.live? child with
  | none => .error (.staleNode child)
  | some ⟨_, some owner⟩ => .error (.alreadyOwned child owner)
  | some ⟨node, none⟩ =>
    if node.kind.category = field.category then .ok ()
    else .error (.categoryMismatch field field.category node.kind)

/-- Checks that a new node may own the listed children, when those in `seen` came before them. -/
def checkChildren (f : Forest) (seen : List Handle) : List (Field × Handle) → Except TreeError Unit
  | [] => .ok ()
  | (field, child) :: rest => do
    f.checkAttachable field child
    if child ∈ seen then throw (.duplicateChild child)
    else f.checkChildren (child :: seen) rest

end Forest

namespace Edit

/-- Builds a node over the children that it lists. -/
def build (node : Node) : Edit Handle := do
  ask fun f => f.checkChildren [] node.payload.childFields
  store node

/-! ### Leaves -/

/-- A number, given as it is written. -/
def number (token : String) : Edit Handle := store { payload := .number token }

/-- A truth value. -/
def boolean (value : Bool) : Edit Handle := store { payload := .boolean value }

/-- A string, given by its characters. -/
def string (text : String) : Edit Handle := store { payload := .string text }

/-- The literal `null`. -/
def null : Edit Handle := store { payload := .null }

/-- A name. -/
def name (identifier : String) : Edit Handle := store { payload := .name identifier }

/-! ### Expressions -/

/-- An expression in explicit parentheses. -/
def parenthesized (expression : Handle) : Edit Handle :=
  build { payload := .parenthesized (some expression) }

/-- A chain of operands joined by one operator, with a type. -/
def chain (type? : Option TypeRef) (operator : Operator) (left right : Handle)
    (extended : List Handle) : Edit Handle :=
  build { payload := .chain operator (some left) (some right) extended, type? }

/-- A choice between two expressions, with a type. -/
def conditional (type? : Option TypeRef) (condition thenExpression elseExpression : Handle) :
    Edit Handle :=
  build
    { payload := .conditional (some condition) (some thenExpression) (some elseExpression), type? }

/-! ### Statements -/

/-- An expression as a statement. -/
def expressionStatement (expression : Handle) : Edit Handle :=
  build { payload := .expressionStatement (some expression) }

/-- A return, with or without a value. -/
def returnStatement (expression : Option Handle) : Edit Handle :=
  build { payload := .returnStatement expression }

/-- A block of statements. -/
def block (statements : List Handle) : Edit Handle := build { payload := .block statements }

/-- A choice between two statements, the second of which may be missing. -/
def ifStatement (condition thenStatement : Handle) (elseStatement : Option Handle) : Edit Handle :=
  build { payload := .ifStatement (some condition) (some thenStatement) elseStatement }

/-! ### Types and source ranges -/

/-- Gives a node another type, or none. -/
def setType (h : Handle) (type? : Option TypeRef) : Edit Unit := do
  let _ ← ask fun f => f.live h
  change fun f => f.update h fun l => { l with node := { l.node with type? } }

/-- Gives a node another source range, or none. -/
def setSpan (h : Handle) (span? : Option Span) : Edit Unit := do
  let _ ← ask fun f => f.live h
  change fun f => f.update h fun l => { l with node := { l.node with span? } }

end Edit

end SyntaxForest
