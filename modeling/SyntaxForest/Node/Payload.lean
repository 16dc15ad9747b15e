import SyntaxForest.Node.Handle
import SyntaxForest.Node.Kind
import SyntaxForest.Operator
import SyntaxForest.Span
import SyntaxForest.Types.Binding

/-!
# Nodes: literals, operators, children

The payload of a node is what its kind determines: a literal, an identifier or an operator, and the
children. A child stands either in a slot, which holds at most one, or in a sequence. Four functions
describe the children:

* `slot?` and `seq?` look at one field, and `setSlot` and `setSeq` write it;
* `childFields` lists the children with their fields, in the order of traversal;
* `children` lists them alone;
* `traverseChildren` rebuilds the payload with every child passed through an action, in that order.

A chain `a + b + c + d` is one node with the left operand `a`, the right operand `b` and the
extended operands `c` and `d`.
-/

namespace SyntaxForest

/-- What the kind of a node determines, its children included. -/
inductive Payload where
  | number (token : String)
  | boolean (value : Bool)
  | string (text : String)
  | null
  | name (identifier : String)
  | parenthesized (expression : Option Handle)
  | chain (operator : Operator) (left right : Option Handle) (extended : List Handle)
  | conditional (condition thenExpression elseExpression : Option Handle)
  | expressionStatement (expression : Option Handle)
  | returnStatement (expression : Option Handle)
  | block (statements : List Handle)
  | ifStatement (condition thenStatement elseStatement : Option Handle)
deriving DecidableEq, Repr, Inhabited

/-- A node: its payload, and the type and the source range that it may carry. -/
structure Node where
  payload : Payload
  type? : Option TypeRef := none
  span? : Option Span := none
deriving DecidableEq, Repr, Inhabited

namespace Payload

/-- The kind of node that the payload makes. -/
def kind : Payload → Kind
  | number _ => .number
  | boolean _ => .boolean
  | string _ => .string
  | null => .null
  | name _ => .name
  | parenthesized _ => .parenthesized
  | chain .. => .chain
  | conditional .. => .conditional
  | expressionStatement _ => .expressionStatement
  | returnStatement _ => .returnStatement
  | block _ => .block
  | ifStatement .. => .ifStatement

/-! ### Single fields -/

/-- The occupant of a slot, if the payload has that slot. -/
def slot? : Payload → Field → Option (Option Handle)
  | parenthesized e, .expression => some e
  | expressionStatement e, .expression => some e
  | returnStatement e, .expression => some e
  | chain _ l _ _, .leftOperand => some l
  | chain _ _ r _, .rightOperand => some r
  | conditional c _ _, .expression => some c
  | conditional _ t _, .thenExpression => some t
  | conditional _ _ e, .elseExpression => some e
  | ifStatement c _ _, .expression => some c
  | ifStatement _ t _, .thenStatement => some t
  | ifStatement _ _ e, .elseStatement => some e
  | _, _ => none

/-- The payload with another occupant in a slot; the same payload if it has no such slot. -/
def setSlot : Payload → Field → Option Handle → Payload
  | parenthesized _, .expression, h => parenthesized h
  | expressionStatement _, .expression, h => expressionStatement h
  | returnStatement _, .expression, h => returnStatement h
  | chain o _ r xs, .leftOperand, h => chain o h r xs
  | chain o l _ xs, .rightOperand, h => chain o l h xs
  | conditional _ t e, .expression, h => conditional h t e
  | conditional c _ e, .thenExpression, h => conditional c h e
  | conditional c t _, .elseExpression, h => conditional c t h
  | ifStatement _ t e, .expression, h => ifStatement h t e
  | ifStatement c _ e, .thenStatement, h => ifStatement c h e
  | ifStatement c t _, .elseStatement, h => ifStatement c t h
  | p, _, _ => p

/-- The elements of a sequence, if the payload has that sequence. -/
def seq? : Payload → Field → Option (List Handle)
  | chain _ _ _ xs, .extendedOperands => some xs
  | block xs, .statements => some xs
  | _, _ => none

/-- The payload with other elements in a sequence; the same payload if it has no such sequence. -/
def setSeq : Payload → Field → List Handle → Payload
  | chain o l r _, .extendedOperands, xs => chain o l r xs
  | block _, .statements, xs => block xs
  | p, _, _ => p

/-- Whether the field is a slot that may be left empty. -/
def isOptional : Payload → Field → Bool
  | returnStatement _, .expression => true
  | ifStatement .., .elseStatement => true
  | _, _ => false

/-! ### All children -/

/-- A field paired with each of the children in it. -/
def labelled (field : Field) (children : List Handle) : List (Field × Handle) :=
  children.map (fun h => (field, h))

/-- The children with the fields that hold them, in the order of traversal. -/
def childFields : Payload → List (Field × Handle)
  | number _ | boolean _ | string _ | null | name _ => []
  | parenthesized e | expressionStatement e | returnStatement e => labelled .expression e.toList
  | chain _ l r xs =>
    labelled .leftOperand l.toList ++ labelled .rightOperand r.toList ++
      labelled .extendedOperands xs
  | conditional c t e =>
    labelled .expression c.toList ++ labelled .thenExpression t.toList ++
      labelled .elseExpression e.toList
  | block xs => labelled .statements xs
  | ifStatement c t e =>
    labelled .expression c.toList ++ labelled .thenStatement t.toList ++
      labelled .elseStatement e.toList

/-- The children in the order of traversal. -/
def children (p : Payload) : List Handle := p.childFields.map Prod.snd

/-- The first field that holds a given child. -/
def fieldOf? (p : Payload) (child : Handle) : Option Field :=
  (p.childFields.find? (fun entry => entry.2 = child)).map Prod.fst

/-- The payload with every child passed through `f`, in the order of traversal. -/
def traverseChildren {m : Type → Type} [Monad m] (f : Handle → m Handle) : Payload → m Payload
  | parenthesized e => parenthesized <$> e.mapM f
  | chain o l r xs => do return chain o (← l.mapM f) (← r.mapM f) (← xs.mapM f)
  | conditional c t e => do return conditional (← c.mapM f) (← t.mapM f) (← e.mapM f)
  | expressionStatement e => expressionStatement <$> e.mapM f
  | returnStatement e => returnStatement <$> e.mapM f
  | block xs => block <$> xs.mapM f
  | ifStatement c t e => do return ifStatement (← c.mapM f) (← t.mapM f) (← e.mapM f)
  | p => pure p

end Payload

namespace Node

/-- The kind of the node. -/
def kind (n : Node) : Kind := n.payload.kind

/-- The children of the node, in the order of traversal. -/
def children (n : Node) : List Handle := n.payload.children

end Node

end SyntaxForest
