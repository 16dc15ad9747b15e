import SyntaxForest.Conversion.Error
import SyntaxForest.Conversion.Source
import SyntaxForest.Forest.Moves
import SyntaxForest.Types.Table

/-!
# Conversion: from source trees to nodes of a forest

A source tree is converted into a new detached root, all or nothing: the first fault ends the
conversion and the nodes made so far are freed. At each node the faults come in this order: the node
is too deep; its operator is not in the vocabulary; a fault inside one of its children, from left to
right, where a child that turns out to be of the wrong category comes after every fault inside it.

Types are resolved as nodes are made, and stay in the table when the conversion fails later.
-/

namespace SyntaxForest

/-- How to convert. The root is on level one. -/
structure ConversionOptions where
  maxDepth : Nat := 200
  keepSpans : Bool := true
deriving DecidableEq, Repr, Inhabited

/-- What a conversion works on. -/
structure Workspace where
  forest : Forest
  types : TypeTable
deriving Repr, Inhabited

/-- A step of a conversion. -/
abbrev Conversion (α : Type) := EStateM ConversionError Workspace α

namespace Conversion

variable {α : Type}

/-- Edits the forest. -/
def edit (e : Edit α) : Conversion α := fun ⟨forest, types⟩ =>
  match e forest with
  | .ok a forest => .ok a ⟨forest, types⟩
  | .error cause forest => .error (.tree cause) ⟨forest, types⟩

/-- Asks the table of types. -/
def request (r : TypeTable → α × TypeTable) : Conversion α := fun ⟨forest, types⟩ =>
  let (a, types) := r types
  .ok a ⟨forest, types⟩

/-- Runs a step; if it fails, frees the listed nodes before failing too. -/
def orFree (nodes : List Handle) (step : Conversion α) : Conversion α := fun w =>
  match step w with
  | .ok a w => .ok a w
  | .error cause ⟨forest, types⟩ => .error cause ⟨forest.freeSubtrees nodes, types⟩

/-- The operator with a symbol that a source node gives. -/
def operator (info : SourceInfo) (symbol : String) : Conversion Operator :=
  match Operator.ofSymbol symbol with
  | .ok o => pure o
  | .error e => throw (.unmappedOperator e info.span?)

/-- Gives a node the type that its source node names, if it names one. -/
def giveType (info : SourceInfo) (h : Handle) : Conversion Unit :=
  match info.typeName? with
  | none => pure ()
  | some name => do
    let type ← request fun types => types.resolve name
    edit (Edit.setType h (some type))

/-- Gives a node the range of its source node, if ranges are kept. -/
def giveSpan (options : ConversionOptions) (info : SourceInfo) (h : Handle) : Conversion Unit :=
  if options.keepSpans then edit (Edit.setSpan h info.span?) else pure ()

/-- Makes the node of a source node on the given level below the root, unless that is too deep, and
gives it its type and its range. -/
def atDepth (options : ConversionOptions) (depth : Nat) (info : SourceInfo)
    (make : Conversion Handle) : Conversion Handle :=
  if options.maxDepth ≤ depth then throw (.tooDeep options.maxDepth info.span?)
  else do
    let h ← make
    giveType info h
    giveSpan options info h
    return h

/-- Checks the category of a child that was made; one of the wrong category is freed. -/
def expect (expected : Category) (info : SourceInfo) (h : Handle) : Conversion Handle := do
  let found ← edit (Edit.ask fun f => f.kind h)
  if found.category = expected then return h
  else do
    edit (Edit.discard h)
    throw (.malformedSource expected found info.span?)

/-- Makes a child of the expected category after those in `before`, which are freed if that
fails. -/
def child (before : List Handle) (expected : Category) (info : SourceInfo)
    (make : Conversion Handle) : Conversion Handle :=
  orFree before (make >>= expect expected info)

/-- Builds a node over its children, which are freed if that fails. -/
def assemble (children : List Handle) (build : Edit Handle) : Conversion Handle :=
  orFree children (edit build)

end Conversion

open Conversion

mutual

/-- Converts a source tree whose root is `depth` levels below the root of the whole. -/
def SourceTree.convertAt (options : ConversionOptions) (depth : Nat) :
    SourceTree → Conversion Handle
  | .number info token => atDepth options depth info (edit (Edit.number token))
  | .boolean info value => atDepth options depth info (edit (Edit.boolean value))
  | .string info text => atDepth options depth info (edit (Edit.string text))
  | .null info => atDepth options depth info (edit Edit.null)
  | .name info identifier => atDepth options depth info (edit (Edit.name identifier))
  | .parenthesized info inner => atDepth options depth info do
    let e ← child [] .expression inner.info (inner.convertAt options (depth + 1))
    assemble [e] (Edit.parenthesized e)
  | .chain info symbol left right extended => atDepth options depth info do
    let o ← operator info symbol
    let l ← child [] .expression left.info (left.convertAt options (depth + 1))
    let r ← child [l] .expression right.info (right.convertAt options (depth + 1))
    let xs ← convertAll options (depth + 1) .expression [l, r] extended
    assemble (l :: r :: xs) (Edit.chain none o l r xs)
  | .conditional info condition thenExpression elseExpression => atDepth options depth info do
    let c ← child [] .expression condition.info (condition.convertAt options (depth + 1))
    let t ← child [c] .expression thenExpression.info (thenExpression.convertAt options (depth + 1))
    let e ←
      child [c, t] .expression elseExpression.info (elseExpression.convertAt options (depth + 1))
    assemble [c, t, e] (Edit.conditional none c t e)
  | .expressionStatement info expression => atDepth options depth info do
    let e ← child [] .expression expression.info (expression.convertAt options (depth + 1))
    assemble [e] (Edit.expressionStatement e)
  | .returnStatement info expression => atDepth options depth info do
    let e ← convertOptional options (depth + 1) .expression [] expression
    assemble e.toList (Edit.returnStatement e)
  | .block info statements => atDepth options depth info do
    let xs ← convertAll options (depth + 1) .statement [] statements
    assemble xs (Edit.block xs)
  | .ifStatement info condition thenStatement elseStatement => atDepth options depth info do
    let c ← child [] .expression condition.info (condition.convertAt options (depth + 1))
    let t ← child [c] .statement thenStatement.info (thenStatement.convertAt options (depth + 1))
    let e ← convertOptional options (depth + 1) .statement [c, t] elseStatement
    assemble ([c, t] ++ e.toList) (Edit.ifStatement c t e)

/-- Converts source trees of one expected category after the children in `before`. -/
def convertAll (options : ConversionOptions) (depth : Nat) (expected : Category)
    (before : List Handle) : List SourceTree → Conversion (List Handle)
  | [] => pure []
  | source :: rest => do
    let h ← child before expected source.info (source.convertAt options depth)
    return h :: (← convertAll options depth expected (before ++ [h]) rest)

/-- Converts a source tree that may be missing after the children in `before`. -/
def convertOptional (options : ConversionOptions) (depth : Nat) (expected : Category)
    (before : List Handle) : Option SourceTree → Conversion (Option Handle)
  | none => pure none
  | some source => do
    return some (← child before expected source.info (source.convertAt options depth))

end

/-- Converts a source tree into a new detached root. -/
def SourceTree.convert (options : ConversionOptions) (source : SourceTree) : Conversion Handle :=
  source.convertAt options 0

end SyntaxForest
