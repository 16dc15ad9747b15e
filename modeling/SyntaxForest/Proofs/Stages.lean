import SyntaxForest.Conversion.Convert
import SyntaxForest.Proofs.SourceTrees

/-! # Conversion in stages

The conversion of a source node has one form for all kinds of nodes: the operator is looked up and
gives a payload that waits for its children (`prepare`); the children are converted from left to
right (`convertEach`); the node is built over them (`convertAt_eq`). -/

namespace SyntaxForest

open Conversion

/-- Looks up the operator of a chain, and answers the payload over the children to come. -/
def SourceTree.prepare : SourceTree → Conversion (List Handle → Payload)
  | number _ token => return fun _ => .number token
  | boolean _ value => return fun _ => .boolean value
  | string _ text => return fun _ => .string text
  | null _ => return fun _ => .null
  | name _ identifier => return fun _ => .name identifier
  | parenthesized .. => return fun cs => .parenthesized cs[0]?
  | chain info symbol .. => do
    let o ← operator info symbol
    return fun cs => .chain o cs[0]? cs[1]? (cs.drop 2)
  | conditional .. => return fun cs => .conditional cs[0]? cs[1]? cs[2]?
  | expressionStatement .. => return fun cs => .expressionStatement cs[0]?
  | returnStatement .. => return fun cs => .returnStatement cs[0]?
  | block .. => return fun cs => .block cs
  | ifStatement .. => return fun cs => .ifStatement cs[0]? cs[1]? cs[2]?

namespace Conversion

variable (options : ConversionOptions) (depth : Nat)

/-- Converts the children at the given positions from left to right, after those in `before`. -/
def convertEach (before : List Handle) : List (Category × SourceTree) → Conversion (List Handle)
  | [] => return []
  | p :: rest => do
    let h ← child before p.1 p.2.info (p.2.convertAt options depth)
    return h :: (← convertEach (before ++ [h]) rest)

theorem convertAll_eq (expected : Category) : ∀ (sources : List SourceTree) (before : List Handle),
    convertAll options depth expected before sources =
      convertEach options depth before (sources.map (Prod.mk expected))
  | [], _ => rfl
  | source :: rest, before => by
    simp only [convertAll, List.map_cons, convertEach]
    refine bind_congr fun h => ?_
    rw [convertAll_eq expected rest]

theorem convertOptional_eq (expected : Category) (before : List Handle)
    (source : Option SourceTree) :
    convertEach options depth before (source.toList.map (Prod.mk expected)) =
      Option.toList <$> convertOptional options depth expected before source := by
  cases source with
  | none => rfl
  | some s => simp [convertEach, convertOptional]

end Conversion

/-- **The stages of a conversion**, for every kind of source node. -/
theorem SourceTree.convertAt_eq (options : ConversionOptions) (depth : Nat) (s : SourceTree) :
    s.convertAt options depth = atDepth options depth s.info (do
      let payload ← s.prepare
      let cs ← convertEach options (depth + 1) [] s.positions
      assemble cs (Edit.build { payload := payload cs })) := by
  cases s with
  | number | boolean | string | null | name => rfl
  | parenthesized | conditional | expressionStatement =>
    simp [convertAt, info, prepare, positions, convertEach, Edit.parenthesized, Edit.conditional,
      Edit.expressionStatement]
  | chain => simp [convertAt, info, prepare, positions, convertEach, Edit.chain, convertAll_eq]
  | block => simp [convertAt, info, prepare, positions, Edit.block, convertAll_eq]
  | returnStatement =>
    simp [convertAt, info, prepare, positions, convertOptional_eq, Edit.returnStatement,
      ← List.head?_eq_getElem?]
  | ifStatement =>
    simp [convertAt, info, prepare, positions, convertEach, convertOptional_eq, Edit.ifStatement,
      ← List.head?_eq_getElem?]

end SyntaxForest
