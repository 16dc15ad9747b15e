import SyntaxForest.Diagnostic
import SyntaxForest.Node.Handle
import SyntaxForest.Node.Kind

/-!
# Refused operations on a forest: their causes and wording
-/

namespace SyntaxForest

/-- Why an operation on a forest was refused. -/
inductive TreeError where
  | staleNode (node : Handle)
  | alreadyOwned (child owner : Handle)
  | duplicateChild (child : Handle)
  | cycle (parent child : Handle)
  | categoryMismatch (field : Field) (expected : Category) (found : Kind)
  | kindMismatch (expected found : Kind)
  | noSuchField (kind : Kind) (field : Field)
  | emptySlot (parent : Handle) (field : Field)
  | mandatorySlot (kind : Kind) (field : Field)
  | indexOutOfBounds (field : Field) (index length : Nat)
  | detached (node : Handle)
deriving DecidableEq, Repr, Inhabited

namespace TreeError

/-- What was wrong. -/
def message : TreeError → String
  | staleNode node => node.display ++ " refers to a node that no longer exists"
  | alreadyOwned child owner => child.display ++ " is already owned by " ++ owner.display
  | duplicateChild child => child.display ++ " was passed for more than one child position"
  | cycle parent child =>
    "installing " ++ child.display ++ " under " ++ parent.display ++
      " would make a node its own descendant"
  | categoryMismatch field expected found =>
    "`" ++ field.name ++ "` expects " ++ expected.name ++ ", found " ++ found.display
  | kindMismatch expected found => "expected " ++ expected.display ++ ", found " ++ found.display
  | noSuchField kind field => kind.display ++ " has no `" ++ field.name ++ "` field"
  | emptySlot parent field => "`" ++ field.name ++ "` of " ++ parent.display ++ " is empty"
  | mandatorySlot kind field =>
    "`" ++ field.name ++ "` of " ++ kind.display ++ " is mandatory and cannot be left empty"
  | indexOutOfBounds field index length =>
    "index " ++ toString index ++ " is out of bounds for `" ++ field.name ++ "` of length " ++
      toString length
  | detached node => node.display ++ " is the root of its tree and has no owner"

/-- The code that the cause is filed under. -/
def code : TreeError → String
  | staleNode .. => "transir::tree::stale_node"
  | alreadyOwned .. => "transir::tree::already_owned"
  | duplicateChild .. => "transir::tree::duplicate_child"
  | cycle .. => "transir::tree::cycle"
  | categoryMismatch .. => "transir::tree::category_mismatch"
  | kindMismatch .. => "transir::tree::kind_mismatch"
  | noSuchField .. => "transir::tree::no_such_field"
  | emptySlot .. => "transir::tree::empty_slot"
  | mandatorySlot .. => "transir::tree::mandatory_slot"
  | indexOutOfBounds .. => "transir::tree::index_out_of_bounds"
  | detached .. => "transir::tree::detached"

/-- A way out, where there is one. -/
def hint? : TreeError → Option String
  | alreadyOwned .. =>
    some "detach the node first (`take`, `remove`, `replace`) or install a `copy` of it"
  | mandatorySlot .. => some "use `replace` to swap the occupant for another node"
  | _ => none

/-- The diagnostic of a refusal. -/
def diagnostic (e : TreeError) : Diagnostic :=
  { message := e.message, code := e.code, help? := e.hint? }

end TreeError

end SyntaxForest
