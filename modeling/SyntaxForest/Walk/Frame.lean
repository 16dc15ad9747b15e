import SyntaxForest.Forest.Basic

/-!
# Walks: frames

A walk visits a node, then the subtrees of its children one after another, and then ends the visit.
It keeps its own stack. Each frame of the stack stands for a visit that has not ended, with the
children that are still to be walked; these are fixed when the visit answers whether to descend.
-/

namespace SyntaxForest

/-- A visit that has not ended, and the children of the node that are still to be walked. -/
structure Frame where
  node : Handle
  pending : List Handle
deriving DecidableEq, Repr, Inhabited

namespace Forest

/-- The children to walk below a node, when its visit answered `descend`. -/
def below (f : Forest) (h : Handle) (descend : Bool) : List Handle :=
  if descend then ((f.live? h).map fun l => l.node.children).getD [] else []

end Forest

end SyntaxForest
