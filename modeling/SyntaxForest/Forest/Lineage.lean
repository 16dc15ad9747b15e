import SyntaxForest.Forest.Basic

/-!
# Forests: roots and ancestors

The owners above a node are found by climbing the owner links. In a forest where every owner is live
and no node is its own ancestor, the climb meets each entry at most once, so as many steps as there
are entries reach the root.
-/

namespace SyntaxForest.Forest

/-- Climbs at most `n` links, with the handles met so far in `path`, the last one in front. -/
def climb (f : Forest) : Nat → Handle → List Handle → List Handle
  | 0, _, path => path
  | n + 1, h, path =>
    match f.live? h with
    | some ⟨_, some owner⟩ => f.climb n owner (h :: path)
    | some ⟨_, none⟩ => h :: path
    | none => path

/-- The handles from the root of its tree down to a node. -/
def lineage (f : Forest) (h : Handle) : List Handle := f.climb f.entries.size h []

/-- The root of the tree that a node is in. -/
def rootOf (f : Forest) (h : Handle) : Except TreeError Handle := do
  let _ ← f.live h
  return (f.lineage h).headD h

/-- Whether a node is `h` itself or one of the owners above it. -/
def isAncestor (f : Forest) (ancestor h : Handle) : Except TreeError Bool := do
  let _ ← f.live ancestor
  let _ ← f.live h
  return (f.lineage h).contains ancestor

end SyntaxForest.Forest
