/-!
# Handles

A handle names a node of a forest: the index of the entry that the node lives in, and the generation
of that entry. An entry that is emptied moves to its next generation, so a handle of a node that is
gone does not name the node that lives there later. Generations are 32-bit words and wrap around.
-/

namespace SyntaxForest

/-- The name of a node. -/
structure Handle where
  index : Nat
  generation : UInt32
deriving DecidableEq, Repr, Inhabited

namespace Handle

/-- Handles are ordered by index, then by generation. -/
instance : Ord Handle where
  compare a b := (compare a.index b.index).then (compare a.generation b.generation)

/-- The handle as index and generation. -/
def text (h : Handle) : String := toString h.index ++ "v" ++ toString h.generation.toNat

/-- The handle as it stands in messages. -/
def display (h : Handle) : String := "NodeId(" ++ h.text ++ ")"

end Handle

end SyntaxForest
