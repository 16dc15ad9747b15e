import SyntaxForest.Forest.Build
import SyntaxForest.Forest.Lineage

/-!
# Forests: slots

Installing a detached node in a slot frees the occupant that was there. A slot that may be empty can
also be cleared, or its occupant taken out as a detached root.

A node cannot go below itself: installing it under a parent is refused if it is the root of the tree
that the parent is in.
-/

namespace SyntaxForest

namespace Forest

/-- Checks that a node may be installed in a field of a live parent. -/
def checkInstallable (f : Forest) (parent : Handle) (field : Field) (child : Handle) :
    Except TreeError Unit := do
  f.checkAttachable field child
  if ← f.isAncestor child parent then throw (.cycle parent child) else return ()

/-- The occupant of a slot. -/
def slot (f : Forest) (parent : Handle) (field : Field) : Except TreeError (Option Handle) := do
  let p ← f.payload parent
  match p.slot? field with
  | some occupant => return occupant
  | none => throw (.noSuchField p.kind field)

/-- Whether a slot may be empty. -/
def slotIsOptional (f : Forest) (parent : Handle) (field : Field) : Except TreeError Bool := do
  let p ← f.payload parent
  match p.slot? field with
  | some _ => return p.isOptional field
  | none => throw (.noSuchField p.kind field)

/-- The occupant of a slot that may be empty. -/
def optionalSlot (f : Forest) (parent : Handle) (field : Field) :
    Except TreeError (Option Handle) := do
  let p ← f.payload parent
  match p.slot? field with
  | some occupant =>
    if p.isOptional field then return occupant else throw (.mandatorySlot p.kind field)
  | none => throw (.noSuchField p.kind field)

/-- The occupant of a slot that has to be occupied. -/
def required (f : Forest) (parent : Handle) (field : Field) : Except TreeError Handle := do
  match ← f.slot parent field with
  | some occupant => return occupant
  | none => throw (.emptySlot parent field)

/-- The forest with another occupant in a slot. -/
def fillSlot (f : Forest) (parent : Handle) (field : Field) (occupant : Option Handle) : Forest :=
  f.updatePayload parent fun p => p.setSlot field occupant

/-- The forest with the owners of several nodes removed. -/
def disown (f : Forest) (hs : List Handle) : Forest := hs.foldl (fun f h => f.setOwner h none) f

end Forest

namespace Edit

/-- Installs a detached node in a slot and frees the occupant that was there. -/
def setSlot (parent : Handle) (field : Field) (child : Handle) : Edit Unit := do
  let previous ← ask fun f => f.slot parent field
  ask fun f => f.checkInstallable parent field child
  change fun f => (f.fillSlot parent field (some child)).setOwner child (some parent)
  change fun f => f.freeSubtrees previous.toList

/-- Takes the occupant out of a slot that may be empty; it becomes a detached root. -/
def take (parent : Handle) (field : Field) : Edit (Option Handle) := do
  let previous ← ask fun f => f.optionalSlot parent field
  change fun f => (f.fillSlot parent field none).disown previous.toList
  return previous

/-- Empties a slot that may be empty and frees its occupant. -/
def clearSlot (parent : Handle) (field : Field) : Edit Unit := do
  let previous ← take parent field
  change fun f => f.freeSubtrees previous.toList

end Edit

end SyntaxForest
