import SyntaxForest.Forest.Sequences

/-!
# Forests: replacing, detaching and discarding nodes

A node that has an owner stands at one place of the owner's payload: in a slot, or at an index of a
sequence. Another node can be put at that place, or the node taken out of it.
-/

namespace SyntaxForest

/-- A place for one child: a field, and an index if the field is a sequence. -/
structure Place where
  field : Field
  index? : Option Nat
deriving DecidableEq, Repr, Inhabited

namespace Payload

/-- The first place where a child stands. -/
def placeOf? (p : Payload) (child : Handle) : Option Place :=
  (p.fieldOf? child).map fun field => ⟨field, (p.seq? field).bind fun xs => xs.idxOf? child⟩

/-- The payload with another child at a place. -/
def putAt (p : Payload) (place : Place) (child : Handle) : Payload :=
  match place.index? with
  | some index => p.setSeq place.field (((p.seq? place.field).getD []).set index child)
  | none => p.setSlot place.field (some child)

end Payload

namespace Forest

/-- The owner of a node that has one. -/
def ownerOf (f : Forest) (h : Handle) : Except TreeError Handle := do
  match ← f.owner? h with
  | some owner => return owner
  | none => throw (.detached h)

/-- The place of the owner's payload where a child stands. -/
def placeOf (f : Forest) (owner child : Handle) : Except TreeError Place := do
  match (← f.payload owner).placeOf? child with
  | some place => return place
  | none => throw (.detached child)

end Forest

namespace Edit

/-- Puts a detached node where another one stands, which becomes a detached root. -/
def replace (old new : Handle) : Edit Unit := do
  let owner ← ask fun f => f.ownerOf old
  let place ← ask fun f => f.placeOf owner old
  ask fun f => f.checkInstallable owner place.field new
  change fun f =>
    ((f.updatePayload owner fun p => p.putAt place new).setOwner new (some owner)).setOwner old none

/-- Takes a node out of the place where it stands. -/
def detach (h : Handle) : Edit Unit := do
  let owner ← ask fun f => f.ownerOf h
  let place ← ask fun f => f.placeOf owner h
  match place.index? with
  | some index => do let _ ← remove owner place.field index
  | none => do let _ ← take owner place.field

/-- Frees a detached node and everything below it. -/
def discard (h : Handle) : Edit Unit := do
  match ← ask fun f => f.owner? h with
  | some owner => throw (.alreadyOwned h owner)
  | none => change fun f => f.freeSubtree h

end Edit

end SyntaxForest
