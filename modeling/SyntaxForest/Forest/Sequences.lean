import SyntaxForest.Forest.Slots

/-!
# Forests: sequences

A sequence is a list of children: detached nodes are inserted at an index, and the elements taken
out become detached roots. A `SequenceView` names one sequence and offers the operations on it
without naming its parent and field again.
-/

namespace SyntaxForest

namespace Forest

/-- The elements of a sequence. -/
def seq (f : Forest) (parent : Handle) (field : Field) : Except TreeError (List Handle) := do
  let p ← f.payload parent
  match p.seq? field with
  | some elements => return elements
  | none => throw (.noSuchField p.kind field)

/-- The forest with other elements in a sequence. -/
def fillSeq (f : Forest) (parent : Handle) (field : Field) (elements : List Handle) : Forest :=
  f.updatePayload parent fun p => p.setSeq field elements

end Forest

namespace Edit

/-- Inserts a detached node before the element at an index, or at the end. -/
def insert (parent : Handle) (field : Field) (index : Nat) (child : Handle) : Edit Unit := do
  let elements ← ask fun f => f.seq parent field
  if elements.length < index then throw (.indexOutOfBounds field index elements.length)
  else do
    ask fun f => f.checkInstallable parent field child
    change fun f =>
      (f.fillSeq parent field (elements.insertIdx index child)).setOwner child (some parent)

/-- Adds a detached node at the end of a sequence. -/
def push (parent : Handle) (field : Field) (child : Handle) : Edit Unit := do
  let elements ← ask fun f => f.seq parent field
  insert parent field elements.length child

/-- Takes the element at an index out of a sequence; it becomes a detached root. -/
def remove (parent : Handle) (field : Field) (index : Nat) : Edit Handle := do
  let elements ← ask fun f => f.seq parent field
  match elements[index]? with
  | none => throw (.indexOutOfBounds field index elements.length)
  | some child =>
    change fun f => (f.fillSeq parent field (elements.eraseIdx index)).setOwner child none
    return child

/-- Empties a sequence and frees its elements. -/
def clearSeq (parent : Handle) (field : Field) : Edit Unit := do
  let elements ← ask fun f => f.seq parent field
  change fun f => (f.fillSeq parent field []).freeSubtrees elements

end Edit

/-! ### Views -/

/-- A sequence, named by its parent and field. -/
structure SequenceView where
  parent : Handle
  field : Field
deriving DecidableEq, Repr, Inhabited

namespace SequenceView

/-- The view of a sequence that the parent has. -/
def of (f : Forest) (parent : Handle) (field : Field) : Except TreeError SequenceView := do
  let _ ← f.seq parent field
  return ⟨parent, field⟩

/-- The elements; none if the parent is gone. -/
def elements (v : SequenceView) (f : Forest) : List Handle :=
  match f.seq v.parent v.field with
  | .ok elements => elements
  | .error _ => []

/-- The number of elements. -/
def length (v : SequenceView) (f : Forest) : Nat := (v.elements f).length

/-- Whether there are no elements. -/
def isEmpty (v : SequenceView) (f : Forest) : Bool := (v.elements f).isEmpty

/-- The element at an index. -/
def get? (v : SequenceView) (f : Forest) (index : Nat) : Option Handle := (v.elements f)[index]?

/-- Adds a detached node at the end. -/
def push (v : SequenceView) (child : Handle) : Edit Unit := Edit.push v.parent v.field child

/-- Inserts a detached node before the element at an index, or at the end. -/
def insert (v : SequenceView) (index : Nat) (child : Handle) : Edit Unit :=
  Edit.insert v.parent v.field index child

/-- Takes the element at an index out. -/
def remove (v : SequenceView) (index : Nat) : Edit Handle := Edit.remove v.parent v.field index

/-- Adds several nodes at the end, up to the first one that is refused. -/
def extend (v : SequenceView) : List Handle → Edit Unit
  | [] => pure ()
  | child :: rest => do
    v.push child
    v.extend rest

end SequenceView

end SyntaxForest
