import SyntaxForest.Forest.Moves
import SyntaxForest.Walk.Visitor

/-!
# Forests: copying subtrees

A copy is made of the nodes of a subtree from the last one in preorder to the first, so that the
copies of a node's children are there when the node's turn comes: they are the last copies made that
have no owner yet, the first child's in front. Types and source ranges are copied with the nodes. A map
from originals to copies would hold the same copies (`copyByMap_eq`).

Slots and sequences can be filled with copies of the content of another field, which may be part of
what they replace.
-/

namespace SyntaxForest

/-- The copies without an owner, the last one made in front. -/
abbrev CopyStack := List Handle

namespace CopyStack

/-- Takes the copy of a child off the stack. -/
def pop (child : Handle) : StateT CopyStack (Except TreeError) Handle := fun stack =>
  match stack with
  | [] => .error (.staleNode child)
  | copy :: stack => .ok (copy, stack)

/-- The copy of a node over the copies of its children, and the stack without them. -/
def copyNode (f : Forest) (h : Handle) (stack : CopyStack) :
    Except TreeError (Node × CopyStack) := do
  let node ← f.node h
  let (payload, stack) ← (node.payload.traverseChildren pop).run stack
  return ({ node with payload }, stack)

end CopyStack

namespace Edit

/-- Copies the listed nodes one after another. -/
def copyNodes (stack : CopyStack) : List Handle → Edit CopyStack
  | [] => pure stack
  | h :: rest => do
    let (node, stack) ←
      onRefusal (ask fun f => CopyStack.copyNode f h stack) fun f => f.freeSubtrees stack
    let copy ← store node
    copyNodes (copy :: stack) rest

/-- Copies a node with everything below it; the copy is a detached root. -/
def copy (h : Handle) : Edit Handle := do
  let order ← ask fun f => f.preorder h
  match ← copyNodes [] order.reverse with
  | root :: _ => return root
  | [] => throw (.staleNode h)

/-- Replaces the occupant of a slot by a copy of the occupant of another slot, or by nothing if that
one is empty. -/
def copySlotFrom (parent : Handle) (field : Field) (source : Handle) (sourceField : Field) :
    Edit Unit := do
  let optional ← ask fun f => f.slotIsOptional parent field
  match ← ask fun f => f.slot source sourceField with
  | some occupant =>
    let copied ← copy occupant
    onRefusal (setSlot parent field copied) fun f => f.freeSubtree copied
  | none => if optional then clearSlot parent field else throw (.emptySlot source sourceField)

/-- Copies nodes that are to go into a field; a refusal frees the copies made. -/
def copyAll (field : Field) (done : List Handle) : List Handle → Edit (List Handle)
  | [] => pure done
  | h :: rest => do
    let copied ← onRefusal (copy h) fun f => f.freeSubtrees done
    onRefusal (ask fun f => f.checkAttachable field copied) fun f => f.freeSubtrees (copied :: done)
    copyAll field (done ++ [copied]) rest

/-- Replaces the elements of a sequence by copies of the elements of another sequence. -/
def copySeqFrom (parent : Handle) (field : Field) (source : Handle) (sourceField : Field) :
    Edit Unit := do
  let previous ← ask fun f => f.seq parent field
  let elements ← ask fun f => f.seq source sourceField
  let copies ← copyAll field [] elements
  change fun f => ((f.claim parent copies).fillSeq parent field copies).freeSubtrees previous

end Edit

end SyntaxForest
