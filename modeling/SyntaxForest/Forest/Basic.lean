import SyntaxForest.Node.Error
import SyntaxForest.Node.Payload

/-!
# Forests: entries, live nodes, owners

A forest holds the nodes of any number of program trees. Every node lives in an entry; an entry
without a node is kept for reuse and has its index on the free list. An entry counts how often it was
emptied; the count, cut to 32 bits, is its generation. With each node the forest keeps its owner, the
node that it is a child of. A node without an owner is detached: it is the root of its tree.

A handle whose entry is empty, or has moved on to another generation, is stale. Every question about
a stale handle is refused.

* `live?_update_self`, `live?_update_of_ne`: a change at one handle is seen there and nowhere else.
-/

namespace SyntaxForest

/-- A node of a forest and the node that owns it. -/
structure LiveNode where
  node : Node
  owner? : Option Handle
deriving DecidableEq, Repr, Inhabited

/-- A place for a node, and how often it was emptied. -/
structure Entry where
  emptied : Nat
  live? : Option LiveNode
deriving DecidableEq, Repr, Inhabited

namespace Entry

/-- The generation that the entry is in: how often it was emptied, in 32 bits. -/
def generation (e : Entry) : UInt32 := UInt32.ofNat e.emptied

/-- The node that the entry holds, if the entry is in the given generation. -/
def at? (e : Entry) (generation : UInt32) : Option LiveNode :=
  if e.generation = generation then e.live? else none

/-- The entry with its node changed, if it is in the given generation. -/
def update (e : Entry) (generation : UInt32) (change : LiveNode → LiveNode) : Entry :=
  if e.generation = generation then { e with live? := e.live?.map change } else e

theorem at?_update_self (e : Entry) (generation : UInt32) (change : LiveNode → LiveNode) :
    (e.update generation change).at? generation = (e.at? generation).map change := by
  unfold update at?
  by_cases hg : e.generation = generation
  · rw [if_pos hg, if_pos hg, if_pos (by exact hg)]
  · rw [if_neg hg, if_neg hg]; rfl

theorem at?_update_of_ne (e : Entry) {g g' : UInt32} (change : LiveNode → LiveNode)
    (hg : g' ≠ g) : (e.update g change).at? g' = e.at? g' := by
  unfold update
  by_cases he : e.generation = g
  · have h' : ∀ live?, (⟨e.emptied, live?⟩ : Entry).at? g' = none := fun live? => by
      rw [at?, if_neg]; exact fun h => hg (h.symm.trans he)
    rw [if_pos he, h', at?, if_neg (fun h => hg (h.symm.trans he))]
  · rw [if_neg he]

end Entry

/-- Entries, the indices of the empty ones with the one emptied last in front, and the number of
nodes. -/
structure Forest where
  entries : Array Entry
  free : List Nat
  liveCount : Nat
deriving DecidableEq, Repr, Inhabited

namespace Forest

/-- The forest without entries. -/
def empty : Forest := ⟨#[], [], 0⟩

/-- The number of nodes. -/
def size (f : Forest) : Nat := f.liveCount

/-- Whether there are no nodes. -/
def isEmpty (f : Forest) : Bool := f.size = 0

/-! ### Looking up a node -/

/-- The node with the given handle, if the handle is not stale. -/
def live? (f : Forest) (h : Handle) : Option LiveNode :=
  f.entries[h.index]?.bind (fun e => e.at? h.generation)

/-- Whether the handle names a node. -/
def contains (f : Forest) (h : Handle) : Bool := (f.live? h).isSome

/-- The node with the given handle; a stale handle is refused. -/
def live (f : Forest) (h : Handle) : Except TreeError LiveNode :=
  match f.live? h with
  | some l => .ok l
  | none => .error (.staleNode h)

/-- The node without its owner. -/
def node (f : Forest) (h : Handle) : Except TreeError Node := do return (← f.live h).node

/-- The payload of a node. -/
def payload (f : Forest) (h : Handle) : Except TreeError Payload := do return (← f.node h).payload

/-- The kind of a node. -/
def kind (f : Forest) (h : Handle) : Except TreeError Kind := do return (← f.node h).kind

/-- The type that a node carries. -/
def type? (f : Forest) (h : Handle) : Except TreeError (Option TypeRef) := do
  return (← f.node h).type?

/-- The source range that a node carries. -/
def span? (f : Forest) (h : Handle) : Except TreeError (Option Span) := do
  return (← f.node h).span?

/-- The children of a node, in the order of traversal. -/
def children (f : Forest) (h : Handle) : Except TreeError (List Handle) :=
  return (← f.node h).children

/-- The owner of a node, or none for the root of a tree. -/
def owner? (f : Forest) (h : Handle) : Except TreeError (Option Handle) := do
  return (← f.live h).owner?

/-- Whether a node is the root of its tree. -/
def isDetached (f : Forest) (h : Handle) : Except TreeError Bool := do
  return (← f.owner? h).isNone

/-- Whether a node is live and has the given owner. -/
def owns (f : Forest) (owner child : Handle) : Bool :=
  match f.live? child with
  | some l => l.owner? = some owner
  | none => false

/-- The identifier of a name. -/
def identifier (f : Forest) (h : Handle) : Except TreeError String := do
  match ← f.payload h with
  | .name identifier => return identifier
  | other => throw (.kindMismatch .name other.kind)

/-- The handle of the node in an entry, if that node is the root of a tree. -/
def rootAt? (e : Entry) (index : Nat) : Option Handle :=
  match e.live? with
  | some ⟨_, none⟩ => some ⟨index, e.generation⟩
  | _ => none

/-- The roots of the trees, in the order of their entries. -/
def roots (f : Forest) : List Handle :=
  f.entries.toList.zipIdx.filterMap (fun (e, index) => rootAt? e index)

/-! ### Changing a node -/

/-- The forest with one node changed; the same forest if the handle is stale. -/
def update (f : Forest) (h : Handle) (change : LiveNode → LiveNode) : Forest :=
  { f with entries := f.entries.modify h.index (fun e => e.update h.generation change) }

/-- The forest with another owner for a node. -/
def setOwner (f : Forest) (h : Handle) (owner : Option Handle) : Forest :=
  f.update h (fun l => { l with owner? := owner })

/-- The forest with the payload of a node changed. -/
def updatePayload (f : Forest) (h : Handle) (change : Payload → Payload) : Forest :=
  f.update h (fun l => { l with node := { l.node with payload := change l.node.payload } })

theorem live?_update_self (f : Forest) (h : Handle) (change : LiveNode → LiveNode) :
    (f.update h change).live? h = (f.live? h).map change := by
  simp only [update, live?, Array.getElem?_modify, if_true]
  cases f.entries[h.index]? with
  | none => rfl
  | some e => exact e.at?_update_self h.generation change

theorem live?_update_of_ne (f : Forest) {h k : Handle} (change : LiveNode → LiveNode) (hk : k ≠ h) :
    (f.update h change).live? k = f.live? k := by
  simp only [update, live?, Array.getElem?_modify]
  by_cases hi : h.index = k.index
  · have hg : h.generation ≠ k.generation := fun hg => hk (by cases h; cases k; simp_all)
    rw [if_pos hi]
    cases f.entries[k.index]? with
    | none => rfl
    | some e => exact e.at?_update_of_ne change hg.symm
  · rw [if_neg hi]

end Forest

end SyntaxForest
