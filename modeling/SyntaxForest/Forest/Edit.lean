import SyntaxForest.Forest.Basic

/-!
# Forests: edits, storing and freeing nodes

An edit is an operation on a forest that may be refused. What it leaves behind counts in both cases:
nodes that a refused edit made for a while and freed again leave their mark on the free list.

* A node is stored in the entry emptied last, or in a new one if no entry is empty.
* A subtree is freed from a stack of handles, by `freeAll`: the top one is freed and its children go
  on the stack in order, so that the last child is freed next.

Freeing ends on every forest: each handle taken off the stack either is stale, or empties an entry
and puts as many handles on the stack as its node had children; `weight` counts both.
-/

namespace SyntaxForest

/-- An operation on a forest that may be refused. -/
abbrev Edit (α : Type) := EStateM TreeError Forest α

namespace Edit

variable {α : Type}

/-- Asks a question and leaves the forest as it is. -/
@[inline] def ask (question : Forest → Except TreeError α) : Edit α := fun f =>
  match question f with
  | .ok a => .ok a f
  | .error e => .error e f

/-- Changes the forest. -/
@[inline] def change (g : Forest → Forest) : Edit Unit := fun f => .ok () (g f)

/-- Runs an edit; if it is refused, changes the forest it left before refusing too. -/
@[inline] def onRefusal (edit : Edit α) (g : Forest → Forest) : Edit α := fun f =>
  match edit f with
  | .ok a f => .ok a f
  | .error e f => .error e (g f)

end Edit

namespace Entry

/-- The entry emptied once more. -/
def vacate (e : Entry) : Entry := ⟨e.emptied + 1, none⟩

/-- The number of handles that freeing the node of the entry takes off the stack or puts on it. -/
def weight (e : Entry) : Nat :=
  match e.live? with
  | some l => 1 + l.node.children.length
  | none => 0

end Entry

namespace Forest

/-! ### Storing a node -/

/-- The handle that the next node gets. -/
def nextHandle (f : Forest) : Handle :=
  match f.free with
  | index :: _ => ⟨index, (f.entries[index]?.map Entry.generation).getD 0⟩
  | [] => ⟨f.entries.size, 0⟩

/-- The forest with a node stored under the next handle. -/
def place (f : Forest) (l : LiveNode) : Forest :=
  match f.free with
  | index :: free =>
    { entries := f.entries.modify index (fun e => { e with live? := some l })
      free
      liveCount := f.liveCount + 1 }
  | [] =>
    { entries := f.entries.push ⟨0, some l⟩
      free := []
      liveCount := f.liveCount + 1 }

/-- The forest with one owner for several nodes. -/
def claim (f : Forest) (owner : Handle) (children : List Handle) : Forest :=
  children.foldl (fun f child => f.setOwner child (some owner)) f

/-- The forest with a new detached node, which owns its children. -/
def store (f : Forest) (node : Node) : Forest :=
  let h := f.nextHandle
  (f.place ⟨node, none⟩).claim h node.children

/-! ### Freeing nodes -/

/-- The forest with the entry of a node emptied. -/
def release (f : Forest) (h : Handle) : Forest :=
  { entries := f.entries.modify h.index Entry.vacate
    free := h.index :: f.free
    liveCount := f.liveCount - 1 }

/-- The number of nodes and of child handles in the forest. -/
def weight (f : Forest) : Nat := f.entries.toList.foldr (fun e n => e.weight + n) 0

theorem foldr_modify {α : Type} (w : α → Nat) (g : α → α) :
    ∀ (l : List α) (i : Nat) (a : α), l[i]? = some a →
      (l.modify i g).foldr (fun x n => w x + n) 0 + w a = l.foldr (fun x n => w x + n) 0 + w (g a)
  | [], i, a, h => by simp at h
  | x :: l, 0, a, h => by
    obtain rfl : x = a := by simpa using h
    simp only [List.modify_zero_cons, List.foldr_cons]
    omega
  | x :: l, i + 1, a, h => by
    have ih := foldr_modify w g l i a (by simpa using h)
    simp only [List.modify_succ_cons, List.foldr_cons]
    omega

theorem weight_release {f : Forest} {h : Handle} {l : LiveNode} (hl : f.live? h = some l) :
    (f.release h).weight + (1 + l.node.children.length) = f.weight := by
  obtain ⟨e, he, hat⟩ := Option.bind_eq_some_iff.mp hl
  have hlive : e.live? = some l := by
    unfold Entry.at? at hat; split at hat
    · exact hat
    · cases hat
  have hsum := foldr_modify Entry.weight Entry.vacate f.entries.toList h.index e
    (by simpa using he)
  have hw : e.weight = 1 + l.node.children.length := by simp [Entry.weight, hlive]
  have hv : e.vacate.weight = 0 := rfl
  rw [hw, hv] at hsum
  simpa [weight, release, Array.toList_modify] using hsum

/-- Frees the subtrees of the handles on a stack, the top one first. -/
def freeAll (f : Forest) (stack : List Handle) : Forest :=
  match stack with
  | [] => f
  | h :: stack =>
    match _ : f.live? h with
    | none => f.freeAll stack
    | some l => (f.release h).freeAll (l.node.children.reverse ++ stack)
termination_by f.weight + stack.length
decreasing_by
  · simp
  · have := weight_release ‹_›
    simp only [List.length_append, List.length_reverse, List.length_cons]
    omega

@[simp] theorem freeAll_nil (f : Forest) : f.freeAll [] = f := by rw [freeAll]

theorem freeAll_cons_of_stale {f : Forest} {h : Handle} (hs : f.live? h = none)
    (stack : List Handle) : f.freeAll (h :: stack) = f.freeAll stack := by
  rw [freeAll]; split <;> simp_all

theorem freeAll_cons_of_live {f : Forest} {h : Handle} {l : LiveNode} (hl : f.live? h = some l)
    (stack : List Handle) :
    f.freeAll (h :: stack) = (f.release h).freeAll (l.node.children.reverse ++ stack) := by
  rw [freeAll]; split <;> simp_all

/-- The forest without a node and everything below it. -/
def freeSubtree (f : Forest) (h : Handle) : Forest := f.freeAll [h]

/-- The forest without several nodes and everything below them, freed one after another. -/
def freeSubtrees (f : Forest) (hs : List Handle) : Forest := hs.foldl freeSubtree f

end Forest

namespace Edit

/-- Stores a node and answers its handle. -/
def store (node : Node) : Edit Handle := fun f => .ok f.nextHandle (f.store node)

end Edit

end SyntaxForest
