import SyntaxForest.Walk.Frame

/-!
# Walks: reading a tree

A visitor looks at the nodes of a tree and collects a state of its own. Its `visit` says whether the
children of the node are walked; its `endVisit` is called once for every node visited, after them.

In a tree of `k` nodes a walk takes `2 * k - 1` steps after the visit of the root: one to visit each
of the other nodes, and one to end each visit. Twice the number of entries is therefore enough.

* `Forest.accept` walks a tree; `Forest.preorder` and `Forest.postorder` list its nodes.
-/

namespace SyntaxForest

/-- What is done at the nodes of a tree, collecting a state of type `σ`. -/
structure Visitor (σ : Type) where
  visit : Forest → Handle → σ → Bool × σ := fun _ _ s => (true, s)
  endVisit : Forest → Handle → σ → σ := fun _ _ s => s

variable {σ : Type}

namespace Visitor

/-- The visitor that only has a `visit`. -/
def ofVisit (visit : Forest → Handle → σ → Bool × σ) : Visitor σ := { visit }

/-- Visits a node: its frame, and the state after the visit. -/
def enter (v : Visitor σ) (f : Forest) (h : Handle) (s : σ) : Frame × σ :=
  let (descend, s) := v.visit f h s
  (⟨h, f.below h descend⟩, s)

/-- One step of a walk: visits the next child of the top frame, or ends its visit. -/
def step (v : Visitor σ) (f : Forest) : Frame → List Frame → σ → List Frame × σ
  | ⟨h, []⟩, frames, s => (frames, v.endVisit f h s)
  | ⟨h, child :: pending⟩, frames, s =>
    let (frame, s) := v.enter f child s
    (frame :: ⟨h, pending⟩ :: frames, s)

/-- Walks on for at most `n` steps. -/
def run (v : Visitor σ) (f : Forest) : Nat → List Frame → σ → σ
  | 0, _, s => s
  | _, [], s => s
  | n + 1, frame :: frames, s =>
    let (frames, s) := v.step f frame frames s
    v.run f n frames s

/-- Lists the nodes visited, the last one in front. -/
def visited : Visitor (List Handle) := .ofVisit fun _ h seen => (true, h :: seen)

/-- Lists the nodes whose visit has ended, the last one in front. -/
def ended : Visitor (List Handle) := { endVisit := fun _ h seen => h :: seen }

end Visitor

namespace Forest

/-- Walks the tree below a node, from a given state. -/
def accept (f : Forest) (root : Handle) (v : Visitor σ) (s : σ) : Except TreeError σ := do
  let _ ← f.live root
  let (frame, s) := v.enter f root s
  return v.run f (2 * f.entries.size) [frame] s

/-- The nodes of a tree, each before its children. -/
def preorder (f : Forest) (root : Handle) : Except TreeError (List Handle) := do
  return (← f.accept root .visited []).reverse

/-- The nodes of a tree, each after its children. -/
def postorder (f : Forest) (root : Handle) : Except TreeError (List Handle) := do
  return (← f.accept root .ended []).reverse

end Forest

end SyntaxForest
