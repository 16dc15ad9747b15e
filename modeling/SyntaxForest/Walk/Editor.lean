import SyntaxForest.Walk.Frame

/-!
# Walks: editing a tree

An editor may change the forest while it walks a tree. The children walked below a node are those
it has when its `visit` returns; a child that is gone, or has another owner, when its turn comes is
skipped. An editor that keeps adding nodes may never come to an end, so a walk is a machine that
is run step by step.

* `EditingWalk.start` visits the root, `EditingWalk.step` goes one step further;
* `EditingWalk.run` takes a given number of steps, fewer if the walk ends before.
-/

namespace SyntaxForest

/-- What is done at the nodes of a tree, changing the forest and a state of type `σ`. -/
structure Editor (σ : Type) where
  visit : Forest → Handle → σ → Bool × Forest × σ := fun f _ s => (true, f, s)
  endVisit : Forest → Handle → σ → Forest × σ := fun f _ s => (f, s)

variable {σ : Type}

/-- A walk under way: the visits that have not ended, the last one in front, the forest and the
state of the editor. -/
structure EditingWalk (σ : Type) where
  frames : List Frame
  forest : Forest
  state : σ

namespace EditingWalk

/-- Visits a node on top of the given frames. -/
def enter (e : Editor σ) (h : Handle) (frames : List Frame) (f : Forest) (s : σ) :
    EditingWalk σ :=
  let (descend, f, s) := e.visit f h s
  ⟨⟨h, f.below h descend⟩ :: frames, f, s⟩

/-- One step of a walk: visits or skips the next child of the top frame, or ends its visit. -/
def step (e : Editor σ) : EditingWalk σ → EditingWalk σ
  | ⟨[], f, s⟩ => ⟨[], f, s⟩
  | ⟨⟨h, []⟩ :: frames, f, s⟩ =>
    let (f, s) := e.endVisit f h s
    ⟨frames, f, s⟩
  | ⟨⟨h, child :: pending⟩ :: frames, f, s⟩ =>
    if f.owns h child then enter e child (⟨h, pending⟩ :: frames) f s
    else ⟨⟨h, pending⟩ :: frames, f, s⟩

/-- Whether every visit has ended. -/
def isFinished (w : EditingWalk σ) : Bool := w.frames.isEmpty

/-- Walks on for at most `n` steps. -/
def run (e : Editor σ) : Nat → EditingWalk σ → EditingWalk σ
  | 0, w => w
  | n + 1, w => if w.isFinished then w else run e n (step e w)

/-- Visits the root of the tree to walk. -/
def start (e : Editor σ) (root : Handle) (f : Forest) (s : σ) :
    Except TreeError (EditingWalk σ) := do
  let _ ← f.live root
  return enter e root [] f s

end EditingWalk

end SyntaxForest
