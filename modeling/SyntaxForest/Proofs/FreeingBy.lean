import SyntaxForest.Forest.Copy
import SyntaxForest.Proofs.Run
import SyntaxForest.Proofs.Stages

/-! # Freeing by another procedure

Operations and conversions free nodes by calls of `freeSubtree`, some of them in the middle of an
operation, on forests that no user sees. To say what holds at each of these calls, the operations are
written here with any procedure in the place of `freeSubtree`: `Operation.runBy`,
`SourceTree.convertBy`. What an operation does with a procedure then depends on what that does where
it is called, and on nothing else.

With `freeSubtree` itself they are the operations as they are (`Operation.runBy_freeSubtree`,
`SourceTree.convertBy_freeSubtree`). -/

namespace SyntaxForest

open Forest

/-! ### Edits -/

/-- The forest after a procedure has freed several handles, one after another. -/
def Forest.freeBy (free : Forest → Handle → Forest) (f : Forest) (hs : List Handle) : Forest :=
  hs.foldl free f

namespace Edit

variable (free : Forest → Handle → Forest)

/-- `setSlot` with another procedure. -/
def setSlotBy (parent : Handle) (field : Field) (child : Handle) : Edit Unit := do
  let previous ← ask fun f => f.slot parent field
  ask fun f => f.checkInstallable parent field child
  change fun f => (f.fillSlot parent field (some child)).setOwner child (some parent)
  change fun f => f.freeBy free previous.toList

/-- `clearSlot` with another procedure. -/
def clearSlotBy (parent : Handle) (field : Field) : Edit Unit := do
  let previous ← take parent field
  change fun f => f.freeBy free previous.toList

/-- `clearSeq` with another procedure. -/
def clearSeqBy (parent : Handle) (field : Field) : Edit Unit := do
  let elements ← ask fun f => f.seq parent field
  change fun f => (f.fillSeq parent field []).freeBy free elements

/-- `discard` with another procedure. -/
def discardBy (h : Handle) : Edit Unit := do
  match ← ask fun f => f.owner? h with
  | some owner => throw (.alreadyOwned h owner)
  | none => change fun f => free f h

/-- `copyNodes` with another procedure. -/
def copyNodesBy (stack : CopyStack) : List Handle → Edit CopyStack
  | [] => pure stack
  | h :: rest => do
    let (node, stack) ←
      onRefusal (ask fun f => CopyStack.copyNode f h stack) fun f => f.freeBy free stack
    let copy ← store node
    copyNodesBy (copy :: stack) rest

/-- `copy` with another procedure. -/
def copyBy (h : Handle) : Edit Handle := do
  let order ← ask fun f => f.preorder h
  match ← copyNodesBy free [] order.reverse with
  | root :: _ => return root
  | [] => throw (.staleNode h)

/-- `copySlotFrom` with another procedure. -/
def copySlotFromBy (parent : Handle) (field : Field) (source : Handle) (sourceField : Field) :
    Edit Unit := do
  let optional ← ask fun f => f.slotIsOptional parent field
  match ← ask fun f => f.slot source sourceField with
  | some occupant =>
    let copied ← copyBy free occupant
    onRefusal (setSlotBy free parent field copied) fun f => free f copied
  | none =>
    if optional then clearSlotBy free parent field else throw (.emptySlot source sourceField)

/-- `copyAll` with another procedure. -/
def copyAllBy (field : Field) (done : List Handle) : List Handle → Edit (List Handle)
  | [] => pure done
  | h :: rest => do
    let copied ← onRefusal (copyBy free h) fun f => f.freeBy free done
    onRefusal (ask fun f => f.checkAttachable field copied) fun f => f.freeBy free (copied :: done)
    copyAllBy field (done ++ [copied]) rest

/-- `copySeqFrom` with another procedure. -/
def copySeqFromBy (parent : Handle) (field : Field) (source : Handle) (sourceField : Field) :
    Edit Unit := do
  let previous ← ask fun f => f.seq parent field
  let elements ← ask fun f => f.seq source sourceField
  let copies ← copyAllBy free field [] elements
  change fun f => ((f.claim parent copies).fillSeq parent field copies).freeBy free previous

end Edit

open Answer Edit in
/-- Runs an operation with another procedure for `freeSubtree`. The operations that are not listed
free nothing. -/
def Operation.runBy (free : Forest → Handle → Forest) : Operation → Edit Answer
  | setSlot p field c => answering (fun _ => done) (setSlotBy free p field c)
  | setLeftOperand h c => answering (fun _ => done) do
    let _ ← ask fun f => f.operator h
    setSlotBy free h .leftOperand c
  | setRightOperand h c => answering (fun _ => done) do
    let _ ← ask fun f => f.operator h
    setSlotBy free h .rightOperand c
  | clearSlot p field => answering (fun _ => done) (clearSlotBy free p field)
  | copySlotFrom p field s g => answering (fun _ => done) (copySlotFromBy free p field s g)
  | clearSeq p field => answering (fun _ => done) (clearSeqBy free p field)
  | copySeqFrom p field s g => answering (fun _ => done) (copySeqFromBy free p field s g)
  | discard h => answering (fun _ => done) (discardBy free h)
  | copy h => answering created (copyBy free h)
  | op => op.run

/-! ### Conversions -/

namespace Conversion

variable {α : Type} (free : Forest → Handle → Forest)

/-- `orFree` with another procedure. -/
def orFreeBy (nodes : List Handle) (step : Conversion α) : Conversion α := fun w =>
  match step w with
  | .ok a w => .ok a w
  | .error cause ⟨forest, types⟩ => .error cause ⟨forest.freeBy free nodes, types⟩

/-- `expect` with another procedure. -/
def expectBy (expected : Category) (info : SourceInfo) (h : Handle) : Conversion Handle := do
  let found ← edit (Edit.ask fun f => f.kind h)
  if found.category = expected then return h
  else do
    edit (Edit.discardBy free h)
    throw (.malformedSource expected found info.span?)

/-- Makes children one after another; each comes with the category that its place expects and with
what its source node says. The children made so far are freed by another procedure if one fails. -/
def makeEachBy (before : List Handle) :
    List (Category × SourceInfo × Conversion Handle) → Conversion (List Handle)
  | [] => return []
  | (expected, info, make) :: rest => do
    let h ← orFreeBy free before (make >>= expectBy free expected info)
    return h :: (← makeEachBy (before ++ [h]) rest)

end Conversion

namespace SourceTree

open Conversion

/-- `convertAt` with another procedure. -/
def convertAtBy (free : Forest → Handle → Forest) (options : ConversionOptions) (depth : Nat)
    (s : SourceTree) : Conversion Handle :=
  atDepth options depth s.info do
    let payload ← s.prepare
    let cs ← makeEachBy free [] (s.positions.attach.map fun p =>
      (p.1.1, p.1.2.info, p.1.2.convertAtBy free options (depth + 1)))
    orFreeBy free cs (edit (Edit.build { payload := payload cs }))
termination_by sizeOf s
decreasing_by exact sizeOf_positions_lt p.2

/-- Converts a source tree with another procedure for `freeSubtree`. -/
def convertBy (free : Forest → Handle → Forest) (options : ConversionOptions) (s : SourceTree) :
    Conversion Handle := s.convertAtBy free options 0

end SourceTree

/-! ### With `freeSubtree` itself -/

namespace Edit

theorem copyNodesBy_freeSubtree : ∀ (hs : List Handle) (stack : CopyStack),
    copyNodesBy freeSubtree stack hs = copyNodes stack hs
  | [], _ => rfl
  | h :: hs, stack => by
    rw [copyNodesBy, copyNodes]
    simp only [copyNodesBy_freeSubtree hs]
    rfl

theorem copyBy_freeSubtree (h : Handle) : copyBy freeSubtree h = copy h := by
  refine congrArg (Bind.bind _) (funext fun order => ?_)
  exact congrArg (Bind.bind · _) (copyNodesBy_freeSubtree order.reverse [])

theorem copyAllBy_freeSubtree (field : Field) : ∀ hs done : List Handle,
    copyAllBy freeSubtree field done hs = copyAll field done hs
  | [], _ => rfl
  | h :: hs, done => by
    rw [copyAllBy, copyAll]
    simp only [copyBy_freeSubtree, copyAllBy_freeSubtree field hs]
    rfl

end Edit

/-- **With `freeSubtree` an operation is run as it is.** -/
theorem Operation.runBy_freeSubtree (op : Operation) : op.runBy freeSubtree = op.run := by
  cases op with
  | copy h => rw [runBy, run, Edit.copyBy_freeSubtree]
  | copySlotFrom =>
    simp only [runBy, run, Edit.copySlotFromBy, Edit.copySlotFrom, Edit.copyBy_freeSubtree]
    rfl
  | copySeqFrom =>
    simp only [runBy, run, Edit.copySeqFromBy, Edit.copySeqFrom, Edit.copyAllBy_freeSubtree]
    rfl
  | _ => rfl

namespace SourceTree

open Conversion

theorem convertAtBy_stages (free : Forest → Handle → Forest) (options : ConversionOptions)
    (depth : Nat) (s : SourceTree) : s.convertAtBy free options depth =
      atDepth options depth s.info (do
        let payload ← s.prepare
        let cs ← makeEachBy free [] (s.positions.map fun p =>
          (p.1, p.2.info, p.2.convertAtBy free options (depth + 1)))
        orFreeBy free cs (edit (Edit.build { payload := payload cs }))) := by
  rw [convertAtBy, List.map_subtype
    (g := fun p => (p.1, p.2.info, p.2.convertAtBy free options (depth + 1))) (by simp),
    List.unattach_attach]

theorem convertEach_eq (options : ConversionOptions) (depth : Nat) :
    ∀ (ps : List (Category × SourceTree)) (before : List Handle),
      convertEach options depth before ps = makeEachBy freeSubtree before
        (ps.map fun p => (p.1, p.2.info, p.2.convertAt options depth))
  | [], _ => rfl
  | p :: ps, before => by
    rw [convertEach, List.map_cons, makeEachBy]
    simp only [convertEach_eq options depth ps]
    rfl

theorem convertAtBy_freeSubtree (options : ConversionOptions) (s : SourceTree) : ∀ depth : Nat,
    s.convertAtBy freeSubtree options depth = s.convertAt options depth := by
  induction s using SourceTree.induction with
  | _ s ih =>
    intro depth
    have hchildren : s.positions.map (fun p =>
          (p.1, p.2.info, p.2.convertAtBy freeSubtree options (depth + 1))) =
        s.positions.map fun p => (p.1, p.2.info, p.2.convertAt options (depth + 1)) :=
      List.map_congr_left fun p hp => by rw [ih p.2 (List.mem_map_of_mem hp) (depth + 1)]
    rw [convertAtBy_stages, convertAt_eq, hchildren]
    simp only [convertEach_eq]
    rfl

/-- **With `freeSubtree` a source tree is converted as it is.** -/
theorem convertBy_freeSubtree (options : ConversionOptions) (s : SourceTree) :
    s.convertBy freeSubtree options = s.convert options := convertAtBy_freeSubtree options s 0

end SourceTree

end SyntaxForest
