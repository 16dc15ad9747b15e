import SyntaxForest.Forest.Sequences

/-!
# Forests: chains of operands

Questions about chains, and the edits of their two fixed operands. Nodes of any other kind are
refused before their fields are looked at.
-/

namespace SyntaxForest

namespace Forest

/-- The operator of a chain. -/
def operator (f : Forest) (h : Handle) : Except TreeError Operator := do
  match ← f.payload h with
  | .chain operator .. => return operator
  | other => throw (.kindMismatch .chain other.kind)

/-- The left operand of a chain. -/
def leftOperand (f : Forest) (h : Handle) : Except TreeError Handle := do
  let _ ← f.operator h
  f.required h .leftOperand

/-- The right operand of a chain. -/
def rightOperand (f : Forest) (h : Handle) : Except TreeError Handle := do
  let _ ← f.operator h
  f.required h .rightOperand

/-- The operands of a chain after the first two. -/
def extendedOperands (f : Forest) (h : Handle) : Except TreeError (List Handle) := do
  let _ ← f.operator h
  f.seq h .extendedOperands

/-- All operands of a chain, in the order of evaluation. -/
def operands (f : Forest) (h : Handle) : Except TreeError (List Handle) := do
  let _ ← f.operator h
  f.children h

end Forest

/-- The view of the operands of a chain after the first two. -/
def SequenceView.ofChain (f : Forest) (h : Handle) : Except TreeError SequenceView := do
  let _ ← f.operator h
  SequenceView.of f h .extendedOperands

namespace Edit

/-- Installs a detached node as the left operand of a chain and frees the one that was there. -/
def setLeftOperand (h operand : Handle) : Edit Unit := do
  let _ ← ask fun f => f.operator h
  setSlot h .leftOperand operand

/-- Installs a detached node as the right operand of a chain and frees the one that was there. -/
def setRightOperand (h operand : Handle) : Edit Unit := do
  let _ ← ask fun f => f.operator h
  setSlot h .rightOperand operand

end Edit

end SyntaxForest
