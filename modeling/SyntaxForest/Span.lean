/-!
# Spans

A range of positions in a source text. A span may start after it ends; such a span is empty and has
length zero.
-/

namespace SyntaxForest

/-- The positions from `start` up to, and not including, `stop`. -/
structure Span where
  start : Nat
  stop : Nat
deriving DecidableEq, Repr, Inhabited

namespace Span

/-- The number of positions in the span. -/
def length (s : Span) : Nat := s.stop - s.start

/-- Whether no position lies in the span. -/
def isEmpty (s : Span) : Bool := s.stop ≤ s.start

theorem isEmpty_iff_length_eq_zero (s : Span) : s.isEmpty ↔ s.length = 0 := by
  simp only [isEmpty, length, decide_eq_true_eq]; omega

end Span

end SyntaxForest
