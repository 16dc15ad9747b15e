import SyntaxForest.Node.Error
import SyntaxForest.Operator
import SyntaxForest.Span

/-!
# Conversion: causes of failure and their wording
-/

namespace SyntaxForest

/-- Why a source tree was not converted, with the range of the faulty node if it is known. -/
inductive ConversionError where
  | unmappedOperator (operator : UnmappedOperator) (span? : Option Span)
  | malformedSource (expected : Category) (found : Kind) (span? : Option Span)
  | tooDeep (maxDepth : Nat) (span? : Option Span)
  | tree (cause : TreeError)
deriving DecidableEq, Repr, Inhabited

namespace ConversionError

/-- The range of the source text that the failure is about. -/
def span? : ConversionError → Option Span
  | unmappedOperator _ span? | malformedSource _ _ span? | tooDeep _ span? => span?
  | tree _ => none

/-- The diagnostic of a failed conversion. -/
def diagnostic : ConversionError → Diagnostic
  | unmappedOperator operator _ =>
    { message := operator.message
      code := "transir::convert::unmapped_operator"
      help? := some UnmappedOperator.hint }
  | malformedSource expected found _ =>
    { message :=
        "expected " ++ expected.name ++ " here, but the source node converts to " ++ found.display
      code := "transir::convert::malformed_source" }
  | tooDeep maxDepth _ =>
    { message := "source tree nests deeper than the maximum of " ++ toString maxDepth ++ " levels"
      code := "transir::convert::too_deep"
      help? := some "raise `ConvertOptions::max_depth` or split the input" }
  | tree cause => cause.diagnostic

end ConversionError

end SyntaxForest
