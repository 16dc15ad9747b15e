import SyntaxForest.Conversion.Error
import SyntaxForest.Report.Boxes

/-!
# Reports: a failed conversion beside its source text

The report of a failure is drawn over the source text if the span of the failure ends within the
text; otherwise only the message and the hint are written. Whether it ends within the text is
decided by the length in bytes. The library that draws the report is asked for a label at the span,
and is told nothing about what the offsets of the span count.
-/

namespace SyntaxForest.Report

/-- The message and the hint of a failure without a place in the source text. -/
def unplaced (d : Diagnostic) : String :=
  "Error: " ++ d.message ++ "\n" ++
    match d.help? with
    | some help => "Help: " ++ help ++ "\n"
    | none => ""

/-- The name that reports have for the source text. -/
def sourceId : String := "<source>"

/-- What a library is asked for to report a failure at a span. -/
def request (d : Diagnostic) (span : Span) (colour : Nat) (coloured : Bool) : Request where
  sourceName := sourceId
  position := span
  message := d.message
  code? := some d.code
  label := { span, message := d.message, colour }
  help? := d.help?
  config := { coloured }

end SyntaxForest.Report

namespace SyntaxForest.ConversionError

open Report

/-- The picture of a failed conversion. Of the colours for labels, the first one is not used. -/
def picture (library : Library) (e : ConversionError) (source : String) (coloured : Bool) :
    Except Panic Picture :=
  match e.span?.filter fun span => span.stop ≤ source.utf8ByteSize with
  | none => return { text := unplaced e.diagnostic, heading? := none, marked := [] }
  | some span => do
    library.label span
    library.draw (request e.diagnostic span (library.colour 1) coloured) source

/-- The report of a failed conversion by a library, with colours for a terminal or without. -/
def renderBy (library : Library) (e : ConversionError) (source : String) (coloured : Bool) :
    Except Panic String :=
  return (← e.picture library source coloured).text

/-- The report of a failed conversion, drawn in boxes. -/
def render (e : ConversionError) (source : String) (coloured : Bool) : Except Panic String :=
  e.renderBy boxes source coloured

end SyntaxForest.ConversionError
