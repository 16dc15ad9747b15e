import SyntaxForest.Report.Label

/-!
# Reports: a library that draws boxes

A library that draws a report as a title with the code and the message, and below it a box: the place
of the span, the source lines that the span is about, the label, and the hint. Its offsets count
characters. A label of which one end is outside the text has no box.
-/

namespace SyntaxForest.Report

/-- What a report is of, with its code. -/
def kind (r : Request) : String :=
  match r.code? with
  | some code => "[" ++ code ++ "] Error:"
  | none => "Error:"

/-- The line with the code and the message of a report. -/
def title (r : Request) : Drawing := [⟨some .red, kind r⟩, .plain (" " ++ r.message), .newLine]

/-- The box of a label. -/
def box (r : Request) (source : List Char) (l : Label) : Drawing :=
  let firstLength := ((SourceLine.ofText source).head?.map SourceLine.length).getD 0
  l.header r.sourceName ++ l.body ++
    (match r.help? with
    | some help => l.hint firstLength help
    | none => []) ++
    l.footer

/-- The report drawn over its source text. -/
def drawing (r : Request) (source : List Char) : Drawing :=
  title r ++ ((Label.of? source r.label).map (box r source)).getD []

/-- **The library that draws boxes.** All its labels are of one colour, and a span that starts after
it ends cannot be labelled. -/
def boxes : Library where
  colour _ := 155
  label span := if span.stop < span.start then throw ⟨"Label start is after its end"⟩ else return ()
  draw r source :=
    let label? := Label.of? source.toList r.label
    return {
      text := (drawing r source.toList).write r.config.coloured
      heading? := label?.map Label.place
      marked := (label?.map fun l => l.marked source.toList).getD [] }
  place source := lineColumn source.toList

end SyntaxForest.Report
