import SyntaxForest.Report.Piece
import SyntaxForest.Report.SourceLine

/-!
# Reports: drawing a label

A label marks a span of a source text and carries a message. It is drawn below the source line that
it is about, with an arrow from the middle of the span to the message, or, if the span goes over
several lines, beside its first and its last line. To the left of every line there is a margin with
the line number or a bar.

A span may end past the last character of the text. Then the message cannot be placed: of a label on
one line only the margin is drawn, and a label over several lines is drawn without its last line.
-/

namespace SyntaxForest.Report

/-- The colour of source text outside the label. -/
def textColour : Nat := 249

/-- The colour of line numbers and of the frame. -/
def frameColour : Nat := 246

/-- The colour of the margin where there is no line number. -/
def marginColour : Nat := 240

/-- The colour of the word that introduces a hint. -/
def hintColour : Nat := 115

/-- A label with the lines that the first and the last position of its span belong to, and their
indices. -/
structure Label extends Annotation where
  firstIndex : Nat
  first : SourceLine
  lastIndex : Nat
  last : SourceLine
deriving DecidableEq, Repr, Inhabited

namespace Label

/-- A label in a text, if the ends of its span belong to lines of the text. -/
def of? (text : List Char) (a : Annotation) : Option Label := do
  let (first, firstIndex) ← lineAt? text a.span.start
  let (last, lastIndex) ←
    if a.span.start < a.span.stop then lineAt? text (a.span.stop - 1)
    else some (first, firstIndex)
  return { toAnnotation := a, firstIndex, first, lastIndex, last }

/-- Whether a position is marked by the label. -/
def covers (l : Label) (position : Nat) : Bool :=
  l.span.start ≤ position && position < l.span.stop

/-- Whether the span lies on one line. -/
def isSingleLine (l : Label) : Bool := l.firstIndex = l.lastIndex

/-- The number of digits of the last line number. -/
def numberWidth (l : Label) : Nat := (toString (l.lastIndex + 1)).length

/-! ### Margin -/

/-- A piece in the colour of the label. -/
def mark (l : Label) (text : String) : Piece := .painted l.colour text

/-- The margin of a line without number. -/
def margin (l : Label) (bar : String) : Drawing :=
  [.plain " ",
    .painted marginColour (String.ofList (List.replicate (l.numberWidth + 1) ' ') ++ bar),
    .plain " "]

/-- The margin of the line with the given index. -/
def numbered (l : Label) (index : Nat) : Drawing :=
  let number := toString (index + 1)
  let padding := String.ofList (List.replicate (l.numberWidth - number.length) ' ')
  [.plain " ", .painted frameColour (padding ++ number ++ " │"), .plain " "]

/-! ### Columns -/

/-- The visible text of a line, with the marked characters in the colour of the label. -/
def text (l : Label) (line : SourceLine) : Drawing :=
  line.visible.zipIdx.flatMap fun (c, index) =>
    let colour := if l.covers (line.offset + index) then l.colour else textColour
    (glyphsAt index c).map (Piece.painted colour)

/-- One cell below each of the first `n` characters of a line: a head, and a tail for each further
column of the character. -/
def cells (line : SourceLine) (n : Nat) (cell : Nat → Piece × Piece) : Drawing :=
  (line.columns n).zipIdx.flatMap fun (width, index) =>
    match width with
    | 0 => []
    | width + 1 =>
      let (head, tail) := cell index
      head :: List.replicate width tail

/-- A cell filled with one piece. -/
def filled (p : Piece) : Piece × Piece := (p, p)

/-- The cell under a character next to the arrow: underlined if the character is marked. -/
def underline (l : Label) (position : Nat) : Piece × Piece :=
  if l.covers position then filled (l.mark "─") else filled (.plain " ")

/-- The cell where the arrow leaves the marked text. -/
def arrowStart (l : Label) (position : Nat) : Piece × Piece :=
  if l.covers position then (l.mark "┬", l.mark "─") else (l.mark "│", l.mark " ")

/-- The cell where the arrow turns towards the message. -/
def arrowTurn (l : Label) : Piece × Piece := (l.mark "╰", l.mark "─")

/-! ### One line -/

/-- The index in its line of the character that the arrow starts from. -/
def middle (l : Label) : Nat := (l.span.start + l.span.stop) / 2 - l.first.offset

/-- A label on one line. -/
def single (l : Label) : Drawing :=
  if l.first.stop < l.span.stop then l.margin "│" ++ [.newLine]
  else
    let n := l.span.stop - l.first.offset + 2
    let under := fun index =>
      if index = l.middle then l.arrowStart (l.first.offset + index)
      else l.underline (l.first.offset + index)
    let arrow := fun index =>
      if index = l.middle then l.arrowTurn
      else if l.middle < index then filled (l.mark "─")
      else filled (.plain " ")
    l.numbered l.firstIndex ++ l.text l.first ++ [.newLine] ++
      l.margin "│" ++ cells l.first n under ++ [.newLine] ++
      l.margin "│" ++ cells l.first n arrow ++ [.plain (" " ++ l.message), .newLine]

/-! ### Several lines -/

/-- Whether the span ends within its last line. -/
def endsInLast (l : Label) : Bool := l.span.stop - 1 < l.last.stop

/-- The last line of a label over several lines, with the arrow to the message. -/
def ending (l : Label) : Drawing :=
  let n := l.last.length + 2
  l.numbered l.lastIndex ++ [l.mark "├", l.mark "─", l.mark "▶", l.mark " "] ++ l.text l.last ++
    [.newLine] ++
    l.margin "│" ++ [l.mark "│", .spaces 3] ++ cells l.last n (fun _ => filled (.plain " ")) ++
    [.newLine] ++
    l.margin "│" ++ [l.mark "╰", l.mark "─", l.mark "─", l.mark "─"] ++
    cells l.last n (fun _ => filled (l.mark "─")) ++ [.plain (" " ++ l.message), .newLine]

/-- A label over several lines. -/
def multiple (l : Label) : Drawing :=
  let gap := l.firstIndex + 1 < l.lastIndex || !l.endsInLast
  l.numbered l.firstIndex ++ [l.mark "╭", l.mark "─", l.mark "▶", l.mark " "] ++ l.text l.first ++
    [.newLine] ++
    (if gap then l.margin "┆" ++ [l.mark "┆", .spaces 3, .newLine] else []) ++
    (if l.endsInLast then l.ending else [])

/-- The label below or beside its lines. -/
def body (l : Label) : Drawing := if l.isSingleLine then l.single else l.multiple

/-! ### What is marked -/

/-- Whether the label is drawn up to the end of its span. -/
def isWhole (l : Label) : Bool :=
  if l.isSingleLine then l.span.stop ≤ l.first.stop else l.endsInLast

/-- The characters of the text that the label marks, in its colour and, on one line, with a stroke
below them: those of its span, if it is drawn up to the end of that. -/
def marked (l : Label) (text : List Char) : List Char :=
  if l.isWhole then (text.zipIdx.filter fun entry => l.covers entry.2).map Prod.fst else []

/-! ### Frame -/

/-- The place of the first position of the span. -/
def place (l : Label) : LineColumn := ⟨l.firstIndex + 1, l.span.start - l.first.offset + 1⟩

/-- The line above the source text, which names the text and the place of the span in it. -/
def header (l : Label) (sourceName : String) : Drawing :=
  let place := toString l.place.line ++ ":" ++ toString l.place.column
  [.spaces (l.numberWidth + 2), .painted frameColour "╭", .painted frameColour "─",
    .painted frameColour "[", .plain (" " ++ sourceName ++ ":" ++ place ++ " "),
    .painted frameColour "]", .newLine, .spaces (l.numberWidth + 2), .painted frameColour "│",
    .newLine]

/-- What stands between the margin and a hint. The bar of a label over several lines goes on down to
the hint if the label starts at the position that equals the length of the first line of the
text. -/
def hintIndent (l : Label) (firstLength : Nat) : Drawing :=
  if l.isSingleLine then []
  else if l.span.start = firstLength then [l.mark "│", .spaces 3]
  else [.spaces 4]

/-- A hint below the source text. -/
def hint (l : Label) (firstLength : Nat) (help : String) : Drawing :=
  l.margin "│" ++ l.hintIndent firstLength ++ [.newLine] ++
    l.margin "│" ++ l.hintIndent firstLength ++
    [.painted hintColour "Help", .plain (": " ++ help), .newLine]

/-- The line below everything. -/
def footer (l : Label) : Drawing :=
  [.painted frameColour (String.ofList (List.replicate (l.numberWidth + 2) '─') ++ "╯"), .newLine]

end Label

end SyntaxForest.Report
