import SyntaxForest.Span

/-!
# Reports: what is asked of a report library

Reports are drawn by a library. What it is asked for is a `Request`: the message of the report, the
label that marks a span of the source text, and how it is to be drawn. What it gives back is a
`Picture`. A library refuses to make a label for some spans, and the program ends there.

Everything that is said of reports is said of any library; what is taken for granted of it is named
where it is used. The library that reports are drawn with here is `boxes`.
-/

namespace SyntaxForest.Report

/-- The end of a program that cannot go on, with its last message. -/
structure Panic where
  message : String
deriving DecidableEq, Repr, Inhabited

/-- What the offsets of a span count. -/
inductive OffsetUnit where
  | characters
  | bytes
deriving DecidableEq, Repr, Inhabited

/-- How a report is drawn: in colours and with offsets that count characters, if nothing else is
said. -/
structure Config where
  coloured : Bool := true
  unit : OffsetUnit := .characters
deriving DecidableEq, Repr, Inhabited

/-- A label: the span that it marks, what it says, and its colour. -/
structure Annotation where
  span : Span
  message : String
  colour : Nat
deriving DecidableEq, Repr, Inhabited

/-- A report of an error in a source text with one label. -/
structure Request where
  sourceName : String
  position : Span
  message : String
  code? : Option String
  label : Annotation
  help? : Option String
  config : Config
deriving DecidableEq, Repr, Inhabited

/-- A line and a column in it, both counted from one on. -/
structure LineColumn where
  line : Nat
  column : Nat
deriving DecidableEq, Repr, Inhabited

/-- What is drawn for a report: the text, the place that its heading names, and the part of the
source text that its label marks. -/
structure Picture where
  text : String
  heading? : Option LineColumn
  marked : List Char
deriving DecidableEq, Repr, Inhabited

/-- **A report library.** -/
structure Library where
  /-- The colours that are given out for labels, one after another. -/
  colour : Nat → Nat
  /-- Makes a label for a span, or ends the program. -/
  label : Span → Except Panic Unit
  /-- Draws a report over a source text. -/
  draw : Request → String → Except Panic Picture
  /-- The place of the character with an index in a source text. -/
  place : String → Nat → LineColumn

end SyntaxForest.Report
