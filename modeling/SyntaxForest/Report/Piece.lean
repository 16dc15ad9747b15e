/-!
# Reports: painted pieces of text

A drawing is a list of pieces of text, each with the paint it is put on with, if any. It is written
out for a terminal, with the paints as escape sequences, or plainly, without them.
-/

namespace SyntaxForest.Report

/-- A colour of the terminal. -/
inductive Paint where
  | red
  | indexed (n : Nat)
deriving DecidableEq, Repr, Inhabited

namespace Paint

/-- The escape sequence that starts the paint. -/
def start : Paint → String
  | red => "\x1b[31m"
  | indexed n => "\x1b[38;5;" ++ toString n ++ "m"

/-- The escape sequence that ends any paint. -/
def stop : String := "\x1b[0m"

end Paint

/-- A text and the paint it is put on with. -/
structure Piece where
  paint? : Option Paint
  text : String
deriving DecidableEq, Repr, Inhabited

/-- Pieces one after another. -/
abbrev Drawing := List Piece

namespace Piece

/-- A text without paint. -/
def plain (text : String) : Piece := ⟨none, text⟩

/-- A text painted with a colour of the terminal. -/
def painted (colour : Nat) (text : String) : Piece := ⟨some (.indexed colour), text⟩

/-- The end of a line. -/
def newLine : Piece := plain "\n"

/-- The given number of spaces. -/
def spaces (n : Nat) : Piece := plain (String.ofList (List.replicate n ' '))

/-- The piece as it is written, with its paint or without it. -/
def write (coloured : Bool) (p : Piece) : String :=
  match coloured, p.paint? with
  | true, some paint => paint.start ++ p.text ++ Paint.stop
  | _, _ => p.text

end Piece

/-- The drawing as it is written, with its paints or without them. -/
def Drawing.write (coloured : Bool) (d : Drawing) : String :=
  d.foldl (fun text p => text ++ p.write coloured) ""

end SyntaxForest.Report
