import SyntaxForest.Report.Library
import SyntaxForest.Text.Blank

/-!
# Reports: the lines of a source text

A text is cut after each line terminator, a carriage return and the line feed after it counting as
one. Positions count characters. A text that ends in a terminator has no further line after it, and
the empty text has one empty line.

The lines and the columns of a text can also be counted from one character to the next
(`lineColumn`).

A character takes up a number of columns of the terminal, its width.
-/

namespace SyntaxForest.Report

/-- A line of a text: the position of its first character, and its characters, the terminator
included. -/
structure SourceLine where
  offset : Nat
  chars : List Char
deriving DecidableEq, Repr, Inhabited

/-- Whether a line ends after the character. -/
def isTerminator (c : Char) : Bool :=
  let n := c.toNat
  (0x0A ≤ n && n ≤ 0x0D) || n == 0x85 || n == 0x2028 || n == 0x2029

/-- Cuts a text after each terminator; `line` holds the characters of the line so far, the last one
in front. -/
def cut (line : List Char) : List Char → List (List Char)
  | [] => if line.isEmpty then [] else [line.reverse]
  | '\r' :: '\n' :: rest => ('\n' :: '\r' :: line).reverse :: cut [] rest
  | c :: rest => if isTerminator c then (c :: line).reverse :: cut [] rest else cut (c :: line) rest

namespace SourceLine

/-- Lines from a position on. -/
def place (offset : Nat) : List (List Char) → List SourceLine
  | [] => []
  | chars :: rest => ⟨offset, chars⟩ :: place (offset + chars.length) rest

/-- The lines of a text. -/
def ofText (text : List Char) : List SourceLine :=
  match place 0 (cut [] text) with
  | [] => [⟨0, []⟩]
  | lines => lines

/-- The number of characters, the terminator included. -/
def length (l : SourceLine) : Nat := l.chars.length

/-- The position after the line. -/
def stop (l : SourceLine) : Nat := l.offset + l.length

/-- The characters up to the last one that is not blank. -/
def visible (l : SourceLine) : List Char := Text.trimEnd l.chars

end SourceLine

/-- The last line that starts at or before a position, with its index. -/
def lastLineBefore (lines : List SourceLine) (position : Nat) : Option (SourceLine × Nat) :=
  (lines.zipIdx.filter fun (line, _) => line.offset ≤ position).getLast?

/-- The line that a position of a text belongs to, with its index; the position after the last
character belongs to the last line. -/
def lineAt? (text : List Char) (position : Nat) : Option (SourceLine × Nat) :=
  if text.length < position then none else lastLineBefore (SourceLine.ofText text) position

/-! ### Counting lines and columns -/

/-- Whether a line ends between a character and the rest of the text. -/
def endsLine (c : Char) (rest : List Char) : Bool :=
  isTerminator c && !(c = '\r' && rest.head? = some '\n')

/-- The place after one more character. -/
def LineColumn.next (place : LineColumn) (c : Char) (rest : List Char) : LineColumn :=
  if endsLine c rest then ⟨place.line + 1, 1⟩ else ⟨place.line, place.column + 1⟩

/-- The place of a position in a text that starts at a place. -/
def lineColumnFrom (place : LineColumn) : List Char → Nat → LineColumn
  | c :: rest, position + 1 => lineColumnFrom (place.next c rest) rest position
  | _, _ => place

/-- The line and the column of a position in a text. -/
def lineColumn (text : List Char) (position : Nat) : LineColumn := lineColumnFrom ⟨1, 1⟩ text position

/-! ### Widths -/

/-- The distance between two tab stops. -/
def tabWidth : Nat := 4

/-- The ranges of characters that are two columns wide: ideographs and what stands near them, the
syllables of Hangul, the full-width forms, and the pictographs. -/
def wideRanges : List (Nat × Nat) :=
  [(0x1100, 0x115F), (0x2E80, 0xA4CF), (0xA960, 0xA97F), (0xAC00, 0xD7A3), (0xF900, 0xFAFF),
    (0xFE30, 0xFE6F), (0xFF01, 0xFF60), (0xFFE0, 0xFFE6), (0x1F300, 0x10FFFF)]

/-- The number of columns of a character: none for a combining mark, two in the wide ranges. -/
def charWidth (c : Char) : Nat :=
  let n := c.toNat
  if 0x0300 ≤ n && n ≤ 0x036F then 0
  else if wideRanges.any fun (first, last) => first ≤ n && n ≤ last then 2
  else 1

/-- The number of columns of the character with a given index in its line. -/
def widthAt (index : Nat) (c : Char) : Nat :=
  if c = '\t' then tabWidth - index % tabWidth
  else if Text.isBlank c then 1
  else charWidth c

/-- What is drawn for the character with a given index in its line, one text for each piece. -/
def glyphsAt (index : Nat) (c : Char) : List String :=
  if c = '\t' then List.replicate (widthAt index c) " "
  else if Text.isBlank c then [" "]
  else [String.singleton c]

/-- The number of columns of each of the first `n` characters; one for those past the end of the
line. -/
def SourceLine.columns (l : SourceLine) (n : Nat) : List Nat :=
  (l.visible.zipIdx.map (fun (c, index) => widthAt index c) ++ List.replicate n 1).take n

end SyntaxForest.Report
