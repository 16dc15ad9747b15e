/-!
# Trees: string literals

A string literal stands between double quotes. A double quote, a backslash, a line feed, a carriage
return and a tab in it are written with a backslash in front; all other characters stand for
themselves.
-/

namespace SyntaxForest.Literal

/-- How a character is written in a string literal. -/
def escape : Char → List Char
  | '"' => ['\\', '"']
  | '\\' => ['\\', '\\']
  | '\n' => ['\\', 'n']
  | '\r' => ['\\', 'r']
  | '\t' => ['\\', 't']
  | c => [c]

/-- How the characters of a string are written, without the quotes. -/
def body (cs : List Char) : List Char := cs.flatMap escape

/-- The string literal of the given characters. -/
def quote (cs : List Char) : List Char := '"' :: body cs ++ ['"']

end SyntaxForest.Literal
