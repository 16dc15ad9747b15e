import SyntaxForest.Text.Blank
import SyntaxForest.Types.Binding

/-!
# Types: reading their text

The text of a type is a base name followed by any number of `[]`. Blank characters do not count at
the start, at the end, and before each of the `[]`.

* `TypeText.read` splits a text into base and number of brackets, going over it from the end;
* `TypeText.write` writes the two together again, without the blanks.
-/

namespace SyntaxForest

/-- A base name and the number of `[]` that follow it. -/
structure TypeText where
  base : List Char
  dimensions : Nat
deriving DecidableEq, Repr, Inhabited

namespace TypeText

/-- Reads a reversed text up to the first character that belongs to the base name. -/
def peel : List Char → TypeText
  | ']' :: '[' :: cs =>
    let inner := peel cs
    { inner with dimensions := inner.dimensions + 1 }
  | c :: cs => if Text.isBlank c then peel cs else ⟨c :: cs, 0⟩
  | [] => ⟨[], 0⟩

/-- Reads the text of a type. -/
def read (text : String) : TypeText :=
  let peeled := peel (Text.trimStart text.toList).reverse
  { peeled with base := peeled.base.reverse }

/-- The text without blanks at its ends and before its brackets. -/
def write (t : TypeText) : String :=
  String.ofList (t.base ++ (List.replicate t.dimensions ['[', ']']).flatten)

/-- The type of the base name: a primitive type, the type of `null`, or a declared type. -/
def baseBinding (t : TypeText) : TypeBinding :=
  let name := String.ofList t.base
  if name = "null" then .null
  else
    match Primitive.ofName? name with
    | some p => .primitive p
    | none => .declared name

end TypeText

end SyntaxForest
