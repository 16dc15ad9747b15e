/-!
# Types: primitives, bindings, references

A binding is a resolved type of a tree. Bindings are held through references, each of which names
the place of the table that the binding was stored in. Two references may be compared in two ways:

* by identity, `TypeRef.same`: the same place of the same table;
* by structure, `TypeBinding.alike`: the same type spelled out in full, `TypeBinding.shape`,
  whatever the tables.
-/

namespace SyntaxForest

/-- The primitive types. -/
inductive Primitive where
  | boolean
  | byte
  | char
  | short
  | int
  | long
  | float
  | double
  | void
deriving DecidableEq, Repr, Inhabited

namespace Primitive

/-- Every primitive type, in the order of declaration. -/
def all : List Primitive := [boolean, byte, char, short, int, long, float, double, void]

/-- The keyword of the type. -/
def name : Primitive → String
  | boolean => "boolean"
  | byte => "byte"
  | char => "char"
  | short => "short"
  | int => "int"
  | long => "long"
  | float => "float"
  | double => "double"
  | void => "void"

/-- The primitive type with the keyword `name`. -/
def ofName? (name : String) : Option Primitive := all.find? (fun p => p.name == name)

/-- Whether values of the type are numbers, characters included. -/
def isNumeric : Primitive → Bool
  | boolean | void => false
  | _ => true

/-- Whether values of the type are whole numbers, characters included. -/
def isIntegral : Primitive → Bool
  | byte | char | short | int | long => true
  | _ => false

theorem ofName?_name (p : Primitive) : ofName? p.name = some p := by cases p <;> rfl

theorem name_of_ofName? {s : String} {p : Primitive} (h : ofName? s = some p) : p.name = s := by
  simpa using List.find?_some h

end Primitive

/-- A place in one of the tables of types. -/
structure TypeId where
  table : Nat
  index : Nat
deriving DecidableEq, Repr, Inhabited

/-- A type, with no mention of where it is stored. -/
inductive TypeShape where
  | primitive (p : Primitive)
  | declared (name : String)
  | array (element : TypeShape)
  | null
deriving DecidableEq, Repr, Inhabited

/-- A resolved type. An array holds its element and the place where the element is stored. -/
inductive TypeBinding where
  | primitive (p : Primitive)
  | declared (name : String)
  | array (place : TypeId) (element : TypeBinding)
  | null
deriving DecidableEq, Repr, Inhabited

/-- A binding together with the place where it is stored. -/
structure TypeRef where
  place : TypeId
  binding : TypeBinding
deriving DecidableEq, Repr, Inhabited

namespace TypeShape

/-- How the type is written. -/
def text : TypeShape → String
  | primitive p => p.name
  | declared name => name
  | array element => element.text ++ "[]"
  | null => "null"

end TypeShape

namespace TypeBinding

/-- The type spelled out in full. -/
def shape : TypeBinding → TypeShape
  | primitive p => .primitive p
  | declared name => .declared name
  | array _ element => .array element.shape
  | null => .null

/-- Whether two bindings are the same type, wherever they are stored. -/
def alike (a b : TypeBinding) : Bool := a.shape = b.shape

/-- How the type is written. -/
def text (b : TypeBinding) : String := b.shape.text

/-- Whether the type is a primitive one. -/
def isPrimitive : TypeBinding → Bool
  | primitive _ => true
  | _ => false

/-- Whether the type is `boolean`. -/
def isBoolean (b : TypeBinding) : Bool := b = primitive .boolean

/-- Whether the type is a primitive type of numbers. -/
def isNumeric : TypeBinding → Bool
  | primitive p => p.isNumeric
  | _ => false

/-- Whether the type is a primitive type of whole numbers. -/
def isIntegral : TypeBinding → Bool
  | primitive p => p.isIntegral
  | _ => false

/-- Whether the type is an array type. -/
def isArray : TypeBinding → Bool
  | array .. => true
  | _ => false

/-- The type of the elements of an array type. -/
def element? : TypeBinding → Option TypeRef
  | array place element => some ⟨place, element⟩
  | _ => none

end TypeBinding

namespace TypeRef

/-- Whether two references name the same place. -/
def same (a b : TypeRef) : Bool := a.place = b.place

/-- Whether two references lead to the same type. -/
def alike (a b : TypeRef) : Bool := a.binding.alike b.binding

/-- The type referred to, spelled out in full. -/
def shape (r : TypeRef) : TypeShape := r.binding.shape

end TypeRef

end SyntaxForest
