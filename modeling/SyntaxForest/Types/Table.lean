import SyntaxForest.Types.Text

/-!
# Types: the table that interns them

A table stores each type once: asking for a type that is already there, up to structure, gives back
the reference of its first storing. Within one table identity and structural equality of the
references it gives out therefore coincide.

All requests answer a reference together with the table after the request.
-/

namespace SyntaxForest

/-- The types stored so far, in the order of their first storing, and the name of the table. -/
structure TypeTable where
  name : Nat
  bindings : Array TypeBinding
deriving Repr, Inhabited

namespace TypeTable

/-- The table with nothing stored. -/
def empty (name : Nat) : TypeTable := ⟨name, #[]⟩

/-- The number of types stored. -/
def size (t : TypeTable) : Nat := t.bindings.size

/-- Whether nothing is stored. -/
def isEmpty (t : TypeTable) : Bool := t.size = 0

/-- The place where a type is stored, if it is. -/
def index? (t : TypeTable) (b : TypeBinding) : Option Nat :=
  let shape := b.shape
  t.bindings.findIdx? (fun c => c.shape = shape)

/-- The reference of a type, which is stored if it was not. -/
def intern (t : TypeTable) (b : TypeBinding) : TypeRef × TypeTable :=
  match t.index? b with
  | some i => (⟨⟨t.name, i⟩, t.bindings.getD i b⟩, t)
  | none => (⟨⟨t.name, t.size⟩, b⟩, { t with bindings := t.bindings.push b })

/-- The reference of a primitive type. -/
def primitive (t : TypeTable) (p : Primitive) : TypeRef × TypeTable := t.intern (.primitive p)

/-- The reference of `boolean`. -/
def boolean (t : TypeTable) : TypeRef × TypeTable := t.primitive .boolean

/-- The reference of `int`. -/
def int (t : TypeTable) : TypeRef × TypeTable := t.primitive .int

/-- The reference of `long`. -/
def long (t : TypeTable) : TypeRef × TypeTable := t.primitive .long

/-- The reference of `double`. -/
def double (t : TypeTable) : TypeRef × TypeTable := t.primitive .double

/-- The reference of a class or interface, by its qualified name. -/
def declared (t : TypeTable) (name : String) : TypeRef × TypeTable := t.intern (.declared name)

/-- The reference of an array type, by the reference of its element type. -/
def array (t : TypeTable) (element : TypeRef) : TypeRef × TypeTable :=
  t.intern (.array element.place element.binding)

/-- The reference of the type of `null`. -/
def null (t : TypeTable) : TypeRef × TypeTable := t.intern .null

/-- The reference of the array type with the given number of dimensions over an element type. -/
def arrays (t : TypeTable) (element : TypeRef) : Nat → TypeRef × TypeTable
  | 0 => (element, t)
  | n + 1 =>
    let (inner, t) := t.arrays element n
    t.array inner

/-- The reference of the type that a text names. Types inside an array type are stored before it. -/
def resolve (t : TypeTable) (text : String) : TypeRef × TypeTable :=
  let parts := TypeText.read text
  let (base, t) := t.intern parts.baseBinding
  t.arrays base parts.dimensions

end TypeTable

end SyntaxForest
