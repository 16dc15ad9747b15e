/-!
# Diagnostics

What the user is told about a failure. Each kind of failure in the library is an inductive type or
structure of causes; its wording, its code and its hint are given once, by a function to
`Diagnostic` beside that type.
-/

namespace SyntaxForest

/-- The wording of a failure, the code it is filed under, and a hint at its cure. -/
structure Diagnostic where
  message : String
  code : String
  help? : Option String := none
deriving DecidableEq, Repr, Inhabited

end SyntaxForest
