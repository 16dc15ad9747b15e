import SyntaxForest.Diagnostic

/-!
# Operators: vocabulary, binding strength, look-up by symbol

The nineteen infix operators of the trees. Each has one symbol and one of ten precedences, and both
enumerations are ordered: operators as they are declared, precedences from the loosest to the
tightest.

* `ofSymbol_symbol`: looking up an operator's own symbol finds the operator;
* `symbol_of_ofSymbol`: an operator that was found has the symbol asked for.
-/

namespace SyntaxForest

/-- Binding strength of an infix operator, loosest first. -/
inductive Precedence where
  | conditionalOr
  | conditionalAnd
  | bitwiseOr
  | bitwiseXor
  | bitwiseAnd
  | equality
  | relational
  | shift
  | additive
  | multiplicative
deriving DecidableEq, Ord, Repr, Inhabited

namespace Precedence

/-- The number of precedences that bind looser. -/
def level : Precedence → Nat
  | conditionalOr => 0
  | conditionalAnd => 1
  | bitwiseOr => 2
  | bitwiseXor => 3
  | bitwiseAnd => 4
  | equality => 5
  | relational => 6
  | shift => 7
  | additive => 8
  | multiplicative => 9

instance : LT Precedence := ⟨fun a b => a.level < b.level⟩

instance (a b : Precedence) : Decidable (a < b) := inferInstanceAs (Decidable (a.level < b.level))

theorem lt_def {a b : Precedence} : a < b ↔ a.level < b.level := Iff.rfl

theorem level_inj {a b : Precedence} : a.level = b.level ↔ a = b := by
  cases a <;> cases b <;> decide

end Precedence

/-- The infix operators of the trees. -/
inductive Operator where
  | times
  | divide
  | remainder
  | plus
  | minus
  | leftShift
  | rightShiftSigned
  | rightShiftUnsigned
  | less
  | greater
  | lessEquals
  | greaterEquals
  | equals
  | notEquals
  | xor
  | and
  | or
  | conditionalAnd
  | conditionalOr
deriving DecidableEq, Ord, Repr, Inhabited

/-- A symbol that no operator has. -/
structure UnmappedOperator where
  symbol : String
deriving DecidableEq, Repr, Inhabited

namespace UnmappedOperator

/-- What is wrong with the symbol. -/
def message (e : UnmappedOperator) : String :=
  "operator `" ++ e.symbol ++ "` has no counterpart in the IR operator vocabulary"

/-- The hint that goes with an unmapped operator, wherever it turns up. -/
def hint : String := "extend `Operator` with this symbol before translating this source"

/-- The diagnostic of a failed look-up. -/
def diagnostic (e : UnmappedOperator) : Diagnostic :=
  { message := e.message, code := "transir::unmapped_operator", help? := some hint }

end UnmappedOperator

namespace Operator

/-- Every operator, in the order of declaration. -/
def all : List Operator :=
  [times, divide, remainder, plus, minus, leftShift, rightShiftSigned, rightShiftUnsigned, less,
    greater, lessEquals, greaterEquals, equals, notEquals, xor, and, or, conditionalAnd,
    conditionalOr]

/-- How the operator is written. -/
def symbol : Operator → String
  | times => "*"
  | divide => "/"
  | remainder => "%"
  | plus => "+"
  | minus => "-"
  | leftShift => "<<"
  | rightShiftSigned => ">>"
  | rightShiftUnsigned => ">>>"
  | less => "<"
  | greater => ">"
  | lessEquals => "<="
  | greaterEquals => ">="
  | equals => "=="
  | notEquals => "!="
  | xor => "^"
  | and => "&"
  | or => "|"
  | conditionalAnd => "&&"
  | conditionalOr => "||"

/-- How tightly the operator binds. -/
def precedence : Operator → Precedence
  | times | divide | remainder => .multiplicative
  | plus | minus => .additive
  | leftShift | rightShiftSigned | rightShiftUnsigned => .shift
  | less | greater | lessEquals | greaterEquals => .relational
  | equals | notEquals => .equality
  | and => .bitwiseAnd
  | xor => .bitwiseXor
  | or => .bitwiseOr
  | conditionalAnd => .conditionalAnd
  | conditionalOr => .conditionalOr

/-- Whether `(a op b) op c` and `a op (b op c)` mean the same. -/
def isAssociative : Operator → Bool
  | times | plus | xor | and | or | conditionalAnd | conditionalOr => true
  | _ => false

/-- Whether the operator compares its operands. -/
def isComparison (o : Operator) : Bool :=
  o.precedence = .relational || o.precedence = .equality

/-- Whether the operator combines truth values and may skip its right operand. -/
def isLogical : Operator → Bool
  | conditionalAnd | conditionalOr => true
  | _ => false

/-- The operator written as `symbol`. -/
def ofSymbol (symbol : String) : Except UnmappedOperator Operator :=
  match all.find? (fun o => o.symbol == symbol) with
  | some o => .ok o
  | none => .error ⟨symbol⟩

theorem mem_all (o : Operator) : o ∈ all := by cases o <;> decide

theorem nodup_all : all.Nodup := by decide

theorem symbol_of_ofSymbol {s : String} {o : Operator} (h : ofSymbol s = .ok o) : o.symbol = s := by
  unfold ofSymbol at h
  split at h
  · next o' ho =>
    cases h
    simpa using List.find?_some ho
  · cases h

theorem ofSymbol_symbol (o : Operator) : ofSymbol o.symbol = .ok o := by
  cases o <;> rfl

theorem symbol_injective {a b : Operator} (h : a.symbol = b.symbol) : a = b :=
  Except.ok.inj (by rw [← ofSymbol_symbol a, ← ofSymbol_symbol b, h])

end Operator

end SyntaxForest
