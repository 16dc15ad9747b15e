import SyntaxForest.Operator

/-! # Integer arithmetic

An integer has type `int`, of 32 bits, or `long`, of 64 bits. An operator computes in two's
complement: at `long` if an operand is `long`, with the other one sign-extended, and at `int`
otherwise (`IntegralOperator.step`).

The operators `*`, `+`, `^`, `&`, `|` are associative at each width, so several operands of one
width may be combined in one go (`combine_append`). The operators `^`, `&` and `|` compute each bit
on its own, and operands may be extended before they are combined (`signExtend_combine`). -/

namespace SyntaxForest

/-! ### Integers -/

/-- The types of integers. -/
inductive Width where
  | int
  | long
deriving DecidableEq, Repr

namespace Width

/-- The number of bits. -/
def bits : Width → Nat
  | int => 32
  | long => 64

/-- The type at which two operands are computed. -/
def join : Width → Width → Width
  | int, int => int
  | _, _ => long

theorem join_eq_int {a b : Width} : a.join b = int ↔ a = int ∧ b = int := by
  cases a <;> cases b <;> decide

theorem ne_int_iff {a : Width} : a ≠ int ↔ a = long := by cases a <;> decide

theorem eq_of_iff {a b : Width} (h : a = int ↔ b = int) : a = b := by
  revert h
  cases a <;> cases b <;> decide

theorem bits_le (a : Width) : a.bits ≤ 64 := by cases a <;> decide

end Width

/-- An integer of one of the types. -/
structure Integer where
  width : Width
  value : BitVec width.bits
deriving DecidableEq, Repr

theorem signExtend_signExtend {m n k : Nat} (h : m ≤ n) (x : BitVec m) :
    (x.signExtend n).signExtend k = x.signExtend k := by
  rw [BitVec.signExtend, BitVec.toInt_signExtend_of_le h]
  rfl

theorem signExtend_injective {m n : Nat} (h : m ≤ n) {x y : BitVec m}
    (hxy : x.signExtend n = y.signExtend n) : x = y := by
  have hint := congrArg BitVec.toInt hxy
  rw [BitVec.toInt_signExtend_of_le h, BitVec.toInt_signExtend_of_le h] at hint
  exact BitVec.eq_of_toInt_eq hint

namespace Integer

/-- The integer at 64 bits. -/
def extend (a : Integer) : BitVec 64 := a.value.signExtend 64

theorem ext_extend {a b : Integer} (hw : a.width = b.width) (hv : a.extend = b.extend) : a = b := by
  obtain ⟨w, x⟩ := a
  obtain ⟨w', y⟩ := b
  obtain rfl : w = w' := hw
  obtain rfl : x = y := signExtend_injective w.bits_le hv
  rfl

end Integer

/-! ### Operators -/

/-- The operators that are associative on integers of one type. -/
inductive IntegralOperator where
  | times
  | plus
  | xor
  | and
  | or
deriving DecidableEq, Repr

namespace IntegralOperator

/-- How the operator is written. -/
def operator : IntegralOperator → Operator
  | times => .times
  | plus => .plus
  | xor => .xor
  | and => .and
  | or => .or

/-- The operator that is written in the given way, if it is one of these. -/
def of? : Operator → Option IntegralOperator
  | .times => some times
  | .plus => some plus
  | .xor => some xor
  | .and => some and
  | .or => some or
  | _ => none

@[simp] theorem of?_operator (o : IntegralOperator) : of? o.operator = some o := by cases o <;> rfl

/-- Whether the operator computes each bit on its own. -/
def isBitwise : IntegralOperator → Bool
  | times | plus => false
  | xor | and | or => true

variable (o : IntegralOperator) {n : Nat}

/-- What the operator computes at one width. -/
def apply : IntegralOperator → BitVec n → BitVec n → BitVec n
  | times, a, b => a * b
  | plus, a, b => a + b
  | xor, a, b => a ^^^ b
  | and, a, b => a &&& b
  | or, a, b => a ||| b

/-- The operand that changes nothing. -/
def neutral : IntegralOperator → (n : Nat) → BitVec n
  | times, n => 1#n
  | and, n => BitVec.allOnes n
  | plus, n | xor, n | or, n => 0#n

/-- **One step of a computation**: the operands are extended to the type of the result. -/
def step (a b : Integer) : Integer :=
  ⟨a.width.join b.width, o.apply (a.value.signExtend _) (b.value.signExtend _)⟩

theorem apply_assoc (a b c : BitVec n) : o.apply (o.apply a b) c = o.apply a (o.apply b c) := by
  cases o with
  | times => exact BitVec.mul_assoc a b c
  | plus => exact BitVec.add_assoc a b c
  | xor => exact BitVec.xor_assoc a b c
  | and => exact BitVec.and_assoc a b c
  | or => exact BitVec.or_assoc a b c

@[simp] theorem neutral_apply (a : BitVec n) : o.apply (o.neutral n) a = a := by
  cases o <;> simp [apply, neutral]

@[simp] theorem apply_neutral (a : BitVec n) : o.apply a (o.neutral n) = a := by
  cases o <;> simp [apply, neutral]

theorem signExtend_neutral (w : Width) : (o.neutral w.bits).signExtend 64 = o.neutral 64 := by
  cases o <;> cases w <;> decide

theorem signExtend_apply (ho : o.isBitwise) (a b : BitVec n) (m : Nat) :
    (o.apply a b).signExtend m = o.apply (a.signExtend m) (b.signExtend m) := by
  cases o with
  | times | plus => cases ho
  | xor => exact BitVec.signExtend_xor
  | and => exact BitVec.signExtend_and
  | or => exact BitVec.signExtend_or

/-! ### Several operands -/

/-- All operands combined at one width. -/
def combine (xs : List (BitVec n)) : BitVec n := xs.foldr o.apply (o.neutral n)

@[simp] theorem combine_nil : o.combine ([] : List (BitVec n)) = o.neutral n := rfl

@[simp] theorem combine_cons (x : BitVec n) (xs : List (BitVec n)) :
    o.combine (x :: xs) = o.apply x (o.combine xs) := rfl

theorem combine_append (xs ys : List (BitVec n)) :
    o.combine (xs ++ ys) = o.apply (o.combine xs) (o.combine ys) := by
  induction xs with
  | nil => simp
  | cons x xs ih => simp [ih, apply_assoc]

theorem combine_flatten (xs : List (List (BitVec n))) :
    o.combine xs.flatten = o.combine (xs.map o.combine) := by
  induction xs with
  | nil => rfl
  | cons x xs ih => simp [combine_append, ih]

theorem combine_eq_neutral {xs : List (BitVec n)} (h : ∀ x ∈ xs, x = o.neutral n) :
    o.combine xs = o.neutral n := by
  induction xs with
  | nil => rfl
  | cons x xs ih =>
    obtain ⟨hx, hxs⟩ := List.forall_mem_cons.mp h
    rw [combine_cons, hx, ih hxs, neutral_apply]

theorem signExtend_combine (ho : o.isBitwise) (xs : List (BitVec 32)) :
    (o.combine xs).signExtend 64 = o.combine (xs.map (·.signExtend 64)) := by
  induction xs with
  | nil => exact o.signExtend_neutral .int
  | cons x xs ih => rw [combine_cons, signExtend_apply o ho, ih]; rfl

end IntegralOperator

end SyntaxForest
