import SyntaxForest.Proofs.Splicing
import Mathlib.Data.List.Induction

/-! # Operand trees

Groupings that differ only in how one associative operator groups have one *operand tree*
(`Grouping.flatten`): in it an operator has the list of its operands, those of its first operand
included if that is an application of the same operator, and those of the others too if the operator
is associative.

* `Run.flatten_append`: a run of one associative operator may be spliced into another run.
* `Run.burden_append`: any other run may not. The *burden* of a tree counts what stands to the left
  of the operators that are not associative; splicing such an operator into a run adds all that the
  run has to the left of it. -/

namespace SyntaxForest

/-! ### Operand trees -/

/-- A tree in which an operator has a list of operands. -/
inductive OperandTree where
  | number (token : String)
  | boolean (value : Bool)
  | string (text : String)
  | null
  | name (identifier : String)
  | application (operator : Operator) (operands : List OperandTree)
  | conditional (condition thenTree elseTree : OperandTree)
deriving Repr

namespace OperandTree

/-- The operands of an application of the operator; another tree is an operand itself. -/
def operandsOf (o : Operator) : OperandTree → List OperandTree
  | application o' operands => if o' = o then operands else [application o' operands]
  | t => [t]

/-- Two trees with an operator between them. Of the left one the operands are taken, if it is an
application of the operator; of the right one only if the operator is associative. -/
def join (l : OperandTree) (o : Operator) (r : OperandTree) : OperandTree :=
  application o (l.operandsOf o ++ if o.isAssociative then r.operandsOf o else [r])

theorem operandsOf_application (o : Operator) (operands : List OperandTree) :
    (application o operands).operandsOf o = operands := if_pos rfl

/-- **An associative operator joins three trees in one way.** -/
theorem join_assoc {o : Operator} (ho : o.isAssociative) (a b c : OperandTree) :
    (a.join o b).join o c = a.join o (b.join o c) := by
  simp only [join, ho, if_true, operandsOf_application, List.append_assoc]

end OperandTree

/-- **The operand tree of a grouping.** -/
def Grouping.flatten : Grouping → OperandTree
  | number token => .number token
  | boolean value => .boolean value
  | string text => .string text
  | null => .null
  | name identifier => .name identifier
  | binary left operator right => left.flatten.join operator right.flatten
  | conditional condition thenGrouping elseGrouping =>
    .conditional condition.flatten thenGrouping.flatten elseGrouping.flatten

/-! ### Sizes and burdens -/

mutual

/-- The number of operands that are no application and no conditional. -/
def OperandTree.size : OperandTree → Nat
  | .application _ operands => sizeAll operands
  | .conditional condition thenTree elseTree => condition.size + thenTree.size + elseTree.size
  | _ => 1

/-- The size of several trees. -/
def sizeAll : List OperandTree → Nat
  | [] => 0
  | t :: rest => t.size + sizeAll rest

end

mutual

/-- The sum of the sizes to the left of the operators that are not associative. -/
def OperandTree.burden : OperandTree → Nat
  | .application o operands => burdenAll o 0 operands
  | .conditional condition thenTree elseTree => condition.burden + thenTree.burden + elseTree.burden
  | _ => 0

/-- The burden of the later operands of an operator, when those before them have size `n`. -/
def burdenAll (o : Operator) (n : Nat) : List OperandTree → Nat
  | [] => 0
  | t :: rest => (if o.isAssociative then 0 else n) + t.burden + burdenAll o (n + t.size) rest

end

namespace OperandTree

variable (o : Operator) (n : Nat) (t l r : OperandTree)

theorem sizeAll_append : ∀ xs ys : List OperandTree, sizeAll (xs ++ ys) = sizeAll xs + sizeAll ys
  | [], ys => by simp [sizeAll]
  | x :: xs, ys => by
    have ih := sizeAll_append xs ys
    simp only [List.cons_append, sizeAll, ih]
    omega

theorem burdenAll_append (o : Operator) : ∀ (n : Nat) (xs ys : List OperandTree),
    burdenAll o n (xs ++ ys) = burdenAll o n xs + burdenAll o (n + sizeAll xs) ys
  | n, [], ys => by simp [burdenAll, sizeAll]
  | n, x :: xs, ys => by
    have ih := burdenAll_append o (n + x.size) xs ys
    have hn : n + x.size + sizeAll xs = n + (x.size + sizeAll xs) := by omega
    simp only [List.cons_append, burdenAll, sizeAll, ih, hn]
    omega

theorem burdenAll_of_isAssociative {o : Operator} (ho : o.isAssociative) : ∀ (n : Nat)
    (xs : List OperandTree), burdenAll o n xs = burdenAll o 0 xs
  | n, [] => rfl
  | n, x :: xs => by
    have hn := burdenAll_of_isAssociative ho (n + x.size) xs
    have h0 := burdenAll_of_isAssociative ho (0 + x.size) xs
    simp only [burdenAll, ho, if_true, hn, h0]

theorem sizeAll_operandsOf : sizeAll (t.operandsOf o) = t.size := by
  cases t with
  | application o' operands =>
    simp only [operandsOf]
    split_ifs
    · rfl
    · simp [sizeAll]
  | _ => rfl

theorem burdenAll_operandsOf : burdenAll o 0 (t.operandsOf o) = t.burden := by
  cases t with
  | application o' operands =>
    simp only [operandsOf]
    split_ifs with h
    · rw [burden, h]
    · simp [burdenAll]
  | _ => simp [operandsOf, burdenAll]

theorem size_join : (l.join o r).size = l.size + r.size := by
  have hl := l.sizeAll_operandsOf o
  have hr := r.sizeAll_operandsOf o
  unfold join
  split_ifs
  · rw [size, sizeAll_append, hl, hr]
  · rw [size, sizeAll_append, hl]; simp [sizeAll]

theorem burden_join :
    (l.join o r).burden = l.burden + r.burden + if o.isAssociative then 0 else l.size := by
  have hl := l.burdenAll_operandsOf o
  have hr := r.burdenAll_operandsOf o
  have hsize := l.sizeAll_operandsOf o
  unfold join
  split_ifs with ho
  · rw [burden, burdenAll_append, burdenAll_of_isAssociative ho (0 + _), hl, hr]; omega
  · rw [burden, burdenAll_append, hl, hsize]; simp [burdenAll, ho]; omega

end OperandTree

namespace Grouping

/-- The size of the operand tree. -/
def size (g : Grouping) : Nat := g.flatten.size

/-- The burden of the operand tree. -/
def burden (g : Grouping) : Nat := g.flatten.burden

variable (g h : Grouping) (o : Operator)

theorem size_binary : (binary g o h).size = g.size + h.size := OperandTree.size_join o _ _

theorem burden_binary :
    (binary g o h).burden = g.burden + h.burden + if o.isAssociative then 0 else g.size :=
  OperandTree.burden_join o _ _

theorem size_pos : 0 < g.size := by
  induction g with
  | binary l o r ihl _ => rw [size_binary]; omega
  | conditional c t e ihc _ _ =>
    have hsize : (conditional c t e).size = c.size + t.size + e.size := by
      simp [size, flatten, OperandTree.size]
    omega
  | _ => simp [size, flatten, OperandTree.size]

end Grouping

/-! ### Runs -/

namespace Run

variable (r s : Run) {o : Operator}

theorem flatten_fold :
    r.fold.flatten = r.steps.foldl (fun t step => t.join step.1 step.2.flatten) r.head.flatten :=
  (List.foldl_hom Grouping.flatten fun _ _ => rfl).symm

theorem foldl_join (ho : o.isAssociative) (a : OperandTree) : ∀ (steps : List (Operator × Grouping))
    (b : OperandTree), (∀ step ∈ steps, step.1 = o) →
      steps.foldl (fun t step => t.join step.1 step.2.flatten) (a.join o b) =
        a.join o (steps.foldl (fun t step => t.join step.1 step.2.flatten) b)
  | [], _, _ => rfl
  | (o', h) :: steps, b, hall => by
    obtain rfl : o = o' := (hall (o', h) (by simp)).symm
    rw [List.foldl_cons, List.foldl_cons, OperandTree.join_assoc ho]
    exact foldl_join ho a steps (b.join o h.flatten) fun step hs => hall step (by simp [hs])

/-- All operators of a run are the given one. -/
def Uniform (o : Operator) (r : Run) : Prop := ∀ step ∈ r.steps, step.1 = o

theorem uniform_single (o : Operator) (g : Grouping) : (single g).Uniform o := by
  simp [Uniform, single]

variable {r s} in
theorem Uniform.append (hr : r.Uniform o) (hs : s.Uniform o) : (r.append o s).Uniform o := by
  intro step hstep
  rcases List.mem_append.mp hstep with h | h
  · exact hr step h
  · rcases List.mem_cons.mp h with rfl | h
    · rfl
    · exact hs step h

variable {r} in
theorem Uniform.operand {spliced : Bool} (hr : spliced → r.Uniform o) :
    (r.operand spliced).Uniform o := by
  cases spliced with
  | true => exact hr rfl
  | false => exact uniform_single o r.fold

/-- **A run of one associative operator may be spliced into another run** without a change of the
operand tree. -/
theorem flatten_append (ho : o.isAssociative) (hs : s.Uniform o) :
    (r.append o s).fold.flatten = r.fold.flatten.join o s.fold.flatten := by
  have hjoin := foldl_join ho r.fold.flatten s.steps s.head.flatten hs
  rw [fold_append, flatten_fold, flatten_fold s, ← hjoin]
  rfl

/-- The number of operators in a run that are not associative. -/
def rigid (r : Run) : Nat := r.steps.countP fun step => !step.1.isAssociative

theorem eq_append_last (h : Grouping) (steps : List (Operator × Grouping))
    (step : Operator × Grouping) :
    (⟨h, steps ++ [step]⟩ : Run) = (⟨h, steps⟩ : Run).append step.1 (single step.2) := rfl

theorem append_last (h : Grouping) (steps : List (Operator × Grouping))
    (step : Operator × Grouping) :
    r.append o ⟨h, steps ++ [step]⟩ = (r.append o ⟨h, steps⟩).append step.1 (single step.2) := by
  rw [eq_append_last, append_assoc]

theorem rigid_last (h : Grouping) (steps : List (Operator × Grouping))
    (step : Operator × Grouping) : (⟨h, steps ++ [step]⟩ : Run).rigid =
      (⟨h, steps⟩ : Run).rigid + if step.1.isAssociative then 0 else 1 := by
  by_cases hstep : step.1.isAssociative <;> simp [rigid, hstep]

theorem size_append : (r.append o s).fold.size = r.fold.size + s.fold.size := by
  obtain ⟨h, steps⟩ := s
  -- from the end: the fold of a run has its last operator at the top
  induction steps using List.reverseRecOn with
  | nil =>
    have hsingle : (r.append o ⟨h, []⟩).fold = .binary r.fold o h := r.fold_append_single h o
    rw [hsingle, Grouping.size_binary]
    rfl
  | append_singleton steps step ih =>
    rw [append_last, eq_append_last, fold_append_single, fold_append_single, Grouping.size_binary,
      Grouping.size_binary, ih]
    omega

/-- **Splicing adds to the burden**: all that stands before the run is now to the left of its
operators. -/
theorem burden_append : (r.append o s).fold.burden =
    r.fold.burden + s.fold.burden + (if o.isAssociative then 0 else r.fold.size) +
      r.fold.size * s.rigid := by
  obtain ⟨h, steps⟩ := s
  induction steps using List.reverseRecOn with
  | nil =>
    have hsingle : (r.append o ⟨h, []⟩).fold = .binary r.fold o h := r.fold_append_single h o
    rw [hsingle, Grouping.burden_binary]
    rfl
  | append_singleton steps step ih =>
    have hsize := r.size_append ⟨h, steps⟩ (o := o)
    rw [append_last, rigid_last, eq_append_last, fold_append_single, fold_append_single,
      Grouping.burden_binary, Grouping.burden_binary, ih, hsize, Nat.mul_add]
    split_ifs <;> omega

end Run

end SyntaxForest
