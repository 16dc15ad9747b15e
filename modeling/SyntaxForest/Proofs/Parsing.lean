import SyntaxForest.Proofs.Scanning

/-! # Parsing

A text is read from left to right with a stack of what waits for its last operand. An operator folds
the operators before it that bind at least as tightly, so operators group from the left; a question
mark folds all of them, and a conditional ends with the text, a colon or a parenthesis.

* `readsAs_tokens`: where it may stand without parentheses, an expression without types is read as its
  grouping, whatever comes after it.
* `ofText?_text`: the text of an ordinary expression without types reads as its grouping. -/

namespace SyntaxForest

/-! ### The parser -/

/-- What waits for an operand: an opening parenthesis, an operator with its left operand, or a
conditional after its question mark or after its colon. -/
inductive Waiting where
  | parenthesis
  | operator (left : Grouping) (o : Operator)
  | question (condition : Grouping)
  | colon (condition thenGrouping : Grouping)
deriving DecidableEq, Repr

/-- How tightly an expression has to hold together so that the token does not take its last operand
away from it. -/
def Token.pull : Token → Nat
  | operator o => o.strength
  | question => 1
  | _ => 0

/-- The pull of the first token; none is at the end. -/
def pull : List Token → Nat
  | [] => 0
  | t :: _ => t.pull

/-- Gives the operand to the operators that are at least as strong as the pull. -/
def Waiting.fold (n : Nat) : List Waiting → Grouping → List Waiting × Grouping
  | .operator left o :: stack, g =>
    if n ≤ o.strength then fold n stack (.binary left o g) else (.operator left o :: stack, g)
  | stack, g => (stack, g)

/-- Gives the operand to all that ends with it: operators, and conditionals after their colon. -/
def Waiting.close : List Waiting → Grouping → List Waiting × Grouping
  | .operator left o :: stack, g => close stack (.binary left o g)
  | .colon condition thenGrouping :: stack, g => close stack (.conditional condition thenGrouping g)
  | stack, g => (stack, g)

open Waiting (fold close)

mutual

/-- Reads an operand and what comes after it. -/
def parseOperand (stack : List Waiting) : List Token → Option Grouping
  | .opening :: rest => parseOperand (.parenthesis :: stack) rest
  | .operand g :: rest => parseOperator stack g rest
  | _ => none

/-- Reads what comes after an operand. -/
def parseOperator (stack : List Waiting) (g : Grouping) : List Token → Option Grouping
  | [] =>
    match close stack g with
    | ([], g) => some g
    | _ => none
  | .operator o :: rest =>
    parseOperand (.operator (fold o.strength stack g).2 o :: (fold o.strength stack g).1) rest
  | .question :: rest => parseOperand (.question (fold 1 stack g).2 :: (fold 1 stack g).1) rest
  | .colon :: rest =>
    match close stack g with
    | (.question condition :: stack, g) => parseOperand (.colon condition g :: stack) rest
    | _ => none
  | .closing :: rest =>
    match close stack g with
    | (.parenthesis :: stack, g) => parseOperator stack g rest
    | _ => none
  | _ => none

end

/-- **The grouping that a text reads as**, if it reads as one. -/
def Grouping.ofText? (text : String) : Option Grouping := parseOperand [] (tokenize text.toList)

/-! ### The stack -/

variable {n m : Nat} {stack : List Waiting} {rest : List Token}

/-- No operator on top of the stack is as strong as `n`. -/
def Shields (n : Nat) (stack : List Waiting) : Prop :=
  ∀ left o below, stack = .operator left o :: below → o.strength < n

theorem Shields.mono (hs : Shields n stack) (h : n ≤ m) : Shields m stack :=
  fun left o below hstack => Nat.lt_of_lt_of_le (hs left o below hstack) h

theorem shields_operator (left : Grouping) {o : Operator} (h : o.strength < n) :
    Shields n (.operator left o :: stack) := by
  intro left' o' below hstack
  cases hstack
  exact h

theorem Shields.fold_eq (hs : Shields n stack) (g : Grouping) : fold n stack g = (stack, g) := by
  unfold fold
  split
  · next left o below => rw [if_neg (Nat.not_le.mpr (hs left o below rfl))]
  · rfl

/-- An operator gets its right operand if nothing pulls harder. -/
theorem parseOperator_operator (left g : Grouping) (o : Operator) (h : pull rest ≤ o.strength) :
    parseOperator (.operator left o :: stack) g rest =
      parseOperator stack (.binary left o g) rest := by
  cases rest with
  | nil => simp only [parseOperator, close]
  | cons t rest =>
    cases t with
    | operator o' =>
      simp only [pull, Token.pull] at h
      simp only [parseOperator, fold, if_pos h]
    | question =>
      simp only [parseOperator, fold, if_pos (show 1 ≤ o.strength from o.strength_pos)]
    | _ => simp only [parseOperator, close]

theorem parseOperator_colon (condition thenGrouping g : Grouping) (h : pull rest = 0) :
    parseOperator (.colon condition thenGrouping :: stack) g rest =
      parseOperator stack (.conditional condition thenGrouping g) rest := by
  cases rest with
  | nil => simp only [parseOperator, close]
  | cons t rest =>
    cases t with
    | operator o => exact absurd h (Nat.ne_of_gt o.strength_pos)
    | question => cases h
    | _ => simp only [parseOperator, close]

/-! ### Reading the tokens of an expression -/

/-- Where an expression of the given strength may stand, the tokens are read as the grouping. -/
def ReadsAs (tokens : List Token) (g : Grouping) (n : Nat) : Prop :=
  ∀ stack rest, Shields n stack → pull rest ≤ n →
    parseOperand stack (tokens ++ rest) = parseOperator stack g rest

variable {x y z : List Token} {g h k : Grouping} {o : Operator}

theorem readsAs_operand (g : Grouping) (n : Nat) : ReadsAs [.operand g] g n :=
  fun _ _ _ _ => by rw [List.singleton_append, parseOperand]

theorem ReadsAs.weaken (hx : ReadsAs x g m) (h : n ≤ m) : ReadsAs x g n :=
  fun stack rest hs hr => hx stack rest (hs.mono h) (Nat.le_trans hr h)

theorem ReadsAs.parenthesized (hx : ReadsAs x g m) : ReadsAs (bracketed true x) g n := by
  intro stack rest _ _
  have hshields : Shields m (.parenthesis :: stack) := fun _ _ _ h => by cases h
  have hinner := hx (.parenthesis :: stack) (.closing :: rest) hshields (Nat.zero_le m)
  simp only [bracketed, if_pos, List.cons_append, List.append_assoc, List.nil_append, parseOperand,
    hinner, parseOperator, close]

/-- Parentheses have to be there only where the expression is too weak. -/
theorem ReadsAs.bracketed (hx : ReadsAs x g m) {parentheses : Bool} (h : m < n → parentheses) :
    ReadsAs (bracketed parentheses x) g n := by
  cases parentheses with
  | true => exact hx.parenthesized
  | false => exact hx.weaken (Nat.not_lt.mp fun hlt => absurd (h hlt) (by simp))

/-- **An operator takes a left operand as strong as itself and a stronger right operand.** -/
theorem ReadsAs.binary (hx : ReadsAs x g o.strength) (hy : ReadsAs y h (o.strength + 1)) :
    ReadsAs (x ++ .operator o :: y) (.binary g o h) o.strength := by
  intro stack rest hs hr
  calc parseOperand stack (x ++ .operator o :: y ++ rest)
      = parseOperand stack (x ++ .operator o :: (y ++ rest)) := by simp
    _ = parseOperator stack g (.operator o :: (y ++ rest)) := hx stack _ hs (Nat.le_refl _)
    _ = parseOperand (.operator g o :: stack) (y ++ rest) := by rw [parseOperator, hs.fold_eq]
    _ = parseOperator (.operator g o :: stack) h rest :=
      hy _ rest (shields_operator g (Nat.lt_succ_self _)) (Nat.le_succ_of_le hr)
    _ = parseOperator stack (.binary g o h) rest := parseOperator_operator g h o hr

/-- **A conditional takes any operands but a conditional as its condition.** -/
theorem ReadsAs.conditional (hx : ReadsAs x g 1) (hy : ReadsAs y h 0) (hz : ReadsAs z k 0) :
    ReadsAs (x ++ .question :: y ++ .colon :: z) (.conditional g h k) 0 := by
  intro stack rest hs hr
  have hquestion : Shields 0 (.question g :: stack) := fun _ _ _ h => by cases h
  have hcolon : Shields 0 (.colon g h :: stack) := fun _ _ _ h => by cases h
  have hone := hs.mono (Nat.zero_le 1)
  calc parseOperand stack (x ++ .question :: y ++ .colon :: z ++ rest)
      = parseOperand stack (x ++ .question :: (y ++ .colon :: (z ++ rest))) := by simp
    _ = parseOperator stack g (.question :: (y ++ .colon :: (z ++ rest))) :=
      hx stack _ hone (Nat.le_refl 1)
    _ = parseOperand (.question g :: stack) (y ++ .colon :: (z ++ rest)) := by
      rw [parseOperator, hone.fold_eq]
    _ = parseOperator (.question g :: stack) h (.colon :: (z ++ rest)) :=
      hy _ _ hquestion (Nat.le_refl 0)
    _ = parseOperand (.colon g h :: stack) (z ++ rest) := by simp only [parseOperator, close]
    _ = parseOperator (.colon g h :: stack) k rest := hz _ rest hcolon hr
    _ = parseOperator stack (.conditional g h k) rest :=
      parseOperator_colon g h k (Nat.le_zero.mp hr)

mutual

/-- **The tokens of an expression without types are read as its grouping.** -/
theorem Expression.readsAs_tokens : ∀ e : Expression, e.untyped →
    ReadsAs e.tokens e.grouping e.strength
  | .number _, _ | .boolean _, _ | .string _, _ | .null, _ | .name _, _ => readsAs_operand _ _
  | .parenthesized inner, he => by
    simp only [Expression.untyped, Expression.every, Bool.and_eq_true] at he
    exact (inner.readsAs_tokens he.2).parenthesized
  | .chain type? operator left right extended, he => by
    simp only [Expression.untyped, Expression.every, Expression.lacksType, Bool.and_eq_true,
      Option.isNone_iff_eq_none] at he
    obtain ⟨⟨⟨rfl, hl⟩, hr⟩, hxs⟩ := he
    have hleft := (left.readsAs_tokens hl).bracketed (left.needsParentheses_first none operator).mpr
    have hright := (right.readsAs_tokens hr).bracketed fun h =>
      (right.needsParentheses_later operator).mpr (Nat.le_of_lt_succ h)
    exact readsAs_operands extended hxs (hleft.binary hright)
  | .conditional condition thenExpression elseExpression, he => by
    simp only [Expression.untyped, Expression.every, Bool.and_eq_true] at he
    obtain ⟨⟨⟨-, hc⟩, ht⟩, he⟩ := he
    have hcondition := (condition.readsAs_tokens hc).bracketed condition.isConditional_iff.mpr
    exact hcondition.conditional ((thenExpression.readsAs_tokens ht).weaken (Nat.zero_le _))
      ((elseExpression.readsAs_tokens he).weaken (Nat.zero_le _))

theorem readsAs_operands {o : Operator} : ∀ xs : List Expression,
    everyOperand Expression.lacksType xs → ∀ {x : List Token} {g : Grouping},
      ReadsAs x g o.strength →
        ReadsAs (x ++ operandsTokens none o xs) (groupedFrom o g xs) o.strength
  | [], _, x, g, hx => by simpa [operandsTokens, groupedFrom] using hx
  | operand :: rest, hxs, x, g, hx => by
    simp only [everyOperand, Bool.and_eq_true] at hxs
    have hoperand := (operand.readsAs_tokens hxs.1).bracketed fun h =>
      (operand.needsParentheses_later o).mpr (Nat.le_of_lt_succ h)
    simpa [operandsTokens, groupedFrom] using readsAs_operands rest hxs.2 (hx.binary hoperand)

end

theorem ReadsAs.parse_eq (hx : ReadsAs x g n) : parseOperand [] x = some g := by
  have hshields : Shields n [] := fun _ _ _ h => by cases h
  have hread := hx [] [] hshields (Nat.zero_le n)
  rw [List.append_nil] at hread
  simp [hread, parseOperator, close]

theorem Expression.tokenize_text {e : Expression} (ho : e.ordinary) : tokenize e.text = e.tokens := by
  have hscan := e.tokenizes_text ho [] rfl
  simpa [tokenize, Lexeme.scan] using hscan

/-- **The text of an ordinary expression without types reads as its grouping.** -/
theorem Expression.ofText?_text {e : Expression} (ht : e.untyped) (ho : e.ordinary) :
    Grouping.ofText? (String.ofList e.text) = some e.grouping := by
  rw [Grouping.ofText?, String.toList_ofList, e.tokenize_text ho]
  exact (e.readsAs_tokens ht).parse_eq

example : Grouping.ofText? "a - b - 2 * c ? x : y" =
    some (.conditional (.binary (.binary (.name "a") .minus (.name "b")) .minus
      (.binary (.number "2") .times (.name "c"))) (.name "x") (.name "y")) := by decide

/-- **Equal texts have equal groupings.** -/
theorem Expression.grouping_eq_of_text_eq {d e : Expression} (hd : d.untyped) (hd' : d.ordinary)
    (he : e.untyped) (he' : e.ordinary) (h : d.text = e.text) : d.grouping = e.grouping := by
  have hread := ofText?_text hd hd'
  rw [h, ofText?_text he he'] at hread
  exact (Option.some.inj hread).symm

end SyntaxForest
