import SyntaxForest.Proofs.Parsing

/-! # Runs of operands

An operand that is as strong as the chain around it and has no parentheses is not read as an
operand: its own operands are read as operands of the chain. What is read of an expression at its
own strength is its *run* (`Expression.run`): a first operand, and later ones with the operators
before them. An operand is spliced into the run of its chain if it is written that way
(`Expression.isSpliced`).

* `ReadsRun.append`: two runs of one strength with an operator between them are read as one run.
* `readsRun_tokens`: the tokens of an expression, whatever types its chains have, are read as its
  run.
* `ofText?_text_eq_run`: the text of an ordinary expression reads as its run, grouped from the
  left. -/

namespace SyntaxForest

/-! ### Runs -/

/-- A first operand, and later ones with the operators before them. -/
structure Run where
  head : Grouping
  steps : List (Operator × Grouping)
deriving DecidableEq, Repr

namespace Run

/-- The run of one operand. -/
def single (g : Grouping) : Run := ⟨g, []⟩

/-- Two runs with an operator between them. -/
def append (r : Run) (o : Operator) (s : Run) : Run := ⟨r.head, r.steps ++ (o, s.head) :: s.steps⟩

/-- A run grouped from the left. -/
def fold (r : Run) : Grouping := r.steps.foldl (fun g step => .binary g step.1 step.2) r.head

/-- A run as an operand of another one: spliced into it, or grouped. -/
def operand (spliced : Bool) (r : Run) : Run := if spliced then r else single r.fold

variable (r s t : Run) (g h : Grouping) (o o' : Operator)

@[simp] theorem fold_single : (single g).fold = g := rfl

theorem fold_append_single : (r.append o (single h)).fold = .binary r.fold o h := by
  simp [fold, append, single]

theorem fold_append : (r.append o s).fold = ((single r.fold).append o s).fold := by
  simp [fold, append, single]

theorem append_assoc : (r.append o s).append o' t = r.append o (s.append o' t) := by
  simp [append]

theorem fold_operand (spliced : Bool) : (r.operand spliced).fold = r.fold := by
  cases spliced <;> rfl

end Run

/-! ### The run of an expression -/

namespace Expression

/-- Whether an operand of a chain with the given type and operator is as strong as the operator and
written without parentheses. -/
def isSpliced (type? : Option TypeRef) (operator : Operator) (first : Bool) (e : Expression) :
    Bool :=
  !e.needsParentheses type? operator first && decide (e.strength = operator.strength)

theorem le_strength {type? : Option TypeRef} {o : Operator} {first : Bool} {e : Expression}
    (h : e.needsParentheses type? o first = false) : o.strength ≤ e.strength := by
  have hle := o.strength_le
  cases e with
  | chain type?' o' =>
    simp only [needsParentheses, Bool.or_eq_false_iff, decide_eq_false_iff_not,
      Operator.precedence_lt_iff] at h
    have hnot := h.1
    simp only [strength]
    omega
  | conditional => cases h
  | _ => simp only [strength]; omega

end Expression

mutual

/-- **The run of an expression.** -/
def Expression.run : Expression → Run
  | .number token => .single (.number token)
  | .boolean value => .single (.boolean value)
  | .string text => .single (.string text)
  | .null => .single .null
  | .name identifier => .single (.name identifier)
  | .parenthesized inner => .single inner.run.fold
  | .chain type? operator left right extended =>
    runFrom type? operator
      ((left.run.operand (left.isSpliced type? operator true)).append operator
        (right.run.operand (right.isSpliced type? operator false))) extended
  | .conditional condition thenExpression elseExpression =>
    .single (.conditional condition.run.fold thenExpression.run.fold elseExpression.run.fold)

/-- The run of a chain with more operands. -/
def runFrom (type? : Option TypeRef) (operator : Operator) (r : Run) : List Expression → Run
  | [] => r
  | operand :: rest =>
    runFrom type? operator
      (r.append operator (operand.run.operand (operand.isSpliced type? operator false))) rest

end

/-! ### Reading a run -/

/-- Where an expression of the given strength may stand, the tokens are read as the run: alone, and
as the rest of a run after an operator of that strength. -/
structure ReadsRun (tokens : List Token) (r : Run) (n : Nat) : Prop where
  alone : ReadsAs tokens r.fold n
  joined : ∀ g o stack rest, o.strength = n → Shields n stack → pull rest ≤ n →
    parseOperand (.operator g o :: stack) (tokens ++ rest) =
      parseOperator stack ((Run.single g).append o r).fold rest

variable {x y : List Token} {g : Grouping} {r s : Run} {o : Operator} {n : Nat}

theorem ReadsAs.readsRun (hx : ReadsAs x g (n + 1)) : ReadsRun x (.single g) n where
  alone := hx.weaken (Nat.le_succ n)
  joined k o stack rest ho hs hr := by
    have hshields : Shields (n + 1) (.operator k o :: stack) := shields_operator k (by omega)
    have hpull : pull rest ≤ o.strength := by omega
    rw [hx _ rest hshields (by omega), parseOperator_operator k g o hpull, Run.fold_append_single]
    rfl

theorem ReadsAs.readsRun_zero (hx : ReadsAs x g 0) : ReadsRun x (.single g) 0 where
  alone := hx
  joined _ o _ _ ho := absurd ho (Nat.ne_of_gt o.strength_pos)

/-- After an operand and an operator, the run of the operator's strength is read to its end. -/
theorem ReadsRun.after_operator (hy : ReadsRun y s o.strength) (g : Grouping) {stack : List Waiting}
    {rest : List Token} (hs : Shields o.strength stack) (hr : pull rest ≤ o.strength) :
    parseOperator stack g (.operator o :: (y ++ rest)) =
      parseOperator stack ((Run.single g).append o s).fold rest := by
  rw [parseOperator, hs.fold_eq]
  exact hy.joined g o stack rest rfl hs hr

/-- **Two runs with an operator of their strength between them are read as one run.** -/
theorem ReadsRun.append (hx : ReadsRun x r o.strength) (hy : ReadsRun y s o.strength) :
    ReadsRun (x ++ .operator o :: y) (r.append o s) o.strength where
  alone stack rest hs hr := by
    calc parseOperand stack (x ++ .operator o :: y ++ rest)
        = parseOperand stack (x ++ .operator o :: (y ++ rest)) := by simp
      _ = parseOperator stack r.fold (.operator o :: (y ++ rest)) :=
        hx.alone stack _ hs (Nat.le_refl _)
      _ = parseOperator stack ((Run.single r.fold).append o s).fold rest :=
        hy.after_operator r.fold hs hr
      _ = parseOperator stack (r.append o s).fold rest := by rw [← Run.fold_append]
  joined g o' stack rest ho' hs hr := by
    calc parseOperand (.operator g o' :: stack) (x ++ .operator o :: y ++ rest)
        = parseOperand (.operator g o' :: stack) (x ++ .operator o :: (y ++ rest)) := by simp
      _ = parseOperator stack ((Run.single g).append o' r).fold (.operator o :: (y ++ rest)) :=
        hx.joined g o' stack _ ho' hs (Nat.le_refl _)
      _ = parseOperator stack
            ((Run.single ((Run.single g).append o' r).fold).append o s).fold rest :=
        hy.after_operator _ hs hr
      _ = parseOperator stack ((Run.single g).append o' (r.append o s)).fold rest := by
        rw [← Run.fold_append, Run.append_assoc]

theorem ReadsRun.operand {e : Expression} (he : ReadsRun e.tokens e.run e.strength)
    (type? : Option TypeRef) (o : Operator) (first : Bool) :
    ReadsRun (bracketed (e.needsParentheses type? o first) e.tokens)
      (e.run.operand (e.isSpliced type? o first)) o.strength := by
  cases hp : e.needsParentheses type? o first with
  | true =>
    have hspliced : e.isSpliced type? o first = false := by simp [Expression.isSpliced, hp]
    rw [hspliced]
    exact he.alone.parenthesized.readsRun
  | false =>
    have hle := Expression.le_strength hp
    by_cases heq : e.strength = o.strength
    · have hspliced : e.isSpliced type? o first = true := by simp [Expression.isSpliced, hp, heq]
      rw [hspliced, ← heq]
      exact he
    · have hspliced : e.isSpliced type? o first = false := by simp [Expression.isSpliced, heq]
      rw [hspliced]
      exact (he.alone.weaken (by omega)).readsRun

mutual

/-- **The tokens of an expression are read as its run.** -/
theorem Expression.readsRun_tokens : ∀ e : Expression, ReadsRun e.tokens e.run e.strength
  | .number _ | .boolean _ | .string _ | .null | .name _ => (readsAs_operand _ _).readsRun
  | .parenthesized inner => inner.readsRun_tokens.alone.parenthesized.readsRun
  | .chain type? operator left right extended => by
    have hleft := left.readsRun_tokens.operand type? operator true
    have hright := right.readsRun_tokens.operand type? operator false
    exact readsRun_operands extended (hleft.append hright)
  | .conditional condition thenExpression elseExpression => by
    have hcondition := condition.readsRun_tokens.alone.bracketed condition.isConditional_iff.mpr
    have hthen := thenExpression.readsRun_tokens.alone.weaken (Nat.zero_le _)
    have helse := elseExpression.readsRun_tokens.alone.weaken (Nat.zero_le _)
    exact (hcondition.conditional hthen helse).readsRun_zero

theorem readsRun_operands {type? : Option TypeRef} {o : Operator} : ∀ (xs : List Expression)
    {x : List Token} {r : Run}, ReadsRun x r o.strength →
      ReadsRun (x ++ operandsTokens type? o xs) (runFrom type? o r xs) o.strength
  | [], x, r, hx => by simpa [operandsTokens, runFrom] using hx
  | operand :: rest, x, r, hx => by
    have hoperand := operand.readsRun_tokens.operand type? o false
    simpa [operandsTokens, runFrom] using readsRun_operands rest (hx.append hoperand)

end

/-- **The text of an ordinary expression reads as its run, grouped from the left.** -/
theorem Expression.ofText?_text_eq_run {e : Expression} (ho : e.ordinary) :
    Grouping.ofText? (String.ofList e.text) = some e.run.fold := by
  rw [Grouping.ofText?, String.toList_ofList, e.tokenize_text ho]
  exact e.readsRun_tokens.alone.parse_eq

end SyntaxForest
