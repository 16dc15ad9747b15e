import SyntaxForest.Proofs.Flattening
import SyntaxForest.Proofs.SourceText

/-! # Regrouping

An operand that does not lose its meaning by it is written without its parentheses and read as a
part of the run of its chain. But its own first operand may be a chain with another operator of the
same strength, and that operator then gets another left operand: `2 * (x / y * z)`, all of it of
type `int`, is written `2 * x / y * z`.

An expression *regroups cleanly* if no operand that is spliced into its chain, other than the first,
starts with another operator of the same strength (`Expression.regroupsCleanly`). The text of an
ordinary expression, whatever types its chains have, reads as a grouping with the same operand tree
if and only if it does (`flatten_run_iff`). -/

namespace SyntaxForest

theorem Operator.eq_of_isAssociative {a b : Operator} (ha : a.isAssociative) (hb : b.isAssociative)
    (h : a.strength = b.strength) : a = b := by
  have hall : all.all fun a => all.all fun b => !a.isAssociative || !b.isAssociative ||
      decide (a.strength ≠ b.strength) || decide (a = b) := by decide
  have hab := List.all_eq_true.mp (List.all_eq_true.mp hall a a.mem_all) b b.mem_all
  simpa [ha, hb, h] using hab

namespace Expression

variable {type? : Option TypeRef} {o : Operator} {e : Expression}

/-! ### Clean regrouping -/

/-- Whether the operators of the given one's strength at the left end of the expression are all the
given one. -/
def leansOn (o : Operator) : Expression → Bool
  | chain _ o' left _ _ => decide (o'.strength ≠ o.strength) || (decide (o' = o) && left.leansOn o)
  | _ => true

/-- Whether an operand that is spliced into a chain leans on the operator of the chain. -/
def splicesCleanly (type? : Option TypeRef) (o : Operator) (e : Expression) : Bool :=
  !e.isSpliced type? o false || e.leansOn o

/-- Whether the later operands of a chain lean on its operator if they are spliced. -/
def joinsCleanly : Expression → Bool
  | chain type? o _ right extended => (right :: extended).all (splicesCleanly type? o)
  | _ => true

/-- **Clean regrouping**: what is spliced into the chains of the expression leans on their
operators. -/
def regroupsCleanly (e : Expression) : Bool := e.every joinsCleanly

theorem leansOn_of_strength_ne (h : e.strength ≠ o.strength) : e.leansOn o := by
  cases e with
  | chain _ o' =>
    simp only [strength] at h
    simp [leansOn, h]
  | _ => rfl

theorem isSpliced_first (h : e.strength = o.strength) : e.isSpliced type? o true := by
  have hfirst := e.needsParentheses_first type? o
  have hbare : e.needsParentheses type? o true = false := by
    rw [Bool.eq_false_iff, ne_eq, hfirst]; omega
  simp [isSpliced, hbare, h]

theorem isAssociative_of_isSpliced (h : e.isSpliced type? o false) : o.isAssociative := by
  have hle := o.strength_le
  simp only [isSpliced, Bool.and_eq_true, Bool.not_eq_true', decide_eq_true_eq] at h
  obtain ⟨hbare, hstrength⟩ := h
  cases e with
  | chain type?' o' =>
    simp only [strength] at hstrength
    simp only [needsParentheses, Operator.precedence_eq_iff.mpr hstrength, decide_true,
      Bool.true_and, Bool.not_false, Bool.or_eq_false_iff, Bool.not_eq_false', Bool.and_eq_true]
      at hbare
    exact hbare.2.1.2
  | conditional => cases hbare
  | _ => simp only [strength] at hstrength; omega

theorem strength_of_isSpliced {first : Bool} (h : e.isSpliced type? o first) :
    e.strength = o.strength := by
  simp only [isSpliced, Bool.and_eq_true, decide_eq_true_eq] at h
  exact h.2

theorem leansOn_of_splicesCleanly (h : e.splicesCleanly type? o) (hs : e.isSpliced type? o false) :
    e.leansOn o := by
  simpa [splicesCleanly, hs] using h

end Expression

/-! ### Clean regrouping keeps the operand tree -/

open Expression in
mutual

theorem Expression.uniform_run (o : Operator) : ∀ e : Expression, e.regroupsCleanly → e.leansOn o →
    e.strength = o.strength → e.run.Uniform o
  | .number _, _, _, _ | .boolean _, _, _, _ | .string _, _, _, _ | .null, _, _, _
  | .name _, _, _, _ | .parenthesized _, _, _, _ | .conditional .., _, _, _ => Run.uniform_single o _
  | .chain type? o' left right extended, hc, hl, hs => by
    simp only [regroupsCleanly, every, joinsCleanly, List.all_cons, Bool.and_eq_true] at hc
    obtain ⟨⟨⟨⟨hright, hextended⟩, hcl⟩, hcr⟩, hcx⟩ := hc
    simp only [strength] at hs
    simp only [leansOn, hs, ne_eq, not_true_eq_false, decide_false, Bool.false_or,
      Bool.and_eq_true, decide_eq_true_eq] at hl
    obtain ⟨rfl, hl⟩ := hl
    have hleft : (left.run.operand (left.isSpliced type? o' true)).Uniform o' :=
      .operand fun h => left.uniform_run o' hcl hl (strength_of_isSpliced h)
    have hright' : (right.run.operand (right.isSpliced type? o' false)).Uniform o' :=
      .operand fun h => right.uniform_run o' hcr (leansOn_of_splicesCleanly hright h)
        (strength_of_isSpliced h)
    exact uniform_runFrom o' extended hcx hextended (hleft.append hright')

theorem uniform_runFrom {type? : Option TypeRef} (o : Operator) : ∀ (xs : List Expression)
    {r : Run}, everyOperand joinsCleanly xs → xs.all (splicesCleanly type? o) → r.Uniform o →
      (runFrom type? o r xs).Uniform o
  | [], _, _, _, hr => hr
  | operand :: rest, r, hc, hx, hr => by
    simp only [everyOperand, List.all_cons, Bool.and_eq_true] at hc hx
    have hoperand : (operand.run.operand (operand.isSpliced type? o false)).Uniform o :=
      .operand fun h => operand.uniform_run o hc.1 (leansOn_of_splicesCleanly hx.1 h)
        (strength_of_isSpliced h)
    exact uniform_runFrom o rest hc.2 hx.2 (hr.append hoperand)

end

theorem flatten_append_operand {type? : Option TypeRef} {o : Operator} {r : Run} {g : Grouping}
    {e : Expression} (hr : r.fold.flatten = g.flatten)
    (he : e.run.fold.flatten = e.grouping.flatten) (hc : e.regroupsCleanly)
    (hs : e.splicesCleanly type? o) :
    (r.append o (e.run.operand (e.isSpliced type? o false))).fold.flatten =
      (Grouping.binary g o e.grouping).flatten := by
  cases hspliced : e.isSpliced type? o false with
  | true =>
    have huniform := e.uniform_run o hc (Expression.leansOn_of_splicesCleanly hs hspliced)
      (Expression.strength_of_isSpliced hspliced)
    have hjoin := r.flatten_append e.run (Expression.isAssociative_of_isSpliced hspliced) huniform
    rw [hr, he] at hjoin
    exact hjoin
  | false =>
    have hsingle := r.fold_append_single e.run.fold o
    rw [Run.operand, if_neg Bool.false_ne_true, hsingle, Grouping.flatten, hr, he]
    rfl

mutual

/-- **An expression that regroups cleanly** has the operand tree of its run. -/
theorem Expression.flatten_run : ∀ e : Expression, e.regroupsCleanly →
    e.run.fold.flatten = e.grouping.flatten
  | .number _, _ | .boolean _, _ | .string _, _ | .null, _ | .name _, _ => rfl
  | .parenthesized inner, hc => by
    simp only [Expression.regroupsCleanly, Expression.every, Bool.and_eq_true] at hc
    exact inner.flatten_run hc.2
  | .chain type? o left right extended, hc => by
    simp only [Expression.regroupsCleanly, Expression.every, Expression.joinsCleanly, List.all_cons,
      Bool.and_eq_true] at hc
    obtain ⟨⟨⟨⟨hright, hextended⟩, hcl⟩, hcr⟩, hcx⟩ := hc
    have hleft : (left.run.operand (left.isSpliced type? o true)).fold.flatten =
        left.grouping.flatten := by
      rw [Run.fold_operand]; exact left.flatten_run hcl
    have hfirst := flatten_append_operand hleft (right.flatten_run hcr) hcr hright
    exact flatten_runFrom extended hcx hextended hfirst
  | .conditional condition thenExpression elseExpression, hc => by
    simp only [Expression.regroupsCleanly, Expression.every, Bool.and_eq_true] at hc
    have hcondition := condition.flatten_run hc.1.1.2
    have hthen := thenExpression.flatten_run hc.1.2
    have helse := elseExpression.flatten_run hc.2
    simp only [Expression.run, Run.fold_single, Expression.grouping, Grouping.flatten, hcondition,
      hthen, helse]

theorem flatten_runFrom {type? : Option TypeRef} {o : Operator} : ∀ (xs : List Expression) {r : Run}
    {g : Grouping}, everyOperand Expression.joinsCleanly xs →
      xs.all (Expression.splicesCleanly type? o) → r.fold.flatten = g.flatten →
        (runFrom type? o r xs).fold.flatten = (groupedFrom o g xs).flatten
  | [], _, _, _, _, hr => hr
  | operand :: rest, r, g, hc, hx, hr => by
    simp only [everyOperand, List.all_cons, Bool.and_eq_true] at hc hx
    have hoperand := flatten_append_operand hr (operand.flatten_run hc.1) hc.1 hx.1
    exact flatten_runFrom rest hc.2 hx.2 hoperand

end

/-! ### Other regrouping does not -/

/-- A run is as large as a grouping, is at least as great a burden, and if it is no greater one then
`P` holds. -/
structure Outweighs (r : Run) (g : Grouping) (P : Prop) : Prop where
  size : r.fold.size = g.size
  burden : g.burden ≤ r.fold.burden
  exact : r.fold.burden = g.burden → P

theorem Outweighs.imp {r : Run} {g : Grouping} {P Q : Prop} (h : Outweighs r g P) (hpq : P → Q) :
    Outweighs r g Q := ⟨h.size, h.burden, fun he => hpq (h.exact he)⟩

/-- A spliced operand adds to the burden unless all its operators are associative. -/
theorem Outweighs.append {r s : Run} {g h : Grouping} {P Q : Prop} (hr : Outweighs r g P)
    (hs : Outweighs s h Q) (o : Operator) (spliced : Bool) :
    Outweighs (r.append o (s.operand spliced)) (.binary g o h)
      (P ∧ Q ∧ (spliced → s.rigid = 0)) := by
  have hsize := r.size_append (s.operand spliced) (o := o)
  have hburden := r.burden_append (s.operand spliced) (o := o)
  have hsize' := Grouping.size_binary g h o
  have hburden' := Grouping.burden_binary g h o
  have hrs := hr.size
  have hss := hs.size
  have hrb := hr.burden
  have hsb := hs.burden
  rw [Run.fold_operand] at hsize hburden
  rw [← hrs] at hburden'
  refine ⟨by omega, by omega, fun he => ?_⟩
  have hextra : r.fold.size * (s.operand spliced).rigid = 0 := by omega
  have hpos := r.fold.size_pos
  refine ⟨hr.exact (by omega), hs.exact (by omega), fun hspliced => ?_⟩
  subst hspliced
  exact (Nat.mul_eq_zero.mp hextra).resolve_left (by omega)

theorem Run.rigid_append (r s : Run) (o : Operator) :
    (r.append o s).rigid = r.rigid + (if o.isAssociative then 0 else 1) + s.rigid := by
  cases ho : o.isAssociative with
  | true => simp [rigid, append, ho]
  | false => simp [rigid, append, ho]; omega

theorem rigid_le_runFrom (type? : Option TypeRef) (o : Operator) : ∀ (xs : List Expression)
    (r : Run), r.rigid ≤ (runFrom type? o r xs).rigid
  | [], _ => Nat.le_refl _
  | operand :: rest, r => by
    have hrest := rigid_le_runFrom type? o rest
      (r.append o (operand.run.operand (operand.isSpliced type? o false)))
    have happend := r.rigid_append (operand.run.operand (operand.isSpliced type? o false)) o
    rw [runFrom]
    omega

theorem Expression.leansOn_of_rigid {o : Operator} (ho : o.isAssociative) : ∀ e : Expression,
    e.strength = o.strength → e.run.rigid = 0 → e.leansOn o
  | .number _, _, _ | .boolean _, _, _ | .string _, _, _ | .null, _, _ | .name _, _, _
  | .parenthesized _, _, _ | .conditional .., _, _ => rfl
  | .chain type? o' left right extended, hs, hr => by
    simp only [strength] at hs
    have hle := rigid_le_runFrom type? o' extended
      ((left.run.operand (left.isSpliced type? o' true)).append o'
        (right.run.operand (right.isSpliced type? o' false)))
    rw [Expression.run] at hr
    rw [hr, Run.rigid_append] at hle
    have ho' : o'.isAssociative := by
      by_contra hno
      rw [if_neg hno] at hle
      omega
    obtain rfl := Operator.eq_of_isAssociative ho' ho hs
    have hleft : left.leansOn o' := by
      by_cases hls : left.strength = o'.strength
      · rw [isSpliced_first hls, Run.operand, if_pos rfl] at hle
        exact left.leansOn_of_rigid ho hls (by omega)
      · exact leansOn_of_strength_ne hls
    simp [leansOn, hleft]

theorem Expression.splicesCleanly_of_rigid {type? : Option TypeRef} {o : Operator} {e : Expression}
    (h : e.isSpliced type? o false → e.run.rigid = 0) : e.splicesCleanly type? o := by
  cases hs : e.isSpliced type? o false with
  | false => simp [splicesCleanly, hs]
  | true =>
    have hleans := e.leansOn_of_rigid (isAssociative_of_isSpliced hs) (strength_of_isSpliced hs)
      (h hs)
    simp [splicesCleanly, hleans]

mutual

/-- **What is read of an expression outweighs it**, unless it regroups cleanly. -/
theorem Expression.outweighs_run : ∀ e : Expression, Outweighs e.run e.grouping e.regroupsCleanly
  | .number _ | .boolean _ | .string _ | .null | .name _ => ⟨rfl, Nat.le_refl _, fun _ => rfl⟩
  | .parenthesized inner => by
    have hinner := inner.outweighs_run
    refine ⟨hinner.size, hinner.burden, fun he => ?_⟩
    have hclean : inner.regroupsCleanly := hinner.exact he
    simpa [Expression.regroupsCleanly, Expression.every, Expression.joinsCleanly] using hclean
  | .chain type? o left right extended => by
    have hl := left.outweighs_run
    have hr := right.outweighs_run
    have hleft : Outweighs (left.run.operand (left.isSpliced type? o true)) left.grouping
        left.regroupsCleanly := by
      refine ⟨?_, ?_, ?_⟩ <;> rw [Run.fold_operand]
      · exact hl.size
      · exact hl.burden
      · exact hl.exact
    have hfirst := hleft.append hr o (right.isSpliced type? o false)
    refine (outweighs_runFrom extended hfirst).imp ?_
    rintro ⟨⟨hcl, hcr, hright⟩, hcx, hextended⟩
    have hright' := Expression.splicesCleanly_of_rigid hright
    simp only [Expression.regroupsCleanly, Expression.every, Expression.joinsCleanly, List.all_cons,
      Bool.and_eq_true]
    exact ⟨⟨⟨⟨hright', hextended⟩, hcl⟩, hcr⟩, hcx⟩
  | .conditional condition thenExpression elseExpression => by
    have hc := condition.outweighs_run
    have ht := thenExpression.outweighs_run
    have he := elseExpression.outweighs_run
    have hcs := hc.size
    have hts := ht.size
    have hes := he.size
    have hcb := hc.burden
    have htb := ht.burden
    have heb := he.burden
    simp only [Grouping.size, Grouping.burden] at hcs hts hes hcb htb heb
    refine ⟨?_, ?_, fun hequal => ?_⟩
    · simp only [Expression.run, Run.fold_single, Expression.grouping, Grouping.size,
        Grouping.flatten, OperandTree.size]
      omega
    · simp only [Expression.run, Run.fold_single, Expression.grouping, Grouping.burden,
        Grouping.flatten, OperandTree.burden]
      omega
    · simp only [Expression.run, Run.fold_single, Expression.grouping, Grouping.burden,
        Grouping.flatten, OperandTree.burden] at hequal
      have hcc : condition.regroupsCleanly := hc.exact (by simp only [Grouping.burden]; omega)
      have htc : thenExpression.regroupsCleanly := ht.exact (by simp only [Grouping.burden]; omega)
      have hec : elseExpression.regroupsCleanly := he.exact (by simp only [Grouping.burden]; omega)
      simp only [Expression.regroupsCleanly] at hcc htc hec
      simp [Expression.regroupsCleanly, Expression.every, Expression.joinsCleanly, hcc, htc, hec]

theorem outweighs_runFrom {type? : Option TypeRef} {o : Operator} : ∀ (xs : List Expression)
    {r : Run} {g : Grouping} {P : Prop}, Outweighs r g P →
      Outweighs (runFrom type? o r xs) (groupedFrom o g xs)
        (P ∧ everyOperand Expression.joinsCleanly xs ∧ xs.all (Expression.splicesCleanly type? o))
  | [], _, _, _, hr => hr.imp fun hp => ⟨hp, rfl, rfl⟩
  | operand :: rest, r, g, P, hr => by
    have hoperand := hr.append operand.outweighs_run o (operand.isSpliced type? o false)
    refine (outweighs_runFrom rest hoperand).imp ?_
    rintro ⟨⟨hp, hc, hspliced⟩, hcr, hrest⟩
    have hs := Expression.splicesCleanly_of_rigid hspliced
    simp only [everyOperand, List.all_cons, Bool.and_eq_true]
    exact ⟨hp, ⟨hc, hcr⟩, hs, hrest⟩

end

/-- **What is read of an expression has its operand tree exactly if it regroups cleanly.** -/
theorem Expression.flatten_run_iff (e : Expression) :
    e.run.fold.flatten = e.grouping.flatten ↔ e.regroupsCleanly := by
  refine ⟨fun h => e.outweighs_run.exact ?_, e.flatten_run⟩
  rw [Grouping.burden, h]
  rfl

/-! ### Source texts -/

namespace Forest

/-- **The source text of an expression that regroups cleanly determines its operand tree**, in all
forests that runs reach and whatever types the chains have: the text of an ordinary expression reads
as a grouping with the operand tree of the expression exactly if it regroups cleanly, and another
ordinary expression with the text of one that does has the same operand tree exactly if it does too.
-/
theorem sourceText_determines_operandTree (steps₁ steps₂ : List Step) {h k : Handle} {a b : Kind}
    (ha : (empty.run steps₁).kind h = .ok a) (ha' : a.isExpression)
    (hb : (empty.run steps₂).kind k = .ok b) (hb' : b.isExpression) :
    ∃ d e, (empty.run steps₁).fragment h = .ok (.expression d) ∧
      (empty.run steps₂).fragment k = .ok (.expression e) ∧
      (d.ordinary → ∃ text g, (empty.run steps₁).sourceText h = .ok text ∧
        Grouping.ofText? text = some g ∧ (g.flatten = d.grouping.flatten ↔ d.regroupsCleanly)) ∧
      (d.ordinary → e.ordinary → d.regroupsCleanly →
        (empty.run steps₁).sourceText h = (empty.run steps₂).sourceText k →
          (d.grouping.flatten = e.grouping.flatten ↔ e.regroupsCleanly)) := by
  obtain ⟨d, hd⟩ := exists_fragment_expression (wellFormed_run steps₁ wellFormed_empty) ha ha'
  obtain ⟨e, he⟩ := exists_fragment_expression (wellFormed_run steps₂ wellFormed_empty) hb hb'
  have hdtext := sourceText_eq_ok hd
  have hetext := sourceText_eq_ok he
  refine ⟨d, e, hd, he, fun ho => ?_, fun hdo heo hclean htext => ?_⟩
  · exact ⟨_, _, hdtext, Expression.ofText?_text_eq_run ho, d.flatten_run_iff⟩
  · rw [hdtext, hetext] at htext
    have hread := Expression.ofText?_text_eq_run hdo
    have hsame : String.ofList d.text = String.ofList e.text := Except.ok.inj htext
    rw [hsame, Expression.ofText?_text_eq_run heo] at hread
    have hrun : e.run.fold = d.run.fold := Option.some.inj hread
    rw [← e.flatten_run_iff, hrun, d.flatten_run hclean]

/-- `a + (b + c)` and `a + b + c`, both of type `int`, have the same text and the same operand tree.
-/
theorem sourceText_determines_operandTree_sum :
    ∃ d e : Expression, d.grouping ≠ e.grouping ∧ d.grouping.flatten = e.grouping.flatten ∧
      (empty.run [.operate (.name "a"), .operate (.name "b"), .operate (.name "c"),
        .operate (.chain (some ⟨⟨0, 0⟩, .primitive .int⟩) .plus ⟨1, 0⟩ ⟨2, 0⟩),
        .operate (.chain (some ⟨⟨0, 0⟩, .primitive .int⟩) .plus ⟨0, 0⟩ ⟨3, 0⟩)]).fragment ⟨4, 0⟩ =
          .ok (.expression d) ∧
      (empty.run [.operate (.name "a"), .operate (.name "b"), .operate (.name "c"),
        .operate (.chain (some ⟨⟨0, 0⟩, .primitive .int⟩) .plus ⟨0, 0⟩ ⟨1, 0⟩),
        .operate (.chain (some ⟨⟨0, 0⟩, .primitive .int⟩) .plus ⟨3, 0⟩ ⟨2, 0⟩)]).fragment ⟨4, 0⟩ =
          .ok (.expression e) := by
  obtain ⟨d, e, hd, he, -, h⟩ := sourceText_determines_operandTree
    [.operate (.name "a"), .operate (.name "b"), .operate (.name "c"),
      .operate (.chain (some ⟨⟨0, 0⟩, .primitive .int⟩) .plus ⟨1, 0⟩ ⟨2, 0⟩),
      .operate (.chain (some ⟨⟨0, 0⟩, .primitive .int⟩) .plus ⟨0, 0⟩ ⟨3, 0⟩)]
    [.operate (.name "a"), .operate (.name "b"), .operate (.name "c"),
      .operate (.chain (some ⟨⟨0, 0⟩, .primitive .int⟩) .plus ⟨0, 0⟩ ⟨1, 0⟩),
      .operate (.chain (some ⟨⟨0, 0⟩, .primitive .int⟩) .plus ⟨3, 0⟩ ⟨2, 0⟩)]
    (h := ⟨4, 0⟩) (k := ⟨4, 0⟩) (a := .chain) (b := .chain) rfl rfl rfl rfl
  refine ⟨d, e, ?_, ?_, hd, he⟩
  all_goals
    obtain rfl : Expression.chain (some ⟨⟨0, 0⟩, .primitive .int⟩) .plus (.name "a")
      (.chain (some ⟨⟨0, 0⟩, .primitive .int⟩) .plus (.name "b") (.name "c") []) [] = d := by
        cases hd; rfl
    obtain rfl : Expression.chain (some ⟨⟨0, 0⟩, .primitive .int⟩) .plus
      (.chain (some ⟨⟨0, 0⟩, .primitive .int⟩) .plus (.name "a") (.name "b") []) (.name "c") [] =
        e := by cases he; rfl
  · decide
  · refine (h rfl rfl rfl ?_).mpr rfl
    rw [sourceText_eq_ok hd, sourceText_eq_ok he]
    rfl

/-- `a * (x / y * c)` and `a * x / y * c`, all of it of type `int`, have the same text, and their
divisions have different operands. -/
theorem equal_sourceText_of_different_operandTrees : ∃ d e : Expression,
    (empty.run [.operate (.name "a"), .operate (.name "x"), .operate (.name "y"),
      .operate (.name "c"), .operate (.chain (some ⟨⟨0, 0⟩, .primitive .int⟩) .divide ⟨1, 0⟩ ⟨2, 0⟩),
      .operate (.chain (some ⟨⟨0, 0⟩, .primitive .int⟩) .times ⟨4, 0⟩ ⟨3, 0⟩),
      .operate (.chain (some ⟨⟨0, 0⟩, .primitive .int⟩) .times ⟨0, 0⟩ ⟨5, 0⟩)]).fragment ⟨6, 0⟩ =
        .ok (.expression d) ∧
    (empty.run [.operate (.name "a"), .operate (.name "x"), .operate (.name "y"),
      .operate (.name "c"), .operate (.chain (some ⟨⟨0, 0⟩, .primitive .int⟩) .times ⟨0, 0⟩ ⟨1, 0⟩),
      .operate (.chain (some ⟨⟨0, 0⟩, .primitive .int⟩) .divide ⟨4, 0⟩ ⟨2, 0⟩),
      .operate (.chain (some ⟨⟨0, 0⟩, .primitive .int⟩) .times ⟨5, 0⟩ ⟨3, 0⟩)]).fragment ⟨6, 0⟩ =
        .ok (.expression e) ∧
    d.ordinary ∧ e.ordinary ∧ d.text = "a * x / y * c".toList ∧ e.text = "a * x / y * c".toList ∧
    d.grouping.flatten ≠ e.grouping.flatten := by
  refine ⟨_, _, rfl, rfl, rfl, rfl, rfl, rfl, fun h => ?_⟩
  exact absurd (congrArg OperandTree.burden h) (by decide)

end Forest

end SyntaxForest
