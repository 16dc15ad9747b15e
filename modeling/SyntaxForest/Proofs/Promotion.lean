import SyntaxForest.Proofs.Arithmetic
import SyntaxForest.Proofs.Regrouping

/-! # Promotion

The text of an integer expression of one operator reads as a grouping of the same names
(`Expression.names_run`), but not always as one with the same parts. If only `l` is of type `long`,
both sums of `a + (b + l)` are, and it is written `a + b + l`, which adds `a` and `b` at `int`,
where the sum may overflow.

An expression *keeps its parts* if, where an operand is spliced into a chain with a name of type
`long`, it starts with an operand of type `long` (`Expression.keepsParts`). Then what its text reads
as has its parts (`Expression.parts_run`), and its value. -/

namespace SyntaxForest

variable {w : String → Width}

/-! ### Names and operators are read as they are written -/

namespace Grouping

theorem names_foldl : ∀ (steps : List (Operator × Grouping)) (g : Grouping),
    (steps.foldl (fun g step => .binary g step.1 step.2) g).names =
      g.names ++ steps.flatMap fun step => step.2.names
  | [], g => by simp
  | (o, h) :: steps, g => by
    rw [List.foldl_cons, names_foldl steps, names, List.flatMap_cons, List.append_assoc]

theorem isOver_foldl {o : Operator} : ∀ (steps : List (Operator × Grouping)) (g : Grouping),
    (steps.foldl (fun g step => .binary g step.1 step.2) g).isOver o =
      (g.isOver o && steps.all fun step => decide (step.1 = o) && step.2.isOver o)
  | [], g => by simp
  | (o', h) :: steps, g => by
    rw [List.foldl_cons, isOver_foldl steps, isOver, List.all_cons]
    cases decide (o' = o) <;> cases g.isOver o <;> simp

theorem parts_foldl : ∀ (steps : List (Operator × Grouping)) {g : Grouping},
    g.isNarrow w = false → (steps.foldl (fun g step => .binary g step.1 step.2) g).parts w =
      g.parts w ++ steps.flatMap fun step => step.2.parts w
  | [], g, _ => by simp
  | (o, h) :: steps, g, hg => by
    have hn : (binary g o h).isNarrow w = false := by rw [isNarrow_binary, hg, Bool.false_and]
    rw [List.foldl_cons, parts_foldl steps hn, parts_binary hn, List.flatMap_cons,
      List.append_assoc]

theorem parts_binary_congr {l l' r r' : Grouping} {o o' : Operator}
    (hl : l.parts w = l'.parts w) (hr : r.parts w = r'.parts w) :
    (binary l o r).parts w = (binary l' o' r').parts w := by
  have hnames : (binary l o r).names = (binary l' o' r').names := by
    rw [names, names, ← flatten_parts w l, ← flatten_parts w r, hl, hr, flatten_parts,
      flatten_parts]
  have hnarrow : (binary l o r).isNarrow w = (binary l' o' r').isNarrow w := by
    rw [isNarrow, hnames, isNarrow]
  cases hn : (binary l o r).isNarrow w with
  | true => rw [parts_of_isNarrow hn, parts_of_isNarrow (hnarrow ▸ hn), hnames]
  | false => rw [parts_binary hn, parts_binary (hnarrow ▸ hn), hl, hr]

end Grouping

namespace Run

variable (r s : Run) (o o' : Operator)

theorem names_fold : r.fold.names = r.head.names ++ r.steps.flatMap fun step => step.2.names :=
  Grouping.names_foldl r.steps r.head

theorem names_append : (r.append o s).fold.names = r.fold.names ++ s.fold.names := by
  simp [names_fold, append]

theorem isOver_fold : r.fold.isOver o =
    (r.head.isOver o && r.steps.all fun step => decide (step.1 = o) && step.2.isOver o) :=
  Grouping.isOver_foldl r.steps r.head

theorem isOver_append :
    (r.append o s).fold.isOver o' = (r.fold.isOver o' && decide (o = o') && s.fold.isOver o') := by
  simp [isOver_fold, append, Bool.and_assoc]

theorem isNarrow_fold (w : String → Width) : r.fold.isNarrow w =
    (r.head.isNarrow w && (r.steps.flatMap fun step => step.2.names).all fun x => w x = .int) := by
  rw [Grouping.isNarrow, names_fold, List.all_append]
  rfl

variable {s} in
/-- A run that starts with an operand of type `long` adds its parts to those before it. -/
theorem parts_append (hs : s.head.isNarrow w = false) :
    (r.append o s).fold.parts w = r.fold.parts w ++ s.fold.parts w := by
  have hn : (Grouping.binary r.fold o s.head).isNarrow w = false := by
    rw [Grouping.isNarrow_binary, hs, Bool.and_false]
  have hfold : s.fold.parts w = s.head.parts w ++ s.steps.flatMap fun step => step.2.parts w :=
    Grouping.parts_foldl s.steps hs
  calc (r.append o s).fold.parts w
      = ((Run.single r.fold).append o s).fold.parts w := by rw [fold_append]
    _ = (Grouping.binary r.fold o s.head).parts w ++ s.steps.flatMap fun step => step.2.parts w :=
      Grouping.parts_foldl s.steps hn
    _ = r.fold.parts w ++ s.fold.parts w := by
      rw [Grouping.parts_binary hn, hfold, List.append_assoc]

end Run

mutual

/-- **The names of an expression are read in the order of the expression.** -/
theorem Expression.names_run : ∀ e : Expression, e.run.fold.names = e.grouping.names
  | .number _ | .boolean _ | .string _ | .null | .name _ => rfl
  | .parenthesized inner => inner.names_run
  | .chain type? o left right extended => by
    refine names_runFrom extended ?_
    rw [Run.names_append, Run.fold_operand, Run.fold_operand, left.names_run, right.names_run]
    rfl
  | .conditional condition thenExpression elseExpression => by
    have hcondition := condition.names_run
    have hthen := thenExpression.names_run
    have helse := elseExpression.names_run
    simp only [Expression.run, Run.fold_single, Expression.grouping, Grouping.names, hcondition,
      hthen, helse]

theorem names_runFrom {type? : Option TypeRef} {o : Operator} : ∀ (xs : List Expression) {r : Run}
    {g : Grouping}, r.fold.names = g.names →
      (runFrom type? o r xs).fold.names = (groupedFrom o g xs).names
  | [], _, _, hr => hr
  | operand :: rest, r, g, hr => by
    refine names_runFrom rest ?_
    rw [Run.names_append, Run.fold_operand, hr, operand.names_run]
    rfl

end

namespace Expression

/-- Whether an expression is a name, one in parentheses, or a chain with the given operator. -/
def usesOnly (o : Operator) : Expression → Bool
  | name _ | parenthesized _ => true
  | chain _ o' .. => o' = o
  | _ => false

/-- Whether an expression consists of names, parentheses, and chains with the given operator. -/
def isOver (o : Operator) (e : Expression) : Bool := e.every (usesOnly o)

end Expression

mutual

theorem Expression.isOver_grouping {o : Operator} : ∀ e : Expression, e.isOver o →
    e.grouping.isOver o ∧ e.run.fold.isOver o
  | .number _, h | .boolean _, h | .string _, h | .null, h | .conditional .., h => by
    simp [Expression.isOver, Expression.every, Expression.usesOnly] at h
  | .name _, _ => ⟨rfl, rfl⟩
  | .parenthesized inner, h => by
    simp only [Expression.isOver, Expression.every, Bool.and_eq_true] at h
    exact inner.isOver_grouping h.2
  | .chain type? o' left right extended, h => by
    simp only [Expression.isOver, Expression.every, Expression.usesOnly, Bool.and_eq_true,
      decide_eq_true_eq] at h
    obtain ⟨⟨⟨rfl, hl⟩, hr⟩, hx⟩ := h
    have hleft := left.isOver_grouping hl
    have hright := right.isOver_grouping hr
    refine isOver_groupedFrom extended hx ?_ ?_
    · simp [Grouping.isOver, hleft.1, hright.1]
    · rw [Run.isOver_append, Run.fold_operand, Run.fold_operand]
      simp [hleft.2, hright.2]

theorem isOver_groupedFrom {type? : Option TypeRef} {o : Operator} : ∀ (xs : List Expression)
    {r : Run} {g : Grouping}, everyOperand (Expression.usesOnly o) xs → g.isOver o →
      r.fold.isOver o → (groupedFrom o g xs).isOver o ∧ (runFrom type? o r xs).fold.isOver o
  | [], _, _, _, hg, hr => ⟨hg, hr⟩
  | operand :: rest, r, g, hx, hg, hr => by
    simp only [everyOperand, Bool.and_eq_true] at hx
    have hoperand := operand.isOver_grouping hx.1
    refine isOver_groupedFrom rest hx.2 ?_ ?_
    · simp [Grouping.isOver, hg, hoperand.1]
    · rw [Run.isOver_append, Run.fold_operand]
      simp [hr, hoperand.2]

end

/-! ### Keeping the parts -/

namespace Expression

/-- Whether the first operand of the run of an expression has a name of type `long`. -/
def startsWide (w : String → Width) : Expression → Bool
  | chain _ _ left _ _ => left.startsWide w
  | e => !e.grouping.isNarrow w

/-- Whether an operand that is spliced into a chain starts with an operand of type `long`. -/
def splicesWide (w : String → Width) (type? : Option TypeRef) (o : Operator) (e : Expression) :
    Bool := !e.isSpliced type? o false || e.startsWide w

/-- Whether the later operands of a chain with a name of type `long` start with an operand of type
`long` if they are spliced. -/
def joinsWide (w : String → Width) : Expression → Bool
  | chain type? o left right extended =>
    (chain type? o left right extended).grouping.isNarrow w ||
      (right :: extended).all (splicesWide w type? o)
  | _ => true

/-- **Keeping the parts**: what is spliced into a chain with a name of type `long` starts with an
operand of type `long`. -/
def keepsParts (w : String → Width) (e : Expression) : Bool := e.every (joinsWide w)

theorem isNarrow_run (w : String → Width) (e : Expression) :
    e.run.fold.isNarrow w = e.grouping.isNarrow w := by
  rw [Grouping.isNarrow, e.names_run, Grouping.isNarrow]

end Expression

theorem head_runFrom {type? : Option TypeRef} {o : Operator} : ∀ (xs : List Expression) (r : Run),
    (runFrom type? o r xs).head = r.head
  | [], _ => rfl
  | _ :: rest, _ => head_runFrom rest _

theorem Expression.isNarrow_head {o : Operator} : ∀ e : Expression, e.isOver o →
    e.run.head.isNarrow w = !e.startsWide w
  | .number _, h | .boolean _, h | .string _, h | .null, h | .conditional .., h => by
    simp [isOver, every, usesOnly] at h
  | .name _, _ => by simp [startsWide, run, Run.single, grouping]
  | .parenthesized inner, _ => by
    simp [startsWide, run, Run.single, grouping, inner.isNarrow_run w]
  | .chain type? o' left right extended, h => by
    simp only [isOver, every, usesOnly, Bool.and_eq_true, decide_eq_true_eq] at h
    obtain ⟨⟨⟨rfl, hl⟩, -⟩, -⟩ := h
    have hhead : (left.run.operand (left.isSpliced type? o' true)).head = left.run.head := by
      cases left with
      | chain _ o'' =>
        simp only [every, usesOnly, Bool.and_eq_true, decide_eq_true_eq] at hl
        obtain ⟨⟨⟨rfl, -⟩, -⟩, -⟩ := hl
        rw [isSpliced_first rfl]
        rfl
      | _ => cases isSpliced _ _ _ _ <;> rfl
    rw [run, head_runFrom, startsWide, ← left.isNarrow_head hl, ← hhead]
    rfl

theorem parts_append_operand {type? : Option TypeRef} {o o' : Operator} {r : Run} {g : Grouping}
    {e : Expression} (hr : r.fold.parts w = g.parts w)
    (he : e.run.fold.parts w = e.grouping.parts w) (ho : e.isOver o')
    (hs : e.splicesWide w type? o) :
    (r.append o (e.run.operand (e.isSpliced type? o false))).fold.parts w =
      (Grouping.binary g o e.grouping).parts w := by
  cases hspliced : e.isSpliced type? o false with
  | true =>
    have hwide : e.startsWide w := by simpa [Expression.splicesWide, hspliced] using hs
    have hhead : e.run.head.isNarrow w = false := by rw [e.isNarrow_head ho, hwide, Bool.not_true]
    have hfold : e.grouping.isNarrow w = false := by
      rw [← e.isNarrow_run, Run.isNarrow_fold, hhead, Bool.false_and]
    have hn : (Grouping.binary g o e.grouping).isNarrow w = false := by
      rw [Grouping.isNarrow_binary, hfold, Bool.and_false]
    rw [Run.operand, if_pos rfl, Run.parts_append r o hhead, Grouping.parts_binary hn, hr, he]
  | false =>
    rw [Run.operand, if_neg Bool.false_ne_true, Run.fold_append_single]
    exact Grouping.parts_binary_congr hr he

mutual

/-- **What is read of an expression that keeps its parts** has its parts. -/
theorem Expression.parts_run {o : Operator} : ∀ e : Expression, e.isOver o → e.keepsParts w →
    e.run.fold.parts w = e.grouping.parts w
  | .number _, _, _ | .boolean _, _, _ | .string _, _, _ | .null, _, _ | .name _, _, _ => rfl
  | .conditional .., ho, _ => by
    simp [Expression.isOver, Expression.every, Expression.usesOnly] at ho
  | .parenthesized inner, ho, hk => by
    simp only [Expression.isOver, Expression.keepsParts, Expression.every, Bool.and_eq_true]
      at ho hk
    exact inner.parts_run ho.2 hk.2
  | .chain type? o' left right extended, ho, hk => by
    cases hn : (Expression.chain type? o' left right extended).grouping.isNarrow w with
    | true =>
      -- all of it is computed at `int`, in whatever order
      have hrun := hn
      rw [← Expression.isNarrow_run] at hrun
      rw [Grouping.parts_of_isNarrow hrun, Grouping.parts_of_isNarrow hn, Expression.names_run]
    | false =>
      simp only [Expression.isOver, Expression.every, Bool.and_eq_true] at ho
      simp only [Expression.keepsParts, Expression.every, Expression.joinsWide, hn, Bool.false_or,
        List.all_cons, Bool.and_eq_true] at hk
      obtain ⟨⟨⟨-, hol⟩, hor⟩, hox⟩ := ho
      obtain ⟨⟨⟨⟨hright, hextended⟩, hkl⟩, hkr⟩, hkx⟩ := hk
      have hleft : (left.run.operand (left.isSpliced type? o' true)).fold.parts w =
          left.grouping.parts w := by
        rw [Run.fold_operand]; exact left.parts_run hol hkl
      have hfirst := parts_append_operand hleft (right.parts_run hor hkr) hor hright
      exact parts_runFrom extended hox hkx hextended hfirst

theorem parts_runFrom {type? : Option TypeRef} {o o' : Operator} : ∀ (xs : List Expression)
    {r : Run} {g : Grouping}, everyOperand (Expression.usesOnly o') xs →
      everyOperand (Expression.joinsWide w) xs → xs.all (Expression.splicesWide w type? o) →
        r.fold.parts w = g.parts w →
          (runFrom type? o r xs).fold.parts w = (groupedFrom o g xs).parts w
  | [], _, _, _, _, _, hr => hr
  | operand :: rest, r, g, ho, hk, hx, hr => by
    simp only [everyOperand, List.all_cons, Bool.and_eq_true] at ho hk hx
    have hoperand := parts_append_operand hr (operand.parts_run ho.1 hk.1) ho.1 hx.1
    exact parts_runFrom rest ho.2 hk.2 hx.2 hoperand

end

/-! ### Source texts -/

namespace Forest

/-- **What the source text of an integer expression computes**, in all forests that runs reach and
whatever types the chains have. An ordinary expression of names and one operator has a value at all
types and values of the names, and so has what its text reads as. The two are the same if the
operator is `^`, `&` or `|`, or the text reads as a grouping with the same parts, as it does for an
expression that keeps its parts and for one whose names are all of one type. If no name occurs
twice, the two are always the same only then. -/
theorem sourceText_keeps_value (steps : List Step) {h : Handle} {a : Kind}
    (ha : (empty.run steps).kind h = .ok a) (ha' : a.isExpression) :
    ∃ e, (empty.run steps).fragment h = .ok (.expression e) ∧
      ∀ o : IntegralOperator, e.isOver o.operator → e.ordinary → ∃ text g,
        (empty.run steps).sourceText h = .ok text ∧ Grouping.ofText? text = some g ∧
        ∀ w : String → Width,
          (∀ values : Values w, ∃ m n, g.value? values = some m ∧
            e.grouping.value? values = some n ∧
              (o.isBitwise ∨ g.parts w = e.grouping.parts w → m = n)) ∧
          (e.keepsParts w ∨ (∃ u, ∀ x ∈ e.grouping.names, w x = u) →
            g.parts w = e.grouping.parts w) ∧
          (e.grouping.names.Nodup →
            (∀ values : Values w, g.value? values = e.grouping.value? values) →
              o.isBitwise ∨ g.parts w = e.grouping.parts w) := by
  obtain ⟨e, he⟩ := exists_fragment_expression (wellFormed_run steps wellFormed_empty) ha ha'
  refine ⟨e, he, fun o ho hordinary => ⟨_, _, sourceText_eq_ok he,
    Expression.ofText?_text_eq_run hordinary, fun w => ?_⟩⟩
  obtain ⟨hg, hr⟩ := e.isOver_grouping ho
  have hnames := e.names_run
  refine ⟨fun values => ?_, ?_, fun hnodup hv => ?_⟩
  · obtain ⟨m, hm, -⟩ := Grouping.exists_value hr values
    obtain ⟨n, hn, -⟩ := Grouping.exists_value hg values
    refine ⟨m, n, hm, hn, fun hsame => ?_⟩
    have heq : e.run.fold.value? values = e.grouping.value? values := hsame.elim
      (fun hb => Grouping.value?_eq_of_isBitwise hb hr hg hnames values)
      fun hp => Grouping.value?_eq_of_parts_eq hr hg hp values
    rw [hm, hn] at heq
    exact Option.some.inj heq
  · rintro (hkeeps | ⟨u, hu⟩)
    · exact e.parts_run ho hkeeps
    · exact (Grouping.parts_eq_of_same_width hg hr hnames.symm hu).symm
  · cases hb : o.isBitwise with
    | true => exact .inl rfl
    | false => exact .inr (Grouping.parts_eq_of_value?_eq hb hr hg hnames (hnames ▸ hnodup) hv)

/-- `l + (m + a)` is written `l + m + a` if both sums are of type `long`, with the same value for
all `l` and `m` of type `long` and `a` of type `int`. -/
theorem sourceText_keeps_value_sum :
    ∃ e g, (empty.run [.operate (.name "l"), .operate (.name "m"), .operate (.name "a"),
        .operate (.chain (some ⟨⟨0, 1⟩, .primitive .long⟩) .plus ⟨1, 0⟩ ⟨2, 0⟩),
        .operate (.chain (some ⟨⟨0, 1⟩, .primitive .long⟩) .plus ⟨0, 0⟩ ⟨3, 0⟩)]).fragment
          ⟨4, 0⟩ = .ok (.expression e) ∧
      Grouping.ofText? "l + m + a" = some g ∧ g ≠ e.grouping ∧
      ∀ values : Values fun x => if x = "a" then .int else .long,
        g.value? values = e.grouping.value? values := by
  obtain ⟨e, he, hall⟩ := sourceText_keeps_value
    [.operate (.name "l"), .operate (.name "m"), .operate (.name "a"),
      .operate (.chain (some ⟨⟨0, 1⟩, .primitive .long⟩) .plus ⟨1, 0⟩ ⟨2, 0⟩),
      .operate (.chain (some ⟨⟨0, 1⟩, .primitive .long⟩) .plus ⟨0, 0⟩ ⟨3, 0⟩)]
    (h := ⟨4, 0⟩) (a := .chain) rfl rfl
  obtain rfl : Expression.chain (some ⟨⟨0, 1⟩, .primitive .long⟩) .plus (.name "l")
    (.chain (some ⟨⟨0, 1⟩, .primitive .long⟩) .plus (.name "m") (.name "a") []) [] = e := by
      cases he; rfl
  obtain ⟨text, g, htext, hg, hw⟩ := hall .plus rfl rfl
  obtain rfl : "l + m + a" = text := by
    rw [sourceText_eq_ok he] at htext
    exact Except.ok.inj htext
  have hread : Grouping.ofText? "l + m + a" =
      some (.binary (.binary (.name "l") .plus (.name "m")) .plus (.name "a")) := rfl
  refine ⟨_, g, he, hg, ?_, fun values => ?_⟩
  · rintro rfl
    cases hread.symm.trans hg
  · obtain ⟨m, n, hm, hn, hvalue⟩ := (hw _).1 values
    rw [hm, hn, hvalue (.inr ((hw _).2.1 (.inl (by decide))))]

/-- `a + (b + l)` is written `a + b + l` if both sums are of type `long`, as they are for `a` and
`b` of type `int` and `l` of type `long`. At `a = 2 ^ 31 - 1`, `b = 1` and `l = 0` the tree has the
value `2 ^ 31`, and what the text reads as has the value `-2 ^ 31`. -/
theorem sourceText_changes_value : ∃ f e g, f = empty.run
      [.operate (.name "a"), .operate (.setType ⟨0, 0⟩ (some ⟨⟨0, 0⟩, .primitive .int⟩)),
        .operate (.name "b"), .operate (.setType ⟨1, 0⟩ (some ⟨⟨0, 0⟩, .primitive .int⟩)),
        .operate (.name "l"), .operate (.setType ⟨2, 0⟩ (some ⟨⟨0, 1⟩, .primitive .long⟩)),
        .operate (.chain (some ⟨⟨0, 1⟩, .primitive .long⟩) .plus ⟨1, 0⟩ ⟨2, 0⟩),
        .operate (.chain (some ⟨⟨0, 1⟩, .primitive .long⟩) .plus ⟨0, 0⟩ ⟨3, 0⟩)] ∧
    f.type? ⟨0, 0⟩ = .ok (some ⟨⟨0, 0⟩, .primitive .int⟩) ∧
    f.type? ⟨1, 0⟩ = .ok (some ⟨⟨0, 0⟩, .primitive .int⟩) ∧
    f.type? ⟨2, 0⟩ = .ok (some ⟨⟨0, 1⟩, .primitive .long⟩) ∧
    f.fragment ⟨4, 0⟩ = .ok (.expression e) ∧
    e = .chain (some ⟨⟨0, 1⟩, .primitive .long⟩) .plus (.name "a")
      (.chain (some ⟨⟨0, 1⟩, .primitive .long⟩) .plus (.name "b") (.name "l") []) [] ∧
    f.sourceText ⟨4, 0⟩ = .ok "a + b + l" ∧ Grouping.ofText? "a + b + l" = some g ∧
    ∃ (w : String → Width) (values : Values w), w "a" = .int ∧ w "b" = .int ∧ w "l" = .long ∧
      e.grouping.value? values = some ⟨.long, .twoPow 64 31⟩ ∧
      g.value? values = some ⟨.long, -.twoPow 64 31⟩ := by
  refine ⟨_, _, .binary (.binary (.name "a") .plus (.name "b")) .plus (.name "l"), rfl, rfl, rfl,
    rfl, rfl, rfl, rfl, rfl, fun x => if x = "l" then .long else .int,
    fun x => if x = "a" then .twoPow _ 31 - 1 else if x = "b" then 1 else 0,
    rfl, rfl, rfl, ?_, ?_⟩
  · decide
  · decide

end Forest

end SyntaxForest
