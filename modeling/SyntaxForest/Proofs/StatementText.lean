import SyntaxForest.Proofs.Branches
import SyntaxForest.Proofs.SourceText

/-! # Source texts of statements

The text of an ordinary statement without types reads as its settled outline
(`Statement.ofText?_text`). If the outline is not attached, an `else` is read as part of another
branch: `if (a) if (b) x; else y;` is the text of a branch whose first branch ends open, and is read
as a branch without a second one.

So in every forest that a run reaches, the source text of a statement determines its settled
outline, and its outline if that is attached (`sourceText_determines_outline`). -/

namespace SyntaxForest

variable {pending : List Pending} {rest x y : List Token} {t : Token} {g : Grouping}
  {outline : Outline}

/-! ### Collecting the tokens of an expression -/

/-- The tokens are collected as part of an expression, whether it ends with a semicolon or with a
parenthesis, and start a statement. -/
structure Collected (x : List Token) : Prop where
  starts : ∃ t y, x = t :: y ∧ t.role = .plain
  value : ∀ pending returned seen rest, Reader.read ⟨pending, .value returned seen⟩ (x ++ rest) =
    Reader.read ⟨pending, .value returned (seen ++ x)⟩ rest
  condition : ∀ pending depth seen rest, Reader.read ⟨pending, .condition depth seen⟩ (x ++ rest) =
    Reader.read ⟨pending, .condition depth (seen ++ x)⟩ rest

theorem read_value_cons (ht : t.role = .plain) (returned : Bool) (seen : List Token) :
    Reader.read ⟨pending, .value returned seen⟩ (t :: rest) =
      Reader.read ⟨pending, .value returned (seen ++ [t])⟩ rest := by
  simp [Reader.read, Reader.step, ht]

theorem read_condition_cons (ht : t.role = .plain) {depth : Nat} (hd : t ≠ .closing ∨ depth ≠ 0)
    (seen : List Token) : Reader.read ⟨pending, .condition depth seen⟩ (t :: rest) =
      Reader.read ⟨pending, .condition (t.nest depth) (seen ++ [t])⟩ rest := by
  have hno : ¬ (t = .closing ∧ depth = 0) := by
    rintro ⟨ht, hdepth⟩
    exact hd.elim (· ht) (· hdepth)
  simp [Reader.read, Reader.step, ht, hno]

theorem collected_singleton (ht : t.role = .plain) (hopening : t ≠ .opening)
    (hclosing : t ≠ .closing) : Collected [t] where
  starts := ⟨t, [], rfl, ht⟩
  value _ returned seen _ := read_value_cons ht returned seen
  condition pending depth seen rest := by
    have hnest : t.nest depth = depth := by cases t <;> simp_all [Token.nest]
    rw [List.singleton_append, read_condition_cons ht (.inl hclosing), hnest]

theorem Collected.append (hx : Collected x) (hy : Collected y) : Collected (x ++ y) where
  starts := by
    obtain ⟨t, z, rfl, ht⟩ := hx.starts
    exact ⟨t, z ++ y, rfl, ht⟩
  value _ _ _ _ := by rw [List.append_assoc, hx.value, hy.value, List.append_assoc]
  condition _ _ _ _ := by rw [List.append_assoc, hx.condition, hy.condition, List.append_assoc]

/-- Parentheses around tokens do not end the condition that they are part of. -/
theorem Collected.bracketed (hx : Collected x) (parentheses : Bool) :
    Collected (bracketed parentheses x) := by
  cases parentheses with
  | false => exact hx
  | true =>
    refine ⟨⟨.opening, x ++ [.closing], rfl, rfl⟩, fun pending returned seen rest => ?_,
      fun pending depth seen rest => ?_⟩
    · simp only [SyntaxForest.bracketed, if_pos, List.cons_append, List.append_assoc,
        List.nil_append]
      rw [read_value_cons rfl, hx.value, read_value_cons rfl]
      simp only [List.append_assoc, List.cons_append, List.nil_append]
    · have hopening : Token.opening ≠ .closing := by decide
      have hinside : Token.nest depth .opening ≠ 0 := Nat.succ_ne_zero depth
      simp only [SyntaxForest.bracketed, if_pos, List.cons_append, List.append_assoc,
        List.nil_append]
      rw [read_condition_cons rfl (.inl hopening), hx.condition,
        read_condition_cons (t := .closing) rfl (.inr hinside)]
      simp only [List.append_assoc, List.cons_append, List.nil_append, Token.nest,
        Nat.add_sub_cancel]

theorem Collected.join (hx : Collected x) (ht : Collected [t]) (hy : Collected y) :
    Collected (x ++ t :: y) := hx.append (ht.append hy)

theorem role_name {identifier : String} (h : identifier ∉ keywords) :
    (Token.operand (.name identifier)).role = .plain := by
  simp only [keywords, List.mem_cons, List.not_mem_nil, or_false, not_or] at h
  unfold Token.role
  split <;> simp_all

mutual

/-- **The tokens of an expression without keywords are collected.** -/
theorem Expression.collected_tokens : ∀ e : Expression, e.lacksKeywords → Collected e.tokens
  | .number _, _ | .boolean _, _ | .string _, _ | .null, _ => collected_singleton rfl nofun nofun
  | .name identifier, he => by
    simp only [Expression.lacksKeywords, Expression.every, Expression.isNoKeyword,
      decide_eq_true_eq] at he
    exact collected_singleton (role_name he) nofun nofun
  | .parenthesized inner, he => by
    simp only [Expression.lacksKeywords, Expression.every, Bool.and_eq_true] at he
    exact (inner.collected_tokens he.2).bracketed true
  | .chain type? operator left right extended, he => by
    simp only [Expression.lacksKeywords, Expression.every, Bool.and_eq_true] at he
    have hleft := (left.collected_tokens he.1.1.2).bracketed
      (left.needsParentheses type? operator true)
    have hright := (right.collected_tokens he.1.2).bracketed
      (right.needsParentheses type? operator false)
    have hoperator : Collected [.operator operator] := collected_singleton rfl nofun nofun
    exact collected_operands extended he.2 (hleft.join hoperator hright)
  | .conditional condition thenExpression elseExpression, he => by
    simp only [Expression.lacksKeywords, Expression.every, Bool.and_eq_true] at he
    have hcondition := (condition.collected_tokens he.1.1.2).bracketed condition.isConditional
    have hquestion : Collected [.question] := collected_singleton rfl nofun nofun
    have hcolon : Collected [.colon] := collected_singleton rfl nofun nofun
    have hthen := hcondition.join hquestion (thenExpression.collected_tokens he.1.2)
    exact hthen.join hcolon (elseExpression.collected_tokens he.2)

theorem collected_operands {type? : Option TypeRef} {operator : Operator} :
    ∀ xs : List Expression, everyOperand Expression.isNoKeyword xs → ∀ {x : List Token},
      Collected x → Collected (x ++ operandsTokens type? operator xs)
  | [], _, x, hx => by simpa [operandsTokens] using hx
  | operand :: rest, hxs, x, hx => by
    simp only [everyOperand, Bool.and_eq_true] at hxs
    have hoperand := (operand.collected_tokens hxs.1).bracketed
      (operand.needsParentheses type? operator false)
    have hoperator : Collected [.operator operator] := collected_singleton rfl nofun nofun
    simpa [operandsTokens] using collected_operands rest hxs.2 (hx.join hoperator hoperand)

end

/-! ### Reading the tokens of a statement -/

/-- The tokens are read as the outline, whatever comes after them. -/
def ReadsOutline (x : List Token) (outline : Outline) : Prop :=
  ∀ pending rest, Reader.read ⟨pending, .statement⟩ (x ++ rest) =
    Reader.read ⟨pending, .after outline⟩ rest

theorem read_value (hx : Collected x) (hp : parseOperand [] x = some g) (returned : Bool) :
    Reader.read ⟨pending, .value returned []⟩ (x ++ .mark ';' :: rest) =
      Reader.read ⟨pending, .after (if returned then .ret (some g) else .value g)⟩ rest := by
  have hsome : x.isEmpty = false := by
    obtain ⟨t, y, rfl, -⟩ := hx.starts
    rfl
  have hend : Outline.ofTokens? returned x =
      some (if returned then .ret (some g) else .value g) := by
    cases returned <;> simp [Outline.ofTokens?, hsome, hp]
  have hsemicolon : (Token.mark ';').role = .semicolon := rfl
  rw [hx.value, List.nil_append]
  simp [Reader.read, Reader.step, hsemicolon, hend]

theorem ReadsOutline.value (hx : Collected x) (hp : parseOperand [] x = some g) :
    ReadsOutline (x ++ [.mark ';']) (.value g) := by
  intro pending rest
  have hstart : Reader.read ⟨pending, .statement⟩ (x ++ [.mark ';'] ++ rest) =
      Reader.read ⟨pending, .value false []⟩ (x ++ .mark ';' :: rest) := by
    obtain ⟨t, y, rfl, ht⟩ := hx.starts
    simp [Reader.read, Reader.step, Reader.start, ht]
  exact hstart.trans (read_value hx hp false)

theorem ReadsOutline.ret (hx : Collected x) (hp : parseOperand [] x = some g) :
    ReadsOutline (.keyword "return" :: x ++ [.mark ';']) (.ret (some g)) := by
  intro pending rest
  have hstart : Reader.read ⟨pending, .statement⟩ (.keyword "return" :: x ++ [.mark ';'] ++ rest) =
      Reader.read ⟨pending, .value true []⟩ (x ++ .mark ';' :: rest) := by
    rw [List.append_assoc]
    rfl
  exact hstart.trans (read_value hx hp true)

theorem readsOutline_ret_none : ReadsOutline [.keyword "return", .mark ';'] (.ret none) :=
  fun _ _ => rfl

theorem read_condition (hx : Collected x) (hp : parseOperand [] x = some g) :
    Reader.read ⟨pending, .statement⟩ (.keyword "if" :: .opening :: x ++ .closing :: rest) =
      Reader.read ⟨.condition g :: pending, .statement⟩ rest := by
  have hread : Reader.read ⟨pending, .condition 0 []⟩ (x ++ .closing :: rest) =
      Reader.read ⟨.condition g :: pending, .statement⟩ rest := by
    rw [hx.condition, List.nil_append]
    simp [Reader.read, Reader.step, hp]
  exact hread

theorem ReadsOutline.branch (hx : Collected x) (hp : parseOperand [] x = some g)
    (hy : ReadsOutline y outline) :
    ReadsOutline (.keyword "if" :: .opening :: x ++ .closing :: y) (.branch g outline none) := by
  intro pending rest
  have hsettle : Pending.settle (.condition g :: pending) outline =
      Pending.settle pending (.branch g outline none) := rfl
  calc Reader.read ⟨pending, .statement⟩ (.keyword "if" :: .opening :: x ++ .closing :: y ++ rest)
      = Reader.read ⟨pending, .statement⟩
          (.keyword "if" :: .opening :: x ++ .closing :: (y ++ rest)) := by simp
    _ = Reader.read ⟨.condition g :: pending, .statement⟩ (y ++ rest) := read_condition hx hp
    _ = Reader.read ⟨.condition g :: pending, .after outline⟩ rest := hy _ rest
    _ = Reader.read ⟨pending, .after (.branch g outline none)⟩ rest := Reader.read_after hsettle

/-- **A second branch is given to the last branch before it.** -/
theorem ReadsOutline.give {last : Outline} (hx : ReadsOutline x outline) (h : outline.endsOpen)
    (hy : ReadsOutline y last) : ReadsOutline (x ++ .keyword "else" :: y) (outline.give last) := by
  intro pending rest
  calc Reader.read ⟨pending, .statement⟩ (x ++ .keyword "else" :: y ++ rest)
      = Reader.read ⟨pending, .statement⟩ (x ++ .keyword "else" :: (y ++ rest)) := by simp
    _ = Reader.read ⟨pending, .after outline⟩ (.keyword "else" :: (y ++ rest)) := hx pending _
    _ = Reader.read ⟨pending, .after (outline.give last)⟩ rest :=
      Reader.read_else h fun pending => hy pending rest

theorem Statement.starts_tokens : ∀ s : Statement, s.ordinary →
    ∃ t x, s.tokens = t :: x ∧ t.role ≠ .otherwise
  | .expression value, hs => by
    simp only [ordinary, every, Bool.and_eq_true] at hs
    obtain ⟨t, x, hx, ht⟩ := (value.collected_tokens hs.2).starts
    exact ⟨t, x ++ [.mark ';'], by simp [tokens, hx], by simp [ht]⟩
  | .ret none, _ => ⟨_, _, rfl, by decide⟩
  | .ret (some _), _ => ⟨_, _, rfl, by decide⟩
  | .block _, _ => ⟨_, _, rfl, by decide⟩
  | .branch .., _ => ⟨_, _, rfl, by decide⟩

/-- In a block, no statement and no closing brace is an `else`. -/
theorem starts_statementsTokens (rest : List Token) : ∀ ss : List Statement,
    everyStatement (fun e => e.ordinary && e.lacksKeywords) ss →
      ∃ t x, statementsTokens ss ++ .mark '\x7d' :: rest = t :: x ∧ t.role ≠ .otherwise
  | [], _ => ⟨.mark '\x7d', rest, rfl, by decide⟩
  | s :: ss, hs => by
    simp only [everyStatement, Bool.and_eq_true] at hs
    obtain ⟨t, x, hx, ht⟩ := s.starts_tokens hs.1
    have hfirst : statementsTokens (s :: ss) ++ .mark '\x7d' :: rest =
        t :: (x ++ (statementsTokens ss ++ .mark '\x7d' :: rest)) := by
      simp [statementsTokens, hx]
    exact ⟨t, _, hfirst, ht⟩

theorem Expression.parse_tokens {e : Expression} (h : e.untyped) :
    parseOperand [] e.tokens = some e.grouping := (e.readsAs_tokens h).parse_eq

/-- **In a block, a statement is read and then what comes after it.** -/
theorem read_block_cons (hx : ReadsOutline x outline) (pending : List Pending) (done : List Outline)
    {t : Token} (ht : t.role ≠ .otherwise) (rest : List Token) :
    Reader.read ⟨.block done :: pending, .statement⟩ (x ++ t :: rest) =
      Reader.read ⟨.block (done ++ [outline]) :: pending, .statement⟩ (t :: rest) := by
  have hstep : Reader.step ⟨.block done :: pending, .after outline⟩ t =
      Reader.step ⟨.block (done ++ [outline]) :: pending, .statement⟩ t :=
    Reader.resume_block ht done
  rw [hx, Reader.read, hstep, ← Reader.read]

open Statement in
mutual

/-- **The tokens of an ordinary statement without types are read as its settled outline.** -/
theorem Statement.readsOutline_tokens : ∀ s : Statement, s.untyped → s.ordinary →
    ReadsOutline s.tokens s.outline.settled
  | .expression value, hu, ho => by
    simp only [ordinary, every, Bool.and_eq_true] at ho
    exact .value (value.collected_tokens ho.2) (Expression.parse_tokens hu)
  | .ret none, _, _ => readsOutline_ret_none
  | .ret (some value), hu, ho => by
    simp only [ordinary, every, Option.all_some, Bool.and_eq_true] at ho
    exact .ret (value.collected_tokens ho.2) (Expression.parse_tokens hu)
  | .block statements, hu, ho => by
    intro pending rest
    have hstart : Reader.read ⟨pending, .statement⟩ ((block statements).tokens ++ rest) =
        Reader.read ⟨.block [] :: pending, .statement⟩
          (statementsTokens statements ++ .mark '\x7d' :: rest) := by
      rw [tokens, List.append_assoc]
      rfl
    exact hstart.trans (readsOutlines_tokens statements hu ho pending [] rest)
  | .branch condition thenStatement elseStatement, hu, ho => by
    simp only [untyped, ordinary, every, Bool.and_eq_true] at hu ho
    have hthen := ReadsOutline.branch (condition.collected_tokens ho.1.1.2)
      (Expression.parse_tokens hu.1.1) (thenStatement.readsOutline_tokens hu.1.2 ho.1.2)
    cases elseStatement with
    | none => simpa [tokens, elseTokens, outline, elseOutline, Outline.settled] using hthen
    -- read without its second branch, a branch ends open
    | some elseStatement =>
      exact hthen.give rfl (elseStatement.readsOutline_tokens hu.2 ho.2)

theorem readsOutlines_tokens : ∀ ss : List Statement, everyStatement Expression.untyped ss →
    everyStatement (fun e => e.ordinary && e.lacksKeywords) ss →
      ∀ (pending : List Pending) (done : List Outline) (rest : List Token),
        Reader.read ⟨.block done :: pending, .statement⟩
          (statementsTokens ss ++ .mark '\x7d' :: rest) =
            Reader.read ⟨pending, .after (.block (done ++ Outline.allSettled (outlines ss)))⟩ rest
  | [], _, _, pending, done, rest => by
    rw [outlines, Outline.allSettled, List.append_nil]
    rfl
  | s :: ss, hu, ho, pending, done, rest => by
    simp only [everyStatement, Bool.and_eq_true] at hu ho
    -- no `else` follows, so the statement is done and goes to the block
    obtain ⟨t, x, hx, ht⟩ := starts_statementsTokens rest ss ho.2
    have hfirst := read_block_cons (s.readsOutline_tokens hu.1 ho.1) pending done ht x
    have hrest := readsOutlines_tokens ss hu.2 ho.2 pending (done ++ [s.outline.settled]) rest
    rw [statementsTokens, List.append_assoc, hx, hfirst, ← hx, hrest, outlines, Outline.allSettled,
      List.append_assoc, List.singleton_append]

end

theorem Statement.tokenize_text {s : Statement} (ho : s.ordinary) (depth : Nat) :
    tokenize (s.text depth) = s.tokens := by
  have hscan := s.tokenize_text_append ho depth []
  simpa [tokenize, Lexeme.scan] using hscan

/-- **The text of an ordinary statement without types reads as its settled outline.** -/
theorem Statement.ofText?_text {s : Statement} (hu : s.untyped) (ho : s.ordinary) :
    Outline.ofText? (String.ofList (s.text 0)) = some s.outline.settled := by
  have hread := s.readsOutline_tokens hu ho [] []
  rw [Outline.ofText?, String.toList_ofList, s.tokenize_text ho, ← s.tokens.append_nil, hread]
  rfl

example : Outline.ofText? "if (a) if (b) x; else y;" = some (.branch (.name "a")
    (.branch (.name "b") (.value (.name "x")) (some (.value (.name "y")))) none) := rfl

/-- **Statements with one text have one settled outline.** -/
theorem Statement.settled_eq_of_text_eq {d e : Statement} (hdu : d.untyped) (hdo : d.ordinary)
    (heu : e.untyped) (heo : e.ordinary) (h : d.text 0 = e.text 0) :
    d.outline.settled = e.outline.settled := by
  have hread := ofText?_text hdu hdo
  rw [h, ofText?_text heu heo] at hread
  exact (Option.some.inj hread).symm

/-! ### Source texts -/

namespace Forest

/-- **The source text of a statement determines its settled outline**, in all forests that runs
reach: if no chain has a type, numbers and names are ordinary and no name is a keyword, the text
reads as the settled outline, and that is the outline itself exactly if the outline is attached.
Statements with the same text have the same settled outline. -/
theorem sourceText_determines_outline (steps₁ steps₂ : List Step) {h k : Handle} {a b : Kind}
    (ha : (empty.run steps₁).kind h = .ok a) (ha' : a.isStatement)
    (hb : (empty.run steps₂).kind k = .ok b) (hb' : b.isStatement) :
    ∃ d e, (empty.run steps₁).fragment h = .ok (.statement d) ∧
      (empty.run steps₂).fragment k = .ok (.statement e) ∧
      (d.untyped → d.ordinary → ∃ text, (empty.run steps₁).sourceText h = .ok text ∧
        Outline.ofText? text = some d.outline.settled ∧
          (d.outline.settled = d.outline ↔ d.outline.attached)) ∧
      (d.untyped → d.ordinary → e.untyped → e.ordinary →
        (empty.run steps₁).sourceText h = (empty.run steps₂).sourceText k →
          d.outline.settled = e.outline.settled) := by
  obtain ⟨d, hd⟩ := exists_fragment_statement (wellFormed_run steps₁ wellFormed_empty) ha ha'
  obtain ⟨e, he⟩ := exists_fragment_statement (wellFormed_run steps₂ wellFormed_empty) hb hb'
  have hdtext := sourceText_eq_ok hd
  have hetext := sourceText_eq_ok he
  refine ⟨d, e, hd, he, fun hu ho => ?_, fun hdu hdo heu heo htext => ?_⟩
  · exact ⟨_, hdtext, Statement.ofText?_text hu ho, Outline.settled_eq_iff⟩
  · rw [hdtext, hetext] at htext
    exact Statement.settled_eq_of_text_eq hdu hdo heu heo
      (String.ofList_injective (Except.ok.inj htext))

/-- `if (c * (a - b)) x; else y;`, with and without a node for the inner parentheses. -/
theorem sourceText_determines_outline_parentheses :
    ∃ d e : Statement, d.outline = e.outline ∧
      (empty.run [.operate (.name "a"), .operate (.name "b"),
        .operate (.chain none .minus ⟨0, 0⟩ ⟨1, 0⟩), .operate (.name "c"),
        .operate (.chain none .times ⟨3, 0⟩ ⟨2, 0⟩), .operate (.name "x"),
        .operate (.expressionStatement ⟨5, 0⟩), .operate (.name "y"),
        .operate (.expressionStatement ⟨7, 0⟩),
        .operate (.ifStatement ⟨4, 0⟩ ⟨6, 0⟩ (some ⟨8, 0⟩))]).fragment ⟨9, 0⟩ = .ok (.statement d) ∧
      (empty.run [.operate (.name "a"), .operate (.name "b"),
        .operate (.chain none .minus ⟨0, 0⟩ ⟨1, 0⟩), .operate (.parenthesized ⟨2, 0⟩),
        .operate (.name "c"), .operate (.chain none .times ⟨4, 0⟩ ⟨3, 0⟩), .operate (.name "x"),
        .operate (.expressionStatement ⟨6, 0⟩), .operate (.name "y"),
        .operate (.expressionStatement ⟨8, 0⟩),
        .operate (.ifStatement ⟨5, 0⟩ ⟨7, 0⟩ (some ⟨9, 0⟩))]).fragment ⟨10, 0⟩ =
          .ok (.statement e) := by
  obtain ⟨d, e, hd, he, hread, h⟩ := sourceText_determines_outline
    [.operate (.name "a"), .operate (.name "b"), .operate (.chain none .minus ⟨0, 0⟩ ⟨1, 0⟩),
      .operate (.name "c"), .operate (.chain none .times ⟨3, 0⟩ ⟨2, 0⟩), .operate (.name "x"),
      .operate (.expressionStatement ⟨5, 0⟩), .operate (.name "y"),
      .operate (.expressionStatement ⟨7, 0⟩),
      .operate (.ifStatement ⟨4, 0⟩ ⟨6, 0⟩ (some ⟨8, 0⟩))]
    [.operate (.name "a"), .operate (.name "b"), .operate (.chain none .minus ⟨0, 0⟩ ⟨1, 0⟩),
      .operate (.parenthesized ⟨2, 0⟩), .operate (.name "c"),
      .operate (.chain none .times ⟨4, 0⟩ ⟨3, 0⟩), .operate (.name "x"),
      .operate (.expressionStatement ⟨6, 0⟩), .operate (.name "y"),
      .operate (.expressionStatement ⟨8, 0⟩),
      .operate (.ifStatement ⟨5, 0⟩ ⟨7, 0⟩ (some ⟨9, 0⟩))]
    (h := ⟨9, 0⟩) (k := ⟨10, 0⟩) (a := .ifStatement) (b := .ifStatement) rfl rfl rfl rfl
  refine ⟨d, e, ?_, hd, he⟩
  obtain rfl : Statement.branch (.chain none .times (.name "c")
    (.chain none .minus (.name "a") (.name "b") []) []) (.expression (.name "x"))
      (some (.expression (.name "y"))) = d := by cases hd; rfl
  obtain rfl : Statement.branch (.chain none .times (.name "c")
    (.parenthesized (.chain none .minus (.name "a") (.name "b") [])) []) (.expression (.name "x"))
      (some (.expression (.name "y"))) = e := by cases he; rfl
  refine h rfl rfl rfl rfl ?_
  rw [sourceText_eq_ok hd, sourceText_eq_ok he]
  rfl

/-- A branch in the first branch of one with a second branch, and a branch in one without: both are
written `if (a) if (b) x; else y;`. -/
theorem equal_sourceText_of_different_outlines : ∃ d e : Statement,
    (empty.run [.operate (.name "a"), .operate (.name "b"), .operate (.name "x"),
      .operate (.name "y"), .operate (.expressionStatement ⟨2, 0⟩),
      .operate (.expressionStatement ⟨3, 0⟩), .operate (.ifStatement ⟨1, 0⟩ ⟨4, 0⟩ none),
      .operate (.ifStatement ⟨0, 0⟩ ⟨6, 0⟩ (some ⟨5, 0⟩))]).fragment ⟨7, 0⟩ = .ok (.statement d) ∧
    (empty.run [.operate (.name "a"), .operate (.name "b"), .operate (.name "x"),
      .operate (.name "y"), .operate (.expressionStatement ⟨2, 0⟩),
      .operate (.expressionStatement ⟨3, 0⟩), .operate (.ifStatement ⟨1, 0⟩ ⟨4, 0⟩ (some ⟨5, 0⟩)),
      .operate (.ifStatement ⟨0, 0⟩ ⟨6, 0⟩ none)]).fragment ⟨7, 0⟩ = .ok (.statement e) ∧
    d.untyped ∧ d.ordinary ∧ e.untyped ∧ e.ordinary ∧
    d.text 0 = "if (a) if (b) x; else y;".toList ∧ e.text 0 = "if (a) if (b) x; else y;".toList ∧
    d.outline ≠ e.outline := by
  refine ⟨_, _, rfl, rfl, rfl, rfl, rfl, rfl, rfl, rfl, fun h => ?_⟩
  exact absurd (congrArg Outline.attached h) (by decide)

end Forest

end SyntaxForest
