import SyntaxForest.Proofs.Lines
import SyntaxForest.Proofs.Literals
import SyntaxForest.Proofs.Outlines
import SyntaxForest.Proofs.Rereading

/-! # The layout of statements

The text of a statement has line feeds only where a new line was started: there is none in a string
literal, and none in a number or a name that is spelled on one line. So a statement inside `k` blocks
is written as it is outside, with every new line shifted by `4 * k` spaces (`Statement.text_add`).

* `Statement.text_block`: a block is its statements, each indented and on lines of its own, between
  braces;
* `Forest.InBlocks.contains`: a statement anywhere in a tree is part of the text of the tree;
* `layout_compositional`: what these say of the lines of source texts, in all forests that runs
  reach. -/

namespace SyntaxForest

/-! ### Expressions on one line -/

/-- Whether a number or a name has no line feed in it. -/
def Expression.isSpelledOnLine : Expression → Bool
  | number token => decide ('\n' ∉ token.toList)
  | name identifier => decide ('\n' ∉ identifier.toList)
  | _ => true

/-- Whether no number and no name in the expression has a line feed in it. -/
def Expression.fitsOnLine (e : Expression) : Bool := e.every isSpelledOnLine

/-- Whether no number and no name in the statement has a line feed in it. -/
def Statement.fitsOnLines (s : Statement) : Bool := s.every Expression.fitsOnLine

theorem not_mem_wrap {text : List Char} (h : '\n' ∉ text) (parentheses : Bool) :
    '\n' ∉ wrap parentheses text := by
  cases parentheses <;> simpa [wrap] using h

theorem Operator.not_mem_spaced (o : Operator) : '\n' ∉ o.spaced := by cases o <;> decide

open Expression in
mutual

/-- **The text of an expression is on one line**, whatever the strings in it. -/
theorem Expression.not_mem_text : ∀ e : Expression, e.fitsOnLine → '\n' ∉ e.text
  | .number token, he => by
    simpa [Expression.text, fitsOnLine, every, isSpelledOnLine] using he
  | .boolean value, _ => by cases value <;> decide
  | .string text, _ => by
    rw [Expression.text]
    exact Literal.not_mem_quote text.toList (by decide)
  | .null, _ => by decide
  | .name identifier, he => by
    simpa [Expression.text, fitsOnLine, every, isSpelledOnLine] using he
  | .parenthesized inner, he => by
    simp only [fitsOnLine, every, Bool.and_eq_true] at he
    exact not_mem_wrap (inner.not_mem_text he.2) true
  | .chain type? operator left right extended, he => by
    simp only [fitsOnLine, every, Bool.and_eq_true] at he
    have hleft := not_mem_wrap (left.not_mem_text he.1.1.2)
      (left.needsParentheses type? operator true)
    have hright := not_mem_wrap (right.not_mem_text he.1.2)
      (right.needsParentheses type? operator false)
    have hextended := not_mem_operandsText type? operator extended he.2
    simp [Expression.text, hleft, hright, hextended, operator.not_mem_spaced]
  | .conditional condition thenExpression elseExpression, he => by
    simp only [fitsOnLine, every, Bool.and_eq_true] at he
    have hcondition := not_mem_wrap (condition.not_mem_text he.1.1.2) condition.isConditional
    simp [Expression.text, hcondition, thenExpression.not_mem_text he.1.2,
      elseExpression.not_mem_text he.2]

theorem not_mem_operandsText (type? : Option TypeRef) (operator : Operator) :
    ∀ es : List Expression, everyOperand isSpelledOnLine es → '\n' ∉ operandsText type? operator es
  | [], _ => by simp [operandsText]
  | e :: rest, he => by
    simp only [everyOperand, Bool.and_eq_true] at he
    have hoperand := not_mem_wrap (e.not_mem_text he.1) (e.needsParentheses type? operator false)
    simp [operandsText, hoperand, not_mem_operandsText type? operator rest he.2,
      operator.not_mem_spaced]

end

/-! ### Statements inside blocks -/

open Statement Text in
mutual

/-- **A statement inside more blocks** is written as before, with its new lines shifted. -/
theorem Statement.text_add (k : Nat) : ∀ s : Statement, s.fitsOnLines → ∀ depth : Nat,
    s.text (depth + k) = shift k (s.text depth)
  | .expression value, hs, depth => by
    have hvalue := value.not_mem_text hs
    rw [text_expression, text_expression, shift_of_not_mem (by simp [hvalue])]
  | .ret none, _, depth => by
    rw [text_ret_none, text_ret_none, shift_of_not_mem (by decide)]
  | .ret (some value), hs, depth => by
    have hvalue := value.not_mem_text hs
    rw [text_ret_some, text_ret_some, shift_of_not_mem (by simp [hvalue])]
  | .block [], _, depth => by
    rw [text_block_nil, text_block_nil, shift_of_not_mem (by decide)]
  | .block (first :: rest), hs, depth => by
    have hlines := linesText_add k (first :: rest) hs (depth + 1)
    have hbrace : '\n' ∉ ['\x7d'] := by decide
    rw [Nat.add_right_comm] at hlines
    rw [text_block_cons, text_block_cons, hlines, shift_append, shift_append, shift_newLine,
      shift_cons (by decide), shift_of_not_mem hbrace]
  | .branch condition thenStatement elseStatement, hs, depth => by
    simp only [fitsOnLines, every, Bool.and_eq_true] at hs
    have hcondition := condition.not_mem_text hs.1.1
    have hline : '\n' ∉ "if (".toList ++ condition.text ++ ") ".toList := by simp [hcondition]
    rw [text_branch, text_branch, thenStatement.text_add k hs.1.2 depth,
      elseText_add k elseStatement hs.2 depth, shift_append, shift_append, shift_of_not_mem hline]

theorem linesText_add (k : Nat) : ∀ ss : List Statement, everyStatement Expression.fitsOnLine ss →
    ∀ depth : Nat, linesText (depth + k) ss = shift k (linesText depth ss)
  | [], _, _ => rfl
  | s :: rest, hs, depth => by
    simp only [everyStatement, Bool.and_eq_true] at hs
    rw [linesText, linesText, s.text_add k hs.1 depth, linesText_add k rest hs.2 depth,
      shift_append, shift_append, shift_newLine]

theorem elseText_add (k : Nat) : ∀ s? : Option Statement, everyElse Expression.fitsOnLine s? →
    ∀ depth : Nat, elseText (depth + k) s? = shift k (elseText depth s?)
  | none, _, _ => rfl
  | some s, hs, depth => by
    have helse : '\n' ∉ " else ".toList := by decide
    rw [elseText_some, elseText_some, s.text_add k hs depth, shift_append, shift_of_not_mem helse]

end

/-- **A block** is its statements, each indented and on lines of its own, between braces. -/
theorem Statement.text_block : ∀ ss : List Statement, (block ss).fitsOnLines →
    (block ss).text 0 = Text.inBraces (ss.map (Statement.text 0))
  | [], _ => rfl
  | s :: rest, hs => by
    have hlines : ∀ ss : List Statement, everyStatement Expression.fitsOnLine ss →
        linesText 1 ss = (ss.map (Statement.text 0)).flatMap fun text => '\n' :: Text.indent 4 text := by
      intro ss
      induction ss with
      | nil => intro _; rfl
      | cons s rest ih =>
        intro hs
        simp only [everyStatement, Bool.and_eq_true] at hs
        have hfirst : s.text 1 = Text.shift 1 (s.text 0) := s.text_add 1 hs.1 0
        have hindent : Text.indent 4 (s.text 0) =
          List.replicate 4 ' ' ++ Text.shift 1 (s.text 0) := Text.indent_eq 1 (s.text 0)
        rw [linesText, ih hs.2, hfirst, List.map_cons, List.flatMap_cons, hindent]
        rfl
    rw [text_block_cons, hlines (s :: rest) hs]
    simp [Text.inBraces, newLine]

/-! ### Source texts -/

theorem Except.forall₂_of_mapM {ε α β : Type} {k : α → Except ε β} : ∀ {xs : List α} {ys : List β},
    xs.mapM k = .ok ys → List.Forall₂ (fun x y => k x = .ok y) xs ys
  | [], _, h => by cases h; exact .nil
  | x :: xs, _, h => by
    rw [List.mapM_cons] at h
    obtain ⟨y, hy, h⟩ := bind_eq_ok.mp h
    obtain ⟨ys, hys, h⟩ := bind_eq_ok.mp h
    cases h
    exact .cons hy (forall₂_of_mapM hys)

theorem exists_mem_of_forall₂ {α β : Type} {R : α → β → Prop} {xs : List α} {ys : List β} {x : α}
    (h : List.Forall₂ R xs ys) (hx : x ∈ xs) : ∃ y ∈ ys, R x y := by
  induction h with
  | nil => simp at hx
  | cons hr _ ih =>
    rcases List.mem_cons.mp hx with rfl | hx
    · exact ⟨_, List.mem_cons_self, hr⟩
    · obtain ⟨y, hy, hr⟩ := ih hx
      exact ⟨y, List.mem_cons_of_mem _ hy, hr⟩

theorem everyStatement_iff {p : Expression → Bool} {ss : List Statement} :
    everyStatement p ss ↔ ∀ s ∈ ss, s.every p := by
  induction ss with
  | nil => simp [everyStatement]
  | cons s rest ih => simp [everyStatement, ih]

namespace Forest

variable {f : Forest} {h p c : Handle} {k n : Nat} {hs : List Handle} {s : Statement}

/-- `c` is in the tree of `h`, in `k` blocks of it: an element of a block is in one block more, and
a branch in as many as the branching statement. -/
inductive InBlocks (f : Forest) (h : Handle) : Nat → Handle → Prop where
  | root : InBlocks f h 0 h
  | element {k : Nat} {p c : Handle} {hs : List Handle} : InBlocks f h k p →
    f.payload p = .ok (.block hs) → c ∈ hs → InBlocks f h (k + 1) c
  | branch {k : Nat} {p c : Handle} {condition thenStatement elseStatement : Option Handle} :
    InBlocks f h k p → f.payload p = .ok (.ifStatement condition thenStatement elseStatement) →
    c ∈ thenStatement.toList ++ elseStatement.toList → InBlocks f h k c

theorem fragment_of_statementWithin (hf : f.WellFormed) (hn : n ≤ f.entries.size)
    (hs : f.statementWithin n h = .ok s) : f.fragment h = .ok (.statement s) := by
  obtain _ | n := n
  · cases hs
  obtain ⟨node, hnode, hread⟩ := Except.bind_eq_ok.mp hs
  obtain ⟨l, hl, rfl⟩ := node_eq_ok.mp hnode
  have hkind : f.kind h = .ok l.node.kind := kind_eq_ok.mpr ⟨l, hl, rfl⟩
  have hcategory : l.node.kind.category = .statement := by
    obtain ⟨⟨payload, type?, span?⟩, owner?⟩ := l
    cases payload with
    | expressionStatement | returnStatement | block | ifStatement => rfl
    | _ => cases hread
  obtain ⟨xs, hlisting⟩ := exists_listing_of_contains hf (contains_iff.mpr ⟨l, hl⟩)
  have hmore := (counterparts_id hlisting fun _ _ => rfl).statementWithin hf hlisting hn h
    hlisting.head_mem s hs
  refine Except.bind_eq_ok.mpr ⟨_, hkind, ?_⟩
  rw [hcategory]
  exact Except.bind_eq_ok.mpr ⟨s, hmore, rfl⟩

theorem exists_statementWithin_of_fragment (ht : f.fragment h = .ok (.statement s)) :
    ∃ n, n + 1 = f.entries.size ∧ f.statementWithin (n + 1) h = .ok s := by
  obtain ⟨a, ha, ht⟩ := Except.bind_eq_ok.mp ht
  obtain ⟨l, hl, rfl⟩ := kind_eq_ok.mp ha
  have hsize := index_lt (contains_iff.mpr ⟨l, hl⟩)
  refine ⟨f.entries.size - 1, by omega, ?_⟩
  rw [Nat.sub_add_cancel (by omega)]
  split at ht
  · obtain ⟨e, -, ht⟩ := Except.bind_eq_ok.mp ht
    cases ht
  · obtain ⟨s', hs, ht⟩ := Except.bind_eq_ok.mp ht
    cases ht
    exact hs

/-- **The tree of a block** has the trees of its statements. -/
theorem fragment_block (hf : f.WellFormed) (hp : f.payload p = .ok (.block hs))
    (ht : f.fragment p = .ok (.statement s)) : ∃ ss, s = .block ss ∧
      List.Forall₂ (fun c t => f.fragment c = .ok (.statement t)) hs ss := by
  obtain ⟨n, hn, hread⟩ := exists_statementWithin_of_fragment ht
  obtain ⟨l, hl, hpayload⟩ := payload_eq_ok.mp hp
  obtain ⟨node, hnode, hread⟩ := Except.bind_eq_ok.mp hread
  cases (node_eq_ok.mpr ⟨l, hl, rfl⟩ : f.node p = .ok l.node).symm.trans hnode
  rw [hpayload] at hread
  obtain ⟨ss, hss, hread⟩ := Except.bind_eq_ok.mp hread
  cases hread
  exact ⟨ss, rfl, (Except.forall₂_of_mapM hss).imp fun c t hc =>
    fragment_of_statementWithin hf (by omega) hc⟩

/-- **The tree of a branching statement** has the trees of its branches. -/
theorem fragment_branch (hf : f.WellFormed) {condition thenStatement elseStatement : Option Handle}
    (hp : f.payload p = .ok (.ifStatement condition thenStatement elseStatement))
    (ht : f.fragment p = .ok (.statement s)) (hc : c ∈ thenStatement.toList ++ elseStatement.toList) :
    ∃ e t u?, s = .branch e t u? ∧ ∃ d, f.fragment c = .ok (.statement d) ∧ (d = t ∨ u? = some d) := by
  obtain ⟨n, hn, hread⟩ := exists_statementWithin_of_fragment ht
  obtain ⟨l, hl, hpayload⟩ := payload_eq_ok.mp hp
  obtain ⟨node, hnode, hread⟩ := Except.bind_eq_ok.mp hread
  cases (node_eq_ok.mpr ⟨l, hl, rfl⟩ : f.node p = .ok l.node).symm.trans hnode
  rw [hpayload] at hread
  obtain ⟨e, -, hread⟩ := Except.bind_eq_ok.mp hread
  obtain ⟨b, hb, hread⟩ := Except.bind_eq_ok.mp hread
  obtain ⟨t, ht, hread⟩ := Except.bind_eq_ok.mp hread
  obtain ⟨u?, hu, hread⟩ := Except.bind_eq_ok.mp hread
  cases hread
  refine ⟨e, t, u?, rfl, ?_⟩
  rcases List.mem_append.mp hc with hc | hc
  · obtain ⟨l', hl', hslot⟩ := slot_eq_ok.mp (slot_of_required hb)
    cases hl.symm.trans hl'
    rw [hpayload] at hslot
    obtain rfl : thenStatement = some b := Option.some.inj hslot
    obtain rfl : c = b := by simpa using hc
    exact ⟨t, fragment_of_statementWithin hf (by omega) ht, .inl rfl⟩
  · obtain rfl : elseStatement = some c := by simpa using hc
    rw [Option.mapM_some] at hu
    rcases hsecond : f.statementWithin n c with _ | u <;> rw [hsecond] at hu <;> cases hu
    exact ⟨u, fragment_of_statementWithin hf (by omega) hsecond, .inr rfl⟩

theorem encloses_of_mem_block (hf : f.WellFormed) {outer : List Char}
    (hp : f.payload p = .ok (.block hs)) (hc : c ∈ hs) (ht : f.fragment p = .ok (.statement s))
    (hfits : s.fitsOnLines) (hpart : Text.Contains k outer (s.text 0)) :
    ∃ t, f.fragment c = .ok (.statement t) ∧ t.fitsOnLines ∧
      Text.Encloses (k + 1) outer (t.text 0) := by
  obtain ⟨ss, rfl, htrees⟩ := fragment_block hf hp ht
  obtain ⟨d, hd, hcd⟩ := exists_mem_of_forall₂ htrees hc
  rw [Statement.text_block ss hfits] at hpart
  have hinside := Text.encloses_inBraces (List.mem_map_of_mem (f := Statement.text 0) hd)
  exact ⟨d, hcd, everyStatement_iff.mp hfits d hd, hpart.encloses hinside⟩

/-- **A statement in blocks** is part of the text around it, with its new lines shifted. -/
theorem InBlocks.contains (hf : f.WellFormed) (hc : f.InBlocks h k c)
    (hh : f.fragment h = .ok (.statement s)) (hs : s.fitsOnLines) :
    ∃ t, f.fragment c = .ok (.statement t) ∧ t.fitsOnLines ∧
      Text.Contains k (s.text 0) (t.text 0) := by
  induction hc with
  | root => exact ⟨s, hh, hs, .refl _⟩
  | element _ hp hc ih =>
    obtain ⟨t, ht, hfits, hpart⟩ := ih
    obtain ⟨d, hd, hdfits, hinside⟩ := encloses_of_mem_block hf hp hc ht hfits hpart
    exact ⟨d, hd, hdfits, hinside.contains⟩
  | branch _ hp hc ih =>
    obtain ⟨t, ht, hfits, hpart⟩ := ih
    obtain ⟨e, t, u?, rfl, d, hd, hdt⟩ := fragment_branch hf hp ht hc
    simp only [Statement.fitsOnLines, Statement.every, Bool.and_eq_true] at hfits
    have hinside : d.fitsOnLines ∧ Text.Contains 0 ((Statement.branch e t u?).text 0) (d.text 0) := by
      rcases hdt with rfl | rfl
      · refine ⟨hfits.1.2, "if (".toList ++ e.text ++ ") ".toList, elseText 0 u?, ?_⟩
        rw [Statement.text_branch, Text.shift_zero]
      · refine ⟨hfits.2, "if (".toList ++ e.text ++ ") ".toList ++ t.text 0 ++ " else ".toList, [], ?_⟩
        rw [Statement.text_branch, Statement.elseText_some, Text.shift_zero]
        simp only [List.append_assoc, List.append_nil]
    exact ⟨d, hd, hinside.1, hpart.trans hinside.2⟩

/-- **The layout of statements is compositional**, in every forest that a run reaches. If the numbers
and names in a statement have no line feeds, whatever its strings have, then a block is written as
braces around the texts of its statements, each with four spaces in front of every line and on lines
of its own, and an empty block as the two braces. So a statement in `k` blocks is part of the text with
four times `k` spaces more after each of its line feeds, and the lines of an element of a block that
is in `k` blocks are, indented by four spaces more than that, lines of the text. -/
theorem layout_compositional (steps : List Step) {h : Handle} {a : Kind}
    (ha : (empty.run steps).kind h = .ok a) (ha' : a.isStatement) :
    ∃ s text, (empty.run steps).fragment h = .ok (.statement s) ∧
      (empty.run steps).sourceText h = .ok text ∧
      (s.fitsOnLines →
        (∀ hs, (empty.run steps).payload h = .ok (.block hs) → ∃ texts,
          List.Forall₂ (fun c text => (empty.run steps).sourceText c = .ok text) hs texts ∧
          text.toList = Text.inBraces (texts.map String.toList)) ∧
        (∀ k c, (empty.run steps).InBlocks h k c → ∃ inner,
          (empty.run steps).sourceText c = .ok inner ∧
          Text.Contains k text.toList inner.toList) ∧
        ∀ k p hs, (empty.run steps).InBlocks h k p → (empty.run steps).payload p = .ok (.block hs) →
          ∀ c ∈ hs, ∃ inner before after, (empty.run steps).sourceText c = .ok inner ∧
            Text.lines text.toList = before ++
              (Text.lines inner.toList).map (List.replicate (4 * (k + 1)) ' ' ++ ·) ++ after) := by
  have hf := wellFormed_run steps wellFormed_empty
  obtain ⟨s, hs⟩ := exists_fragment_statement hf ha ha'
  refine ⟨s, _, hs, sourceText_eq_ok hs, fun hfits => ⟨fun hs' hh => ?_, fun k c hc => ?_,
    fun k p hs' hp hpayload c hc => ?_⟩⟩
  · obtain ⟨ss, rfl, htrees⟩ := fragment_block hf hh hs
    refine ⟨ss.map fun s => String.ofList (s.text 0), ?_, ?_⟩
    · rw [List.forall₂_map_right_iff]
      exact htrees.imp fun c t hc => sourceText_eq_ok hc
    · rw [String.toList_ofList, Fragment.text, Statement.text_block ss hfits, List.map_map]
      simp [Function.comp_def]
  · obtain ⟨t, ht, -, hpart⟩ := hc.contains hf hs hfits
    exact ⟨_, sourceText_eq_ok ht, by simpa [Fragment.text] using hpart⟩
  · obtain ⟨t, ht, hfits, hpart⟩ := hp.contains hf hs hfits
    obtain ⟨d, hd, -, hinside⟩ := encloses_of_mem_block hf hpayload hc ht hfits hpart
    obtain ⟨before, after, hlines⟩ := hinside.lines_eq
    exact ⟨_, before, after, sourceText_eq_ok hd, by simpa [Fragment.text] using hlines⟩

/-- A string with a line feed, two blocks deep. -/
theorem layout_compositional_string : ∃ f text before after,
    f = empty.run [.operate (.string "\n"), .operate (.expressionStatement ⟨0, 0⟩),
      .operate (.block [⟨1, 0⟩]), .operate (.returnStatement none),
      .operate (.block [⟨2, 0⟩, ⟨3, 0⟩])] ∧
    f.sourceText ⟨1, 0⟩ = .ok "\"\\n\";" ∧ f.sourceText ⟨4, 0⟩ = .ok text ∧
    Text.lines text.toList = before ++ ["        \"\\n\";".toList] ++ after := by
  obtain ⟨s, text, hs, htext, hlayout⟩ := layout_compositional [.operate (.string "\n"),
    .operate (.expressionStatement ⟨0, 0⟩), .operate (.block [⟨1, 0⟩]),
    .operate (.returnStatement none), .operate (.block [⟨2, 0⟩, ⟨3, 0⟩])]
    (h := ⟨4, 0⟩) (a := .block) rfl rfl
  obtain rfl : Statement.block [.block [.expression (.string "\n")], .ret none] = s := by
    cases hs; rfl
  obtain ⟨-, -, hlines⟩ := hlayout rfl
  obtain ⟨inner, before, after, hinner, hlines⟩ := hlines 1 ⟨2, 0⟩ [⟨1, 0⟩]
    (.element .root rfl List.mem_cons_self) rfl ⟨1, 0⟩ List.mem_cons_self
  obtain rfl : "\"\\n\";" = inner := by cases hinner; rfl
  exact ⟨_, text, before, after, rfl, hinner, htext, hlines⟩

end Forest

end SyntaxForest
