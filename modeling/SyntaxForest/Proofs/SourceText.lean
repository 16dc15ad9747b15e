import SyntaxForest.Proofs.Parsing
import SyntaxForest.Proofs.Run

/-! # Source texts

Every live node of a well-formed forest has a tree below it, of its own category, and a source text
(`exists_fragment`, `category_fragment`). In every forest that a run reaches, the source text of an
expression without types reads as the grouping of its tree, so it determines the grouping
(`sourceText_determines_grouping`). -/

namespace SyntaxForest

/-! ### Results -/

theorem Except.exists_bind_eq_ok {ε α β : Type} {x : Except ε α} {k : α → Except ε β}
    (hx : ∃ a, x = .ok a) (hk : ∀ a, x = .ok a → ∃ b, k a = .ok b) : ∃ b, (x >>= k) = .ok b := by
  obtain ⟨a, ha⟩ := hx
  obtain ⟨b, hb⟩ := hk a ha
  exact ⟨b, bind_eq_ok.mpr ⟨a, ha, hb⟩⟩

theorem Except.exists_mapM_eq_ok {ε α β : Type} {k : α → Except ε β} : ∀ xs : List α,
    (∀ x ∈ xs, ∃ y, k x = .ok y) → ∃ ys, xs.mapM k = .ok ys
  | [], _ => ⟨[], rfl⟩
  | x :: xs, h => by
    rw [List.mapM_cons]
    exact exists_bind_eq_ok (h x (by simp)) fun _ _ =>
      exists_bind_eq_ok (exists_mapM_eq_ok xs fun z hz => h z (by simp [hz])) fun _ _ => ⟨_, rfl⟩

theorem Except.exists_optionMapM_eq_ok {ε α β : Type} {k : α → Except ε β} (x? : Option α)
    (h : ∀ x, x? = some x → ∃ y, k x = .ok y) : ∃ y?, x?.mapM k = .ok y? := by
  cases x? with
  | none => exact ⟨none, rfl⟩
  | some x =>
    obtain ⟨y, hy⟩ := h x rfl
    exact ⟨some y, by rw [Option.mapM_some, hy]; rfl⟩

/-- The category of a tree. -/
def Fragment.category : Fragment → Category
  | expression _ => .expression
  | statement _ => .statement

namespace Forest

variable {f : Forest} {h : Handle} {n : Nat} {category : Category}

/-! ### The tree below a node -/

/-- A live node of the category, at most `n` levels above the deepest nodes there can be. -/
structure Within (f : Forest) (n : Nat) (category : Category) (h : Handle) : Prop where
  live : ∃ l, f.live? h = some l ∧ l.node.kind.category = category
  depth : f.entries.size < (f.lineage h).length + n

theorem Within.not_zero (hf : f.WellFormed) : ¬ f.Within 0 category h := by
  rintro ⟨⟨l, hl, -⟩, hdepth⟩
  have := length_lineage_le hf (contains_iff.mpr ⟨l, hl⟩)
  omega

theorem Within.child (hf : f.WellFormed) (hw : f.Within (n + 1) category h) {l : LiveNode}
    (hl : f.live? h = some l) (field : Field) {c : Handle} (hc : c ∈ l.node.payload.content field) :
    f.Within n field.category c := by
  have ho := hf.owns_of_content hl hc
  obtain ⟨m, hm⟩ := owns_iff.mp ho
  have hlength := length_lineage_of_owns hf ho
  have hdepth := hw.depth
  exact ⟨⟨_, hm, hf.ownership.category hl hc hm⟩, by omega⟩

theorem Within.required (hf : f.WellFormed) (hw : f.Within (n + 1) category h) {l : LiveNode}
    (hl : f.live? h = some l) (field : Field) {o : Option Handle}
    (hslot : l.node.payload.slot? field = some o) (hopt : l.node.payload.isOptional field = false)
    {α : Type} {read : Handle → Except TreeError α}
    (hread : ∀ c, f.Within n field.category c → ∃ a, read c = .ok a) :
    ∃ a, (f.required h field >>= read) = .ok a := by
  obtain ⟨c, rfl, hrequired⟩ := hf.exists_required hl field hslot hopt
  obtain ⟨a, ha⟩ := hread c (hw.child hf hl field (Payload.mem_content_of_slot? hslot))
  exact ⟨a, Except.bind_eq_ok.mpr ⟨c, hrequired, ha⟩⟩

/-- An expression can be read off with as many levels as there may be below it. -/
theorem exists_expressionWithin (hf : f.WellFormed) : ∀ {n : Nat} {h : Handle},
    f.Within n .expression h → ∃ e, f.expressionWithin n h = .ok e
  | 0, _, hw => absurd hw (Within.not_zero hf)
  | n + 1, h, hw => by
    obtain ⟨⟨⟨p, type?, span?⟩, owner?⟩, hl, hcategory⟩ := hw.live
    have hchild (field : Field) {o : Option Handle} (hslot : p.slot? field = some o)
        (hopt : p.isOptional field = false) (hfield : field.category = .expression) :=
      hw.required hf hl field hslot hopt fun c hc => exists_expressionWithin hf (hfield ▸ hc)
    have hnode : f.node h = .ok ⟨p, type?, span?⟩ := node_eq_ok.mpr ⟨_, hl, rfl⟩
    refine Except.exists_bind_eq_ok ⟨_, hnode⟩ fun node hn => ?_
    cases hnode.symm.trans hn
    cases p with
    | parenthesized e =>
      exact Except.exists_bind_eq_ok (hchild .expression rfl rfl rfl) fun _ _ => ⟨_, rfl⟩
    | chain o left right xs =>
      have hxs := Except.exists_mapM_eq_ok xs fun c hc =>
        exists_expressionWithin hf (hw.child hf hl .extendedOperands hc)
      exact Except.exists_bind_eq_ok (hchild .leftOperand rfl rfl rfl) fun _ _ =>
        Except.exists_bind_eq_ok (hchild .rightOperand rfl rfl rfl) fun _ _ =>
          Except.exists_bind_eq_ok hxs fun _ _ => ⟨_, rfl⟩
    | conditional =>
      exact Except.exists_bind_eq_ok (hchild .expression rfl rfl rfl) fun _ _ =>
        Except.exists_bind_eq_ok (hchild .thenExpression rfl rfl rfl) fun _ _ =>
          Except.exists_bind_eq_ok (hchild .elseExpression rfl rfl rfl) fun _ _ => ⟨_, rfl⟩
    | expressionStatement | returnStatement | block | ifStatement => cases hcategory
    | _ => exact ⟨_, rfl⟩

theorem exists_statementWithin (hf : f.WellFormed) : ∀ {n : Nat} {h : Handle},
    f.Within n .statement h → ∃ s, f.statementWithin n h = .ok s
  | 0, _, hw => absurd hw (Within.not_zero hf)
  | n + 1, h, hw => by
    obtain ⟨⟨⟨p, type?, span?⟩, owner?⟩, hl, hcategory⟩ := hw.live
    have hexpression (field : Field) {o : Option Handle} (hslot : p.slot? field = some o)
        (hopt : p.isOptional field = false) (hfield : field.category = .expression) :=
      hw.required hf hl field hslot hopt fun c hc => exists_expressionWithin hf (hfield ▸ hc)
    have hnode : f.node h = .ok ⟨p, type?, span?⟩ := node_eq_ok.mpr ⟨_, hl, rfl⟩
    refine Except.exists_bind_eq_ok ⟨_, hnode⟩ fun node hn => ?_
    cases hnode.symm.trans hn
    cases p with
    | expressionStatement e =>
      exact Except.exists_bind_eq_ok (hexpression .expression rfl rfl rfl) fun _ _ => ⟨_, rfl⟩
    | returnStatement value =>
      have hvalue := Except.exists_optionMapM_eq_ok value fun c hc =>
        exists_expressionWithin hf
          (hw.child hf hl .expression (Payload.mem_content_of_slot? (congrArg some hc)))
      exact Except.exists_bind_eq_ok hvalue fun _ _ => ⟨_, rfl⟩
    | block statements =>
      have hstatements := Except.exists_mapM_eq_ok statements fun c hc =>
        exists_statementWithin hf (hw.child hf hl .statements hc)
      exact Except.exists_bind_eq_ok hstatements fun _ _ => ⟨_, rfl⟩
    | ifStatement condition thenStatement elseStatement =>
      have helse := Except.exists_optionMapM_eq_ok elseStatement fun c hc =>
        exists_statementWithin hf
          (hw.child hf hl .elseStatement (Payload.mem_content_of_slot? (congrArg some hc)))
      -- the slot is looked up in one step and its tree read in the next
      obtain ⟨s, hs⟩ := hw.required hf hl .thenStatement rfl rfl fun c hc =>
        exists_statementWithin hf hc
      obtain ⟨c, hc, hs⟩ := Except.bind_eq_ok.mp hs
      refine Except.exists_bind_eq_ok (hexpression .expression rfl rfl rfl) fun _ _ => ?_
      refine Except.exists_bind_eq_ok ⟨c, hc⟩ fun c' hc' => ?_
      cases hc.symm.trans hc'
      exact Except.exists_bind_eq_ok ⟨s, hs⟩ fun _ _ =>
        Except.exists_bind_eq_ok helse fun _ _ => ⟨_, rfl⟩
    | _ => cases hcategory

theorem within_of_kind (hf : f.WellFormed) {a : Kind} (hh : f.kind h = .ok a) :
    f.Within f.entries.size a.category h := by
  obtain ⟨l, hl, rfl⟩ := kind_eq_ok.mp hh
  have hpos := length_lineage_pos hf (contains_iff.mpr ⟨l, hl⟩)
  exact ⟨⟨l, hl, rfl⟩, Nat.lt_add_of_pos_left hpos⟩

/-- **Every live node has a tree below it.** -/
theorem exists_fragment (hf : f.WellFormed) {a : Kind} (hh : f.kind h = .ok a) :
    ∃ t, f.fragment h = .ok t := by
  have hw := within_of_kind hf hh
  refine Except.exists_bind_eq_ok ⟨a, hh⟩ fun a' ha' => ?_
  cases hh.symm.trans ha'
  cases hc : a.category with
  | expression =>
    rw [hc] at hw
    exact Except.exists_bind_eq_ok (exists_expressionWithin hf hw) fun _ _ => ⟨_, rfl⟩
  | statement =>
    rw [hc] at hw
    exact Except.exists_bind_eq_ok (exists_statementWithin hf hw) fun _ _ => ⟨_, rfl⟩

theorem category_fragment {a : Kind} (hh : f.kind h = .ok a) {t : Fragment}
    (ht : f.fragment h = .ok t) : t.category = a.category := by
  obtain ⟨a', ha', ht⟩ := Except.bind_eq_ok.mp ht
  cases hh.symm.trans ha'
  cases hc : a.category <;>
    · rw [hc] at ht
      obtain ⟨x, -, hx⟩ := Except.bind_eq_ok.mp ht
      cases hx
      rfl

theorem exists_fragment_expression (hf : f.WellFormed) {a : Kind} (hh : f.kind h = .ok a)
    (ha : a.isExpression) : ∃ e, f.fragment h = .ok (.expression e) := by
  obtain ⟨t, ht⟩ := exists_fragment hf hh
  have hcategory : t.category = .expression :=
    (category_fragment hh ht).trans (of_decide_eq_true ha)
  cases t with
  | expression e => exact ⟨e, ht⟩
  | statement => cases hcategory

theorem exists_fragment_statement (hf : f.WellFormed) {a : Kind} (hh : f.kind h = .ok a)
    (ha : a.isStatement) : ∃ s, f.fragment h = .ok (.statement s) := by
  obtain ⟨t, ht⟩ := exists_fragment hf hh
  have hcategory : t.category = .statement :=
    (category_fragment hh ht).trans (of_decide_eq_true ha)
  cases t with
  | expression => cases hcategory
  | statement s => exact ⟨s, ht⟩

theorem sourceText_eq_ok {t : Fragment} (h' : f.fragment h = .ok t) :
    f.sourceText h = .ok (String.ofList t.text) :=
  Except.bind_eq_ok.mpr ⟨t, h', rfl⟩

/-! ### Texts and groupings -/

/-- **The source text of an expression determines how it groups**, in all forests that runs reach: if
no chain has a type, and numbers and names are ordinary, the text reads as the grouping of the tree,
and trees with the same text have the same grouping. -/
theorem sourceText_determines_grouping (steps₁ steps₂ : List Step) {h k : Handle} {a b : Kind}
    (ha : (empty.run steps₁).kind h = .ok a) (ha' : a.isExpression)
    (hb : (empty.run steps₂).kind k = .ok b) (hb' : b.isExpression) :
    ∃ d e, (empty.run steps₁).fragment h = .ok (.expression d) ∧
      (empty.run steps₂).fragment k = .ok (.expression e) ∧
      (d.untyped → d.ordinary → ∃ text, (empty.run steps₁).sourceText h = .ok text ∧
        Grouping.ofText? text = some d.grouping) ∧
      (d.untyped → d.ordinary → e.untyped → e.ordinary →
        (empty.run steps₁).sourceText h = (empty.run steps₂).sourceText k →
          d.grouping = e.grouping) := by
  obtain ⟨d, hd⟩ := exists_fragment_expression (wellFormed_run steps₁ wellFormed_empty) ha ha'
  obtain ⟨e, he⟩ := exists_fragment_expression (wellFormed_run steps₂ wellFormed_empty) hb hb'
  have hdtext := sourceText_eq_ok hd
  have hetext := sourceText_eq_ok he
  refine ⟨d, e, hd, he, fun ht ho => ⟨_, hdtext, Expression.ofText?_text ht ho⟩, ?_⟩
  intro hdt hdo het heo htext
  rw [hdtext, hetext] at htext
  exact Expression.grouping_eq_of_text_eq hdt hdo het heo
    (String.ofList_injective (Except.ok.inj htext))

/-- `c * (a - b)`, with and without a node for the parentheses. -/
theorem sourceText_determines_grouping_parentheses :
    ∃ d e : Expression, d.grouping = e.grouping ∧
      (empty.run [.operate (.name "a"), .operate (.name "b"),
        .operate (.chain none .minus ⟨0, 0⟩ ⟨1, 0⟩), .operate (.name "c"),
        .operate (.chain none .times ⟨3, 0⟩ ⟨2, 0⟩)]).fragment ⟨4, 0⟩ = .ok (.expression d) ∧
      (empty.run [.operate (.name "a"), .operate (.name "b"),
        .operate (.chain none .minus ⟨0, 0⟩ ⟨1, 0⟩), .operate (.parenthesized ⟨2, 0⟩),
        .operate (.name "c"), .operate (.chain none .times ⟨4, 0⟩ ⟨3, 0⟩)]).fragment ⟨5, 0⟩ =
          .ok (.expression e) := by
  obtain ⟨d, e, hd, he, -, h⟩ := sourceText_determines_grouping
    [.operate (.name "a"), .operate (.name "b"), .operate (.chain none .minus ⟨0, 0⟩ ⟨1, 0⟩),
      .operate (.name "c"), .operate (.chain none .times ⟨3, 0⟩ ⟨2, 0⟩)]
    [.operate (.name "a"), .operate (.name "b"), .operate (.chain none .minus ⟨0, 0⟩ ⟨1, 0⟩),
      .operate (.parenthesized ⟨2, 0⟩), .operate (.name "c"),
      .operate (.chain none .times ⟨4, 0⟩ ⟨3, 0⟩)]
    (h := ⟨4, 0⟩) (k := ⟨5, 0⟩) (a := .chain) (b := .chain) rfl rfl rfl rfl
  refine ⟨d, e, ?_, hd, he⟩
  obtain rfl : Expression.chain none .times (.name "c")
    (.chain none .minus (.name "a") (.name "b") []) [] = d := by cases hd; rfl
  obtain rfl : Expression.chain none .times (.name "c")
    (.parenthesized (.chain none .minus (.name "a") (.name "b") [])) [] = e := by cases he; rfl
  refine h rfl rfl rfl rfl ?_
  rw [sourceText_eq_ok hd, sourceText_eq_ok he]
  rfl

end Forest

end SyntaxForest
