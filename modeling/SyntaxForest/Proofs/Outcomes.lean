import SyntaxForest.Proofs.Converting
import SyntaxForest.Proofs.Counterparts
import SyntaxForest.Proofs.Mirroring
import SyntaxForest.Proofs.Stages

/-! # The outcome of a conversion

A step of a conversion has the outcome `faults`, `Post` if it fails with the first of the faults,
and succeeds with `Post` if there are none (`Outcome`). The faults of steps that follow one another
are appended (`Outcome.bind`), so the outcome of the conversion of a node is read off its stages:
the fault of its depth, that of its operator, those of its children one after another, and no fault
when the node is built at last. By induction on the source tree the conversion has the faults of the
tree in the order of a walk, and gains a tree that mirrors the source tree if there are none
(`outcome_convertAt`). -/

namespace SyntaxForest

open Forest Conversion

/-! ### Outcomes -/

namespace Conversion

variable {α β : Type} {x : Conversion α} {k : α → Conversion β} {w w' : Workspace}
  {es es' : List ConversionError} {Post Post₁ : α → Workspace → Prop}
  {Post' : β → Workspace → Prop}

/-- **The outcome of a step**: it fails with the first fault, or there are none and it succeeds with
the given postcondition. -/
def Outcome (x : Conversion α) (w : Workspace) (faults : List ConversionError)
    (Post : α → Workspace → Prop) : Prop :=
  match x w with
  | .ok a w' => faults = [] ∧ Post a w'
  | .error e _ => faults.head? = some e

namespace Outcome

theorem of_eq_ok {a : α} (h : x w = .ok a w') (hp : Post a w') : x.Outcome w [] Post := by
  rw [Outcome, h]; exact ⟨rfl, hp⟩

theorem of_eq_error {e : ConversionError} (h : x w = .error e w') : x.Outcome w (e :: es) Post := by
  rw [Outcome, h]; rfl

theorem pure {a : α} (hp : Post a w) : (Pure.pure a : Conversion α).Outcome w [] Post :=
  of_eq_ok rfl hp

theorem throw (e : ConversionError) :
    (MonadExcept.throw e : Conversion α).Outcome w (e :: es) Post := of_eq_error rfl

theorem of_ok (hx : x.Outcome w es Post) {a : α} (h : x w = .ok a w') : es = [] ∧ Post a w' := by
  rw [Outcome, h] at hx; exact hx

theorem of_error (hx : x.Outcome w es Post) {e : ConversionError} (h : x w = .error e w') :
    es.head? = some e := by
  rw [Outcome, h] at hx; exact hx

theorem mono (hx : x.Outcome w es Post) (hp : ∀ a w', Post a w' → Post₁ a w') :
    x.Outcome w es Post₁ := by
  unfold Outcome at hx ⊢
  split at hx
  · exact ⟨hx.1, hp _ _ hx.2⟩
  · exact hx

/-- **Steps one after another**: the faults of the second come after those of the first. -/
theorem bind (hx : x.Outcome w es Post) (hk : ∀ a w', Post a w' → (k a).Outcome w' es' Post') :
    (x >>= k).Outcome w (es ++ es') Post' := by
  rcases h : x w with ⟨a, w'⟩ | ⟨e, w'⟩
  · obtain ⟨rfl, hp⟩ := hx.of_ok h
    have hbind : (x >>= k) w = k a w' := by simp only [Bind.bind, EStateM.bind, h]
    rw [List.nil_append, Outcome, hbind]
    exact hk a w' hp
  · have hbind : (x >>= k) w = .error e w' := by simp only [Bind.bind, EStateM.bind, h]
    rw [Outcome, hbind, List.head?_append, hx.of_error h]
    rfl

theorem orFree {before : List Handle} (hx : x.Outcome w es Post) :
    (orFree before x).Outcome w es Post := by
  rcases h : x w with ⟨a, w'⟩ | ⟨e, w'⟩
  · obtain ⟨rfl, hp⟩ := hx.of_ok h
    exact of_eq_ok (by simp only [Conversion.orFree, h]) hp
  · have hrun : Conversion.orFree before x w =
        .error e ⟨w'.forest.freeSubtrees before, w'.types⟩ := by
      simp only [Conversion.orFree, h]
    rw [Outcome, hrun]
    exact hx.of_error h

theorem and_sound (hx : x.Outcome w es Post) {roots : α → List Handle}
    (hs : x.Sound w.forest w.forest roots) : x.Outcome w es fun a w' =>
      Post a w' ∧ w'.forest.WellFormed ∧ w.forest.Grows w'.forest (roots a) := by
  rcases h : x w with ⟨a, w'⟩ | ⟨e, w'⟩
  · obtain ⟨rfl, hp⟩ := hx.of_ok h
    exact of_eq_ok h ⟨hp, hs.accepted h⟩
  · rw [Outcome, h]
    exact hx.of_error h

end Outcome

end Conversion

/-! ### What a conversion gains -/

/-- **A conversion gains trees** that mirror source trees: the forest grows by them, and the table
of types only grows. -/
structure Workspace.Gains (w : Workspace) (options : ConversionOptions) (ss : List SourceTree)
    (hs : List Handle) (w' : Workspace) : Prop where
  wellFormed : w'.forest.WellFormed
  grows : w.forest.Grows w'.forest hs
  types : w.types.Extends w'.types
  mirrors : w'.Mirrors options ss hs

namespace Workspace.Gains

variable {w w' w'' : Workspace} {options : ConversionOptions} {ss ss' : List SourceTree}
  {hs hs' : List Handle}

theorem refl (hf : w.forest.WellFormed) : w.Gains options [] [] w :=
  ⟨hf, .refl _, .refl _, .nil⟩

theorem trans (h : w.Gains options ss hs w') (h' : w'.Gains options ss' hs' w'') :
    w.Gains options (ss ++ ss') (hs ++ hs') w'' where
  wellFormed := h'.wellFormed
  grows := h.grows.trans h'.grows
  types := h.types.trans h'.types
  mirrors := (h.mirrors.mono h'.grows.keepsNodes h'.types).append h'.mirrors

end Workspace.Gains

variable {options : ConversionOptions} {w : Workspace} {f : Forest} {types : TypeTable}
  {s : SourceTree} {h : Handle} {cs : List Handle} {p : Payload}

/-! ### The stages of a node -/

theorem outcome_operator (info : SourceInfo) (symbol : String) (w : Workspace) :
    (operator info symbol).Outcome w
      (if ∃ o ∈ Operator.all, o.symbol = symbol then []
        else [.unmappedOperator ⟨symbol⟩ info.span?])
      fun o w' => w' = w ∧ o.symbol = symbol := by
  split_ifs with hs
  · obtain ⟨o, -, rfl⟩ := hs
    have hrun : operator info o.symbol = Pure.pure o := by
      simp only [Conversion.operator, Operator.ofSymbol_symbol]
    rw [hrun]
    exact .pure ⟨rfl, rfl⟩
  · have hfind : Operator.ofSymbol symbol = .error ⟨symbol⟩ := by
      have hnone : Operator.all.find? (fun o => o.symbol == symbol) = none :=
        List.find?_eq_none.mpr fun o ho => by simpa using fun h => hs ⟨o, ho, h⟩
      rw [Operator.ofSymbol, hnone]
    have hrun : operator info symbol =
        MonadExcept.throw (.unmappedOperator ⟨symbol⟩ info.span?) := by
      simp only [Conversion.operator, hfind]
    rw [hrun]
    exact .throw _

/-- A chain has a payload over its children if its symbol is that of an operator; every other source
node has one. -/
theorem SourceTree.outcome_prepare (s : SourceTree) (w : Workspace) :
    s.prepare.Outcome w s.unmapped?.toList fun payload w' => w' = w ∧
      ∀ cs : List Handle, cs.length = s.positions.length → s.PayloadOver cs (payload cs) := by
  cases s with
  | number | boolean | string | null | name =>
    refine .pure ⟨rfl, fun cs hcs => ?_⟩
    obtain rfl := List.length_eq_zero_iff.mp hcs
    constructor
  | parenthesized | expressionStatement =>
    refine .pure ⟨rfl, fun cs hcs => ?_⟩
    obtain ⟨e, rfl⟩ := List.length_eq_one_iff.mp hcs
    constructor
  | chain info symbol left right extended =>
    have hfaults : (chain info symbol left right extended).unmapped?.toList =
        (if ∃ o ∈ Operator.all, o.symbol = symbol then []
          else [.unmappedOperator ⟨symbol⟩ info.span?]) ++ [] := by
      simp only [unmapped?, symbol?]
      split_ifs <;> rfl
    rw [hfaults]
    refine (outcome_operator info symbol w).bind fun o w' ho => .pure ⟨ho.1, fun cs hcs => ?_⟩
    obtain ⟨l, r, xs, rfl⟩ : ∃ l r xs, cs = l :: r :: xs := by
      match cs, hcs with
      | l :: r :: xs, _ => exact ⟨l, r, xs, rfl⟩
    refine .chain (fun o' => ?_) (by simpa [positions] using hcs)
    rw [← ho.2]
    exact ⟨Operator.symbol_injective, congrArg _⟩
  | conditional =>
    refine .pure ⟨rfl, fun cs hcs => ?_⟩
    obtain ⟨c, t, e, rfl⟩ := List.length_eq_three.mp hcs
    constructor
  | returnStatement _ e =>
    refine .pure ⟨rfl, fun cs hcs => ?_⟩
    cases e with
    | none =>
      obtain rfl := List.length_eq_zero_iff.mp hcs
      exact .returnNothing
    | some e =>
      obtain ⟨e, rfl⟩ := List.length_eq_one_iff.mp hcs
      exact .returnValue
  | block =>
    exact .pure ⟨rfl, fun cs hcs => .block (by simpa [positions] using hcs)⟩
  | ifStatement _ _ _ e =>
    refine .pure ⟨rfl, fun cs hcs => ?_⟩
    cases e with
    | none =>
      obtain ⟨c, t, rfl⟩ := List.length_eq_two.mp hcs
      exact .ifThen
    | some e =>
      obtain ⟨c, t, e, rfl⟩ := List.length_eq_three.mp hcs
      exact .ifThenElse

theorem outcome_expect (expected : Category) {n : Node}
    (hl : w.forest.live? h = some ⟨n, none⟩) (hn : n.kind = s.kind) :
    (expect expected s.info h).Outcome w (s.misplaced? expected).toList fun h' w' =>
      h' = h ∧ w' = w ∧ s.kind.category = expected := by
  unfold SourceTree.misplaced?
  split_ifs with hc
  · exact .of_eq_ok (expect_eq_ok hl (hn ▸ hc)) ⟨rfl, rfl, hc⟩
  · have hrun : expect expected s.info h w = _ := expect_eq_error hl (hn ▸ hc)
    rw [hn] at hrun
    exact .of_eq_error hrun

theorem outcome_assemble {node : Node} (hs : f.Storable node) :
    (assemble cs (Edit.build node)).Outcome ⟨f, types⟩ [] fun h w =>
      h = f.nextHandle ∧ w = ⟨f.store node, types⟩ := by
  have hcheck : f.checkChildren [] node.payload.childFields = .ok () :=
    checkChildren_eq_ok.mpr
      ⟨fun e he => ⟨hs.root (Payload.mem_childFields.mp he), List.not_mem_nil⟩, hs.nodup⟩
  have hrun : Edit.build node f = .ok f.nextHandle (f.store node) :=
    Edit.bind_of_ok (Edit.ask_of_ok hcheck)
  exact .orFree (.of_eq_ok (edit_of_ok hrun types) ⟨rfl, rfl⟩)

/-- **A node over mirrored children may be stored**, if each of them is of the category that its
place expects. -/
theorem SourceTree.PayloadOver.storable (hp : s.PayloadOver cs p)
    (hm : w.Mirrors options s.children cs) {f₀ : Forest} (hg : f₀.Grows w.forest cs)
    (hc : ∀ q ∈ s.positions, q.2.kind.category = q.1) :
    w.forest.Storable { payload := p } where
  root {field c} hmem := by
    have hfield : (field.category, c) ∈ (s.positions.map Prod.fst).zip cs := by
      rw [← hp.childFields]
      exact List.mem_map_of_mem (f := fun e => (e.1.category, e.2))
        (Payload.mem_childFields.mpr hmem)
    -- the place that the field belongs to, and the source node at that place
    obtain ⟨⟨q, c'⟩, hq, he⟩ := List.mem_map.mp (List.zip_map_left ▸ hfield)
    obtain ⟨hcategory, rfl⟩ : q.1 = field.category ∧ c' = c := by simpa using he
    have hzip : (q.2, c') ∈ s.children.zip cs := by
      rw [children, List.zip_map_left]
      exact List.mem_map_of_mem (f := Prod.map Prod.snd id) hq
    obtain ⟨hplace, hchild⟩ := List.of_mem_zip hq
    obtain ⟨n, hn⟩ := hg.root hchild
    exact ⟨n, hn, by rw [hm.kind_eq_of_mem_zip hzip hn, hc q hplace, hcategory]⟩
  nodup := by
    have hchildren : ({ payload := p } : Node).children = cs := hp.children_eq
    rw [hchildren]
    exact hg.nodup
  occupied := hp.occupied

/-- The type that a source node names is stored at the latest when its node is given it. -/
theorem outcome_giveType (info : SourceInfo) {n : Node} {o : Option Handle}
    (hl : w.forest.live? h = some ⟨n, o⟩) (hn : n.type? = none) :
    (giveType info h).Outcome w [] fun _ w' => w.types.Extends w'.types ∧
      (∀ name, info.typeName? = some name → (w'.types.resolve name).2 = w'.types) ∧
      w'.forest.live? h =
        some ⟨{ n with type? := info.typeName?.map fun name => (w'.types.resolve name).1 }, o⟩ ∧
      ∀ k ≠ h, w'.forest.live? k = w.forest.live? k := by
  cases hname : info.typeName? with
  | none =>
    have hrun : giveType info h = Pure.pure () := by simp only [giveType, hname]
    rw [hrun]
    exact .pure ⟨.refl _, by simp, by rw [hl, Option.map_none, ← hn], fun k _ => rfl⟩
  | some name =>
    have hset : Edit.setType h (some (w.types.resolve name).1) w.forest = .ok ()
        (w.forest.annotate h fun n => { n with type? := some (w.types.resolve name).1 }) := by
      rw [Edit.setType, Edit.bind_of_ok (Edit.ask_of_ok (live_eq_ok.mpr hl))]; rfl
    have hrun : giveType info h w = .ok ()
        ⟨w.forest.annotate h fun n => { n with type? := some (w.types.resolve name).1 },
          (w.types.resolve name).2⟩ := by
      simp only [giveType, hname]
      exact edit_of_ok hset _
    have hsettled := TypeTable.resolve_settled (.refl (w.types.resolve name).2)
    refine .of_eq_ok hrun ⟨w.types.extends_resolve name, fun name' hn' => ?_, ?_, fun k hk => ?_⟩
    · cases hn'; rw [hsettled]
    · rw [live?_annotate, if_pos rfl, hl, Option.map_some, Option.map_some, hsettled]
    · rw [live?_annotate, if_neg hk]

theorem outcome_giveSpan (options : ConversionOptions) (info : SourceInfo) {n : Node}
    {o : Option Handle} (hl : w.forest.live? h = some ⟨n, o⟩) (hn : n.span? = none) :
    (giveSpan options info h).Outcome w [] fun _ w' => w'.types = w.types ∧
      w'.forest.live? h =
        some ⟨{ n with span? := if options.keepSpans then info.span? else none }, o⟩ ∧
      ∀ k ≠ h, w'.forest.live? k = w.forest.live? k := by
  unfold giveSpan
  split_ifs
  · have hset : Edit.setSpan h info.span? w.forest = .ok ()
        (w.forest.annotate h fun n => { n with span? := info.span? }) := by
      rw [Edit.setSpan, Edit.bind_of_ok (Edit.ask_of_ok (live_eq_ok.mpr hl))]; rfl
    refine .of_eq_ok (edit_of_ok hset w.types) ⟨rfl, ?_, fun k hk => ?_⟩
    · rw [live?_annotate, if_pos rfl, hl, Option.map_some]
    · rw [live?_annotate, if_neg hk]
  · exact .pure ⟨rfl, by rw [hl, ← hn], fun k _ => rfl⟩

/-- **A bare node** that was built over mirrored children in the forest `g`: it has no type and no
range yet. -/
structure Workspace.Bare (w : Workspace) (options : ConversionOptions) (s : SourceTree) (h : Handle)
    (g : Forest) (cs : List Handle) (p : Payload) : Prop where
  root : w.forest.live? h = some ⟨{ payload := p }, none⟩
  payload : s.PayloadOver cs p
  children : (Workspace.mk g w.types).Mirrors options s.children cs
  fresh : ¬ g.contains h
  kept : g.KeepsNodes w.forest

/-- **A bare node that is given its type and its range** mirrors its source node. -/
theorem outcome_atDepth (depth : Nat) {make : Conversion Handle} {es : List ConversionError}
    (hm : make.Outcome w es fun h w' =>
      w.types.Extends w'.types ∧ ∃ g cs p, w'.Bare options s h g cs p) :
    (atDepth options depth s.info make).Outcome w ((s.tooDeep? options.maxDepth depth).toList ++ es)
      fun h w' => w.types.Extends w'.types ∧ w'.Mirrors options [s] [h] := by
  unfold atDepth SourceTree.tooDeep?
  split_ifs
  · exact .throw _
  rw [Option.toList_none, List.nil_append, ← List.append_nil es]
  refine hm.bind fun h w₁ ⟨ht₁, g, cs, p, hb⟩ => ?_
  refine (outcome_giveType s.info hb.root rfl).bind fun _ w₂ ⟨ht₂, hs₂, hl₂, hk₂⟩ => ?_
  refine (outcome_giveSpan options s.info hl₂ rfl).bind fun _ w₃ ⟨ht₃, hl₃, hk₃⟩ => ?_
  rw [← ht₃] at hs₂ hl₃ ht₂
  -- the children were there before the node, so they are not what was given a type and a range
  have hkept : g.KeepsNodes w₃.forest := fun k l hk => by
    have hne : k ≠ h := fun he => hb.fresh (contains_iff.mpr ⟨l, he ▸ hk⟩)
    rw [hk₃ k hne, hk₂ k hne]
    exact hb.kept k l hk
  exact .pure ⟨ht₁.trans ht₂,
    .cons hl₃ ⟨hb.payload, rfl, hs₂, rfl⟩ (hb.children.mono hkept ht₂) .nil⟩

/-! ### Source trees -/

theorem outcome_child {depth : Nat} {expected : Category} (before : List Handle)
    (hm : (s.convertAt options depth).Outcome w (s.faults options.maxDepth depth)
      fun h w' => w.Gains options [s] [h] w') :
    (child before expected s.info (s.convertAt options depth)).Outcome w
      (s.faults options.maxDepth depth ++ (s.misplaced? expected).toList)
      fun h w' => w.Gains options [s] [h] w' ∧ s.kind.category = expected := by
  refine .orFree (hm.bind fun h w' hg => ?_)
  obtain ⟨n, hn⟩ := hg.grows.root (List.mem_singleton_self h)
  have hkind : n.kind = s.kind := hg.mirrors.kind_eq_of_mem_zip (List.mem_singleton_self (s, h)) hn
  refine (outcome_expect expected hn hkind).mono fun h' w'' ⟨hh, hw, hc⟩ => ?_
  rw [hh, hw]
  exact ⟨hg, hc⟩

theorem outcome_convertEach {depth : Nat} : ∀ {ps : List (Category × SourceTree)},
    (∀ p ∈ ps, ∀ {w : Workspace}, w.forest.WellFormed →
      (p.2.convertAt options depth).Outcome w (p.2.faults options.maxDepth depth)
        fun h w' => w.Gains options [p.2] [h] w') →
    ∀ (before : List Handle) {w : Workspace}, w.forest.WellFormed →
      (convertEach options depth before ps).Outcome w
        (ps.flatMap fun p => p.2.faults options.maxDepth depth ++ (p.2.misplaced? p.1).toList)
        fun cs w' => w.Gains options (ps.map Prod.snd) cs w' ∧ ∀ p ∈ ps, p.2.kind.category = p.1
  | [], _, _, _, hf => .pure ⟨.refl hf, by simp⟩
  | p :: ps, hps, before, w, hf => by
    rw [List.flatMap_cons]
    have hrest := List.forall_mem_cons.mp hps
    refine (outcome_child before (hrest.1 hf)).bind fun h w₁ ⟨hg, hc⟩ => ?_
    rw [← List.append_nil (ps.flatMap _)]
    refine (outcome_convertEach hrest.2 (before ++ [h]) hg.wellFormed).bind
      fun cs w₂ ⟨hg', hcs⟩ => ?_
    exact .pure ⟨hg.trans hg', List.forall_mem_cons.mpr ⟨hc, hcs⟩⟩

/-- **The outcome of the conversion of a source tree**, by induction on the tree: it has the faults
of the tree, and gains a tree that mirrors the source tree. -/
theorem outcome_convertAt (s : SourceTree) : ∀ {depth : Nat} {w : Workspace}, w.forest.WellFormed →
    (s.convertAt options depth).Outcome w (s.faults options.maxDepth depth)
      fun h w' => w.Gains options [s] [h] w' := by
  induction s using SourceTree.induction with
  | _ s ih =>
    intro depth w hf
    suffices (s.convertAt options depth).Outcome w (s.faults options.maxDepth depth)
        fun h w' => w.types.Extends w'.types ∧ w'.Mirrors options [s] [h] from
      (this.and_sound (sound_convertAt options depth s hf)).mono
        fun _ _ ⟨⟨ht, hm⟩, hwf, hg⟩ => ⟨hwf, hg, ht, hm⟩
    rw [SourceTree.convertAt_eq, SourceTree.faults_eq, List.append_assoc]
    refine outcome_atDepth depth ?_
    refine (s.outcome_prepare w).bind fun payload w₁ ⟨hw, hpayload⟩ => ?_
    subst hw
    rw [← List.append_nil (s.positions.flatMap _)]
    have hchildren : ∀ p ∈ s.positions, p.2 ∈ s.children := fun p hp => List.mem_map_of_mem hp
    refine (outcome_convertEach (fun p hp _ => ih p.2 (hchildren p hp)) [] hf).bind
      fun cs w₂ ⟨hg, hc⟩ => ?_
    have hover := hpayload cs (by rw [hg.mirrors.length_eq, List.length_map])
    have hs := hover.storable hg.mirrors hg.grows hc
    have hb := hg.wellFormed.books
    refine (outcome_assemble hs).mono fun h w₃ ⟨hh, hw⟩ => ?_
    subst hh hw
    exact ⟨hg.types, w₂.forest, cs, payload cs, hs.live?_nextHandle hb, hover, hg.mirrors,
      not_contains_iff.mpr hb.not_contains_nextHandle, hb.keepsNodes_store _⟩

namespace SourceTree

theorem ne_tree_of_mem_faults {maxDepth : Nat} (s : SourceTree) : ∀ {depth : Nat},
    ∀ e ∈ s.faults maxDepth depth, ∀ cause, e ≠ .tree cause := by
  induction s using SourceTree.induction with
  | _ s ih =>
    intro depth e he cause
    rw [faults_eq] at he
    simp only [List.mem_append, List.mem_flatMap, Option.mem_toList] at he
    rcases he with (he | he) | ⟨p, hp, he | he⟩
    · unfold tooDeep? at he; split_ifs at he; cases he; simp
    · unfold unmapped? at he; split at he <;> [split_ifs at he; skip] <;> cases he; simp
    · exact ih p.2 (List.mem_map_of_mem hp) e he cause
    · unfold misplaced? at he; split_ifs at he; cases he; simp

/-! ### Conversions in a run -/

/-- **When a conversion fails, and with what**, in every forest that a run reaches. It succeeds if
and only if the source tree has at most `maxDepth` levels, the symbol of every chain is that of an
operator, and every child is of the category that its place expects. Otherwise the error is the
first fault in the order of a walk, and never one of the forest. -/
theorem conversion_fails_at_first_fault (steps : List Step) (options : ConversionOptions)
    (source : SourceTree) (types : TypeTable) :
    ((∃ root w, source.convert options ⟨empty.run steps, types⟩ = .ok root w) ↔
      source.levels ≤ options.maxDepth ∧
      (∀ s ∈ source.nodes, ∀ symbol, s.symbol? = some symbol →
        ∃ o : Operator, o.symbol = symbol) ∧
      ∀ s ∈ source.nodes, ∀ p ∈ s.positions, p.2.kind.category = p.1) ∧
    ∀ e w, source.convert options ⟨empty.run steps, types⟩ = .error e w →
      (source.faults options.maxDepth 0).head? = some e ∧ ∀ cause, e ≠ .tree cause := by
  have hf := wellFormed_run steps wellFormed_empty
  have houtcome : (source.convert options).Outcome ⟨empty.run steps, types⟩
      (source.faults options.maxDepth 0) _ := outcome_convertAt source hf
  have hnil : source.faults options.maxDepth 0 = [] ↔ _ := source.faults_eq_nil_iff
  rw [Nat.zero_add] at hnil
  rw [← hnil]
  refine ⟨⟨fun ⟨root, w, hrun⟩ => (houtcome.of_ok hrun).1, fun hnone => ?_⟩, fun e w hrun => ?_⟩
  · rcases hrun : source.convert options ⟨empty.run steps, types⟩ with ⟨root, w⟩ | ⟨e, w⟩
    · exact ⟨root, w, rfl⟩
    · have hhead := houtcome.of_error hrun
      rw [hnone] at hhead
      cases hhead
  · have hhead := houtcome.of_error hrun
    exact ⟨hhead, source.ne_tree_of_mem_faults e (List.mem_of_head? hhead)⟩

/-- **A conversion is faithful**, in every forest that a run reaches. Its answer is a detached root
that mirrors the source tree: field by field, with the operators that the symbols stand for, the
types that the table answers for the names, and the ranges if they are kept. The preorder has one
node for each source node, in source preorder, which mirrors it. The nodes are new; those that were
live are unchanged; and the number of nodes grows by that of the source nodes. -/
theorem conversion_faithful (steps : List Step) (options : ConversionOptions) (source : SourceTree)
    (types : TypeTable) {root : Handle} {w : Workspace}
    (hrun : source.convert options ⟨empty.run steps, types⟩ = .ok root w) :
    w.forest.isDetached root = .ok true ∧ w.Mirrors options [source] [root] ∧
    (∃ hs, w.forest.preorder root = .ok hs ∧
      List.Forall₂ (fun s h => ∃ n cs, w.forest.node h = .ok n ∧ s.NodeOver options w.types cs n ∧
        w.Mirrors options s.children cs) source.nodes hs ∧
      hs.Nodup ∧ ∀ h ∈ hs, ¬ (empty.run steps).contains h) ∧
    (∀ k, (empty.run steps).contains k → w.forest.live? k = (empty.run steps).live? k) ∧
    w.forest.size = (empty.run steps).size + source.nodes.length := by
  have hf := wellFormed_run steps wellFormed_empty
  have hg : Workspace.Gains ⟨empty.run steps, types⟩ options [source] [root] w :=
    ((outcome_convertAt source hf).of_ok hrun).2
  obtain ⟨n, hn⟩ := hg.grows.root (List.mem_singleton_self root)
  have hdetached : w.forest.isDetached root = .ok true := by
    have howner : w.forest.owner? root = .ok none := owner?_eq_ok.mpr ⟨_, hn, rfl⟩
    rw [isDetached, howner]
    rfl
  obtain ⟨hs, hl, hall⟩ := hg.mirrors.listing
  rw [List.flatMap_singleton] at hall
  have hsize := hg.grows.size_eq hf hg.wellFormed hl
  rw [← hall.length_eq] at hsize
  refine ⟨hdetached, hg.mirrors, ⟨hs, preorder_eq_ok hg.wellFormed hl, hall.imp fun s h hm => ?_,
    nodup_preorder hg.wellFormed hl, fun h hh => ?_⟩, fun k hk => hg.grows.kept hk, hsize⟩
  · cases hm with
    | cons hh hover hbelow _ =>
      exact ⟨_, _, node_eq_ok.mpr ⟨_, hh, rfl⟩, hover, hbelow⟩
  · obtain ⟨r, hr, hu⟩ := (mem_listing hg.wellFormed hl).mp hh
    exact hg.grows.not_contains_of_under hf hr hu

/-- A return of a chain of three operands is converted to five nodes, next to the name that was
there. -/
theorem conversion_faithful_return : ∃ w,
    (returnStatement {} (some (chain { typeName? := some "int" } "+" (name {} "a") (number {} "1")
      [name {} "b"]))).convert {} ⟨empty.run [.operate (.name "x")], .empty 0⟩ = .ok ⟨5, 0⟩ w ∧
    w.forest.isDetached ⟨5, 0⟩ = .ok true ∧
    w.forest.preorder ⟨5, 0⟩ = .ok [⟨5, 0⟩, ⟨4, 0⟩, ⟨1, 0⟩, ⟨2, 0⟩, ⟨3, 0⟩] ∧
    w.forest.live? ⟨0, 0⟩ = some ⟨{ payload := .name "x" }, none⟩ ∧ w.forest.size = 6 := by
  obtain ⟨w, hrun, hlist⟩ : ∃ w, (returnStatement {} (some (chain { typeName? := some "int" } "+"
      (name {} "a") (number {} "1") [name {} "b"]))).convert {}
        ⟨empty.run [.operate (.name "x")], .empty 0⟩ = .ok ⟨5, 0⟩ w ∧
      w.forest.preorder ⟨5, 0⟩ = .ok [⟨5, 0⟩, ⟨4, 0⟩, ⟨1, 0⟩, ⟨2, 0⟩, ⟨3, 0⟩] := ⟨_, rfl, rfl⟩
  obtain ⟨hdetached, -, -, hkept, hsize⟩ :=
    conversion_faithful [.operate (.name "x")] {} _ (.empty 0) hrun
  refine ⟨w, hrun, hdetached, hlist, hkept ⟨0, 0⟩ rfl, hsize.trans ?_⟩
  simp only [nodes_eq, children, positions, Option.toList, List.map, List.flatMap_cons,
    List.flatMap_nil, List.length_cons, List.length_append, List.length_nil]
  rfl

end SourceTree

end SyntaxForest
