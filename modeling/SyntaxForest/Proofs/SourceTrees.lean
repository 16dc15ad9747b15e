import SyntaxForest.Conversion.Error
import SyntaxForest.Conversion.Source
import Mathlib.Order.Lattice

/-! # Source trees: nodes, levels, faults

The children of a source node stand in source order, each at a place that expects a category:
`positions`. What is said about all nodes of a tree goes by recursion to the children: the nodes in
preorder, the number of levels, and the faults in the order of a walk.

A tree has no faults if and only if it is not too deep, the symbol of every chain is that of an
operator, and every child is of the category that its place expects (`faults_eq_nil_iff`). -/

namespace SyntaxForest.SourceTree

/-- The kind of node that a source node is converted to. -/
def kind : SourceTree → Kind
  | number .. => .number
  | boolean .. => .boolean
  | string .. => .string
  | null _ => .null
  | name .. => .name
  | parenthesized .. => .parenthesized
  | chain .. => .chain
  | conditional .. => .conditional
  | expressionStatement .. => .expressionStatement
  | returnStatement .. => .returnStatement
  | block .. => .block
  | ifStatement .. => .ifStatement

/-- The children in source order, each with the category that its place expects: statements in
blocks and in the branches of an if statement, expressions everywhere else. -/
def positions : SourceTree → List (Category × SourceTree)
  | number .. | boolean .. | string .. | null _ | name .. => []
  | parenthesized _ inner => [(.expression, inner)]
  | chain _ _ left right extended =>
    (.expression, left) :: (.expression, right) :: extended.map (Prod.mk .expression)
  | conditional _ c t e => [(.expression, c), (.expression, t), (.expression, e)]
  | expressionStatement _ expression => [(.expression, expression)]
  | returnStatement _ expression => expression.toList.map (Prod.mk .expression)
  | block _ statements => statements.map (Prod.mk .statement)
  | ifStatement _ c t e =>
    (.expression, c) :: (.statement, t) :: e.toList.map (Prod.mk .statement)

/-- The children in source order. -/
def children (s : SourceTree) : List SourceTree := s.positions.map Prod.snd

/-- The symbol of a chain. -/
def symbol? : SourceTree → Option String
  | chain _ symbol .. => some symbol
  | _ => none

theorem sizeOf_positions_lt {s : SourceTree} {p : Category × SourceTree} (h : p ∈ s.positions) :
    sizeOf p.2 < sizeOf s := by
  have hlist : ∀ {xs : List SourceTree} {k : Category}, p ∈ xs.map (Prod.mk k) →
      sizeOf p.2 < sizeOf xs := fun hm => by
    obtain ⟨x, hx, rfl⟩ := List.mem_map.mp hm
    exact List.sizeOf_lt_of_mem hx
  have hoption : ∀ {o : Option SourceTree} {k : Category}, p ∈ o.toList.map (Prod.mk k) →
      sizeOf p.2 < sizeOf o := fun {o k} hm => by
    cases o with
    | none => simp at hm
    | some x => obtain rfl := List.mem_singleton.mp hm; simp
  cases s with
  | number | boolean | string | null | name => simp [positions] at h
  | parenthesized _ e | expressionStatement _ e =>
    obtain rfl := List.mem_singleton.mp h
    simp only [parenthesized.sizeOf_spec, expressionStatement.sizeOf_spec]; omega
  | chain _ _ l r xs =>
    rcases List.mem_cons.mp h with rfl | h
    · simp only [chain.sizeOf_spec]; omega
    · rcases List.mem_cons.mp h with rfl | h
      · simp only [chain.sizeOf_spec]; omega
      · have := hlist h
        simp only [chain.sizeOf_spec]; omega
  | conditional _ c t e =>
    simp only [positions, List.mem_cons, List.not_mem_nil, or_false] at h
    rcases h with rfl | rfl | rfl <;> simp only [conditional.sizeOf_spec] <;> omega
  | returnStatement _ e =>
    have := hoption h
    simp only [returnStatement.sizeOf_spec]; omega
  | block _ xs =>
    have := hlist h
    simp only [block.sizeOf_spec]; omega
  | ifStatement _ c t e =>
    rcases List.mem_cons.mp h with rfl | h
    · simp only [ifStatement.sizeOf_spec]; omega
    · rcases List.mem_cons.mp h with rfl | h
      · simp only [ifStatement.sizeOf_spec]; omega
      · have := hoption h
        simp only [ifStatement.sizeOf_spec]; omega

theorem sizeOf_children_lt {s c : SourceTree} (h : c ∈ s.children) : sizeOf c < sizeOf s := by
  obtain ⟨p, hp, rfl⟩ := List.mem_map.mp h
  exact sizeOf_positions_lt hp

/-- **Induction over the children**: what holds of a node when it holds of its children holds of
every source tree. -/
theorem induction {P : SourceTree → Prop} (h : ∀ s, (∀ c ∈ s.children, P c) → P s)
    (s : SourceTree) : P s :=
  h s fun c _ => induction h c
termination_by sizeOf s
decreasing_by exact sizeOf_children_lt ‹_›

/-! ### Nodes and levels -/

/-- The source nodes of a tree in preorder, each with the tree below it. -/
def nodes (s : SourceTree) : List SourceTree :=
  s :: s.children.attach.flatMap fun c => c.1.nodes
termination_by sizeOf s
decreasing_by exact sizeOf_children_lt c.2

/-- The number of levels of a tree. -/
def levels (s : SourceTree) : Nat := (s.children.attach.map fun c => c.1.levels).foldr max 0 + 1
termination_by sizeOf s
decreasing_by exact sizeOf_children_lt c.2

theorem nodes_eq (s : SourceTree) : s.nodes = s :: s.children.flatMap nodes := by
  rw [nodes, List.flatMap_subtype (g := nodes) (by simp), List.unattach_attach]

theorem levels_eq (s : SourceTree) : s.levels = (s.children.map levels).foldr max 0 + 1 := by
  rw [levels, List.map_subtype (g := levels) (by simp), List.unattach_attach]

/-! ### Faults -/

/-- The fault of a node on a level that is too deep, below `depth` other ones. -/
def tooDeep? (maxDepth depth : Nat) (s : SourceTree) : Option ConversionError :=
  if maxDepth ≤ depth then some (.tooDeep maxDepth s.info.span?) else none

/-- The fault of a chain with a symbol that no operator has. -/
def unmapped? (s : SourceTree) : Option ConversionError :=
  match s.symbol? with
  | some symbol =>
    if ∃ o ∈ Operator.all, o.symbol = symbol then none
    else some (.unmappedOperator ⟨symbol⟩ s.info.span?)
  | none => none

/-- The fault of a child of another category than its place expects. -/
def misplaced? (expected : Category) (s : SourceTree) : Option ConversionError :=
  if s.kind.category = expected then none
  else some (.malformedSource expected s.kind s.info.span?)

/-- **The faults of a tree in the order of a walk**: at each node first its depth, then its
operator, then the faults of its children from left to right, where the category of a child comes
after everything inside it. -/
def faults (maxDepth depth : Nat) (s : SourceTree) : List ConversionError :=
  (s.tooDeep? maxDepth depth).toList ++ s.unmapped?.toList ++
    s.positions.attach.flatMap fun p =>
      p.1.2.faults maxDepth (depth + 1) ++ (p.1.2.misplaced? p.1.1).toList
termination_by sizeOf s
decreasing_by exact sizeOf_positions_lt p.2

theorem faults_eq (maxDepth depth : Nat) (s : SourceTree) : s.faults maxDepth depth =
    (s.tooDeep? maxDepth depth).toList ++ s.unmapped?.toList ++
      s.positions.flatMap fun p =>
        p.2.faults maxDepth (depth + 1) ++ (p.2.misplaced? p.1).toList := by
  rw [faults, List.flatMap_subtype
    (g := fun p => p.2.faults maxDepth (depth + 1) ++ (p.2.misplaced? p.1).toList) (by simp),
    List.unattach_attach]

theorem unmapped?_eq_none_iff {s : SourceTree} :
    s.unmapped? = none ↔ ∀ symbol, s.symbol? = some symbol → ∃ o : Operator, o.symbol = symbol := by
  have hall : ∀ symbol, (∃ o ∈ Operator.all, o.symbol = symbol) ↔
      ∃ o : Operator, o.symbol = symbol := fun symbol =>
    ⟨fun ⟨o, _, ho⟩ => ⟨o, ho⟩, fun ⟨o, ho⟩ => ⟨o, o.mem_all, ho⟩⟩
  unfold unmapped?
  cases s.symbol? with
  | none => simp
  | some symbol => simp [hall]

theorem misplaced?_eq_none_iff {expected : Category} {s : SourceTree} :
    s.misplaced? expected = none ↔ s.kind.category = expected := by
  unfold misplaced?; split_ifs with h <;> simp [h]

theorem tooDeep?_eq_none_iff {maxDepth depth : Nat} {s : SourceTree} :
    s.tooDeep? maxDepth depth = none ↔ depth + 1 ≤ maxDepth := by
  unfold tooDeep?; split_ifs with h <;> simp <;> omega

theorem foldr_max_le {ns : List Nat} {n : Nat} : ns.foldr max 0 ≤ n ↔ ∀ m ∈ ns, m ≤ n := by
  induction ns with
  | nil => simp
  | cons m ns ih => simp [ih]

theorem forall_nodes {P : SourceTree → Prop} {s : SourceTree} :
    (∀ t ∈ s.nodes, P t) ↔ P s ∧ ∀ p ∈ s.positions, ∀ t ∈ p.2.nodes, P t := by
  rw [nodes_eq]
  simp only [children, List.mem_cons, List.mem_flatMap, List.mem_map, forall_eq_or_imp]
  constructor
  · rintro ⟨hs, h⟩
    exact ⟨hs, fun p hp t ht => h t ⟨_, ⟨p, hp, rfl⟩, ht⟩⟩
  · rintro ⟨hs, h⟩
    refine ⟨hs, ?_⟩
    rintro t ⟨_, ⟨p, hp, rfl⟩, ht⟩
    exact h p hp t ht

/-- There is room for the levels of a tree below `depth` others if there is for its root and for the
trees of its children. -/
theorem add_levels_le_iff {s : SourceTree} {depth n : Nat} :
    depth + s.levels ≤ n ↔ depth + 1 ≤ n ∧ ∀ p ∈ s.positions, depth + 1 + p.2.levels ≤ n := by
  have hroom : depth + s.levels ≤ n ↔
      depth + 1 ≤ n ∧ (s.children.map levels).foldr max 0 ≤ n - (depth + 1) := by
    rw [levels_eq]; omega
  rw [hroom, foldr_max_le]
  refine and_congr_right fun hn => ⟨fun h p hp => ?_, fun h m hm => ?_⟩
  · have := h _ (List.mem_map_of_mem (List.mem_map_of_mem hp))
    omega
  · obtain ⟨_, hc, rfl⟩ := List.mem_map.mp hm
    obtain ⟨p, hp, rfl⟩ := List.mem_map.mp hc
    have := h p hp
    omega

/-- **A tree without faults** is not too deep, has operators for all its symbols, and has every
child in a place for its category. -/
theorem faults_eq_nil_iff {maxDepth : Nat} (s : SourceTree) : ∀ {depth : Nat},
    s.faults maxDepth depth = [] ↔
      depth + s.levels ≤ maxDepth ∧
      (∀ t ∈ s.nodes, ∀ symbol, t.symbol? = some symbol → ∃ o : Operator, o.symbol = symbol) ∧
      ∀ t ∈ s.nodes, ∀ p ∈ t.positions, p.2.kind.category = p.1 := by
  induction s using SourceTree.induction with
  | _ s ih =>
    intro depth
    have hchild : ∀ p ∈ s.positions, p.2.faults maxDepth (depth + 1) = [] ↔ _ := fun p hp =>
      ih p.2 (List.mem_map_of_mem hp)
    rw [faults_eq]
    simp only [List.append_eq_nil_iff, Option.toList_eq_nil_iff, List.flatMap_eq_nil_iff,
      tooDeep?_eq_none_iff, unmapped?_eq_none_iff, misplaced?_eq_none_iff]
    rw [add_levels_le_iff, forall_nodes, forall_nodes (P := fun t => ∀ p ∈ t.positions, _)]
    constructor
    · rintro ⟨⟨hdepth, hsymbol⟩, h⟩
      have hc := fun p hp => (hchild p hp).mp (h p hp).1
      exact ⟨⟨hdepth, fun p hp => (hc p hp).1⟩, ⟨hsymbol, fun p hp => (hc p hp).2.1⟩,
        fun p hp => (h p hp).2, fun p hp => (hc p hp).2.2⟩
    · rintro ⟨⟨hdepth, hlevels⟩, ⟨hsymbol, hsymbols⟩, hplace, hplaces⟩
      exact ⟨⟨hdepth, hsymbol⟩, fun p hp =>
        ⟨(hchild p hp).mpr ⟨hlevels p hp, hsymbols p hp, hplaces p hp⟩, hplace p hp⟩⟩

end SyntaxForest.SourceTree
