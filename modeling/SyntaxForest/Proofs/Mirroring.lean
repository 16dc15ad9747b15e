import SyntaxForest.Conversion.Convert
import SyntaxForest.Proofs.Copying
import SyntaxForest.Proofs.Interning
import SyntaxForest.Proofs.SourceTrees

/-! # Nodes that mirror source trees

A payload mirrors a source node over some children (`PayloadOver`) if it is of the same kind, has
the same text or truth value, or the operator that the symbol stands for, and has the children in
the matching fields in source order. A node mirrors a source node over them if it also carries the
type and the range that the source node reports (`NodeOver`), and trees mirror source trees if their
nodes do, over children that mirror the children (`Workspace.Mirrors`).

The fields of a payload that mirrors a source node take the categories that the places of the source
node expect (`PayloadOver.childFields`). Mirrored trees stay mirrored when the forest keeps their
nodes and the table of types grows (`Mirrors.mono`), and their preorder mirrors the source nodes one
by one (`Mirrors.listing`). -/

namespace SyntaxForest

/-! ### One node -/

/-- **A payload that mirrors a source node** over the given children. -/
inductive SourceTree.PayloadOver : SourceTree → List Handle → Payload → Prop
  | number {info token} : PayloadOver (.number info token) [] (.number token)
  | boolean {info value} : PayloadOver (.boolean info value) [] (.boolean value)
  | string {info text} : PayloadOver (.string info text) [] (.string text)
  | null {info} : PayloadOver (.null info) [] .null
  | name {info identifier} : PayloadOver (.name info identifier) [] (.name identifier)
  | parenthesized {info inner e} :
    PayloadOver (.parenthesized info inner) [e] (.parenthesized (some e))
  | chain {info symbol left right extended o l r xs} :
    (∀ o' : Operator, o'.symbol = symbol ↔ o' = o) → xs.length = extended.length →
    PayloadOver (.chain info symbol left right extended) (l :: r :: xs)
      (.chain o (some l) (some r) xs)
  | conditional {info condition thenExpression elseExpression c t e} :
    PayloadOver (.conditional info condition thenExpression elseExpression) [c, t, e]
      (.conditional (some c) (some t) (some e))
  | expressionStatement {info expression e} :
    PayloadOver (.expressionStatement info expression) [e] (.expressionStatement (some e))
  | returnNothing {info} : PayloadOver (.returnStatement info none) [] (.returnStatement none)
  | returnValue {info expression e} :
    PayloadOver (.returnStatement info (some expression)) [e] (.returnStatement (some e))
  | block {info statements xs} :
    xs.length = statements.length → PayloadOver (.block info statements) xs (.block xs)
  | ifThen {info condition thenStatement c t} :
    PayloadOver (.ifStatement info condition thenStatement none) [c, t]
      (.ifStatement (some c) (some t) none)
  | ifThenElse {info condition thenStatement elseStatement c t e} :
    PayloadOver (.ifStatement info condition thenStatement (some elseStatement)) [c, t, e]
      (.ifStatement (some c) (some t) (some e))

/-- **A node that mirrors a source node** over the given children. The type that the source node
names is the one that the table answers when asked for that name, and asking stores nothing. -/
structure SourceTree.NodeOver (options : ConversionOptions) (types : TypeTable) (s : SourceTree)
    (cs : List Handle) (n : Node) : Prop where
  payload : s.PayloadOver cs n.payload
  type? : n.type? = s.info.typeName?.map fun name => (types.resolve name).1
  stored : ∀ name, s.info.typeName? = some name → (types.resolve name).2 = types
  span? : n.span? = if options.keepSpans then s.info.span? else none

namespace SourceTree

variable {s : SourceTree} {cs : List Handle} {p : Payload} {n : Node} {options : ConversionOptions}
  {types types' : TypeTable}

theorem replicate_zip {α β : Type} (k : α) : ∀ ys : List β,
    (List.replicate ys.length k).zip ys = ys.map (Prod.mk k)
  | [] => rfl
  | y :: ys => by
    rw [List.length_cons, List.replicate_succ, List.zip_cons_cons, replicate_zip k ys,
      List.map_cons]

/-- **The fields of the payload** take the categories that the places of the source node expect. -/
theorem PayloadOver.childFields (h : s.PayloadOver cs p) :
    p.childFields.map (fun e => (e.1.category, e.2)) = (s.positions.map Prod.fst).zip cs := by
  cases h with
  | chain _ hlen | block hlen =>
    simp [Payload.childFields, positions, Payload.labelled, Function.comp_def, Field.category,
      ← hlen, replicate_zip]
  | _ => rfl

theorem PayloadOver.length_eq (h : s.PayloadOver cs p) : cs.length = s.positions.length := by
  cases h <;> simp_all [positions]

theorem PayloadOver.children_eq (h : s.PayloadOver cs p) : p.children = cs := by
  have hmap := congrArg (List.map Prod.snd) h.childFields
  rw [List.map_map, List.map_snd_zip (by simp [h.length_eq])] at hmap
  exact hmap

theorem PayloadOver.kind_eq (h : s.PayloadOver cs p) : p.kind = s.kind := by
  cases h <;> rfl

theorem PayloadOver.occupied (h : s.PayloadOver cs p) {field : Field}
    (hslot : p.slot? field = some none) : p.isOptional field := by
  cases h <;> cases field <;> first | rfl | cases hslot

theorem NodeOver.children_eq (h : s.NodeOver options types cs n) : n.children = cs :=
  h.payload.children_eq

theorem NodeOver.mono (h : s.NodeOver options types cs n) (ht : types.Extends types') :
    s.NodeOver options types' cs n := by
  have hresolve : ∀ name, s.info.typeName? = some name →
      types'.resolve name = ((types.resolve name).1, types') := fun name hn =>
    TypeTable.resolve_settled (by rw [h.stored name hn]; exact ht)
  refine ⟨h.payload, ?_, fun name hn => by rw [hresolve name hn], h.span?⟩
  rw [h.type?]
  cases hn : s.info.typeName? with
  | none => rfl
  | some name => simp [hresolve name hn]

end SourceTree

/-! ### Trees -/

/-- **Trees that mirror source trees**, each the one at the same place. -/
inductive Workspace.Mirrors (w : Workspace) (options : ConversionOptions) :
    List SourceTree → List Handle → Prop
  | nil : Mirrors w options [] []
  | cons {s h l cs rest hs} : w.forest.live? h = some l → s.NodeOver options w.types cs l.node →
    Mirrors w options s.children cs → Mirrors w options rest hs →
    Mirrors w options (s :: rest) (h :: hs)

namespace Workspace.Mirrors

variable {w w' : Workspace} {options : ConversionOptions} {ss ss' : List SourceTree}
  {hs hs' : List Handle} {s : SourceTree} {h : Handle}

theorem length_eq (hm : w.Mirrors options ss hs) : hs.length = ss.length := by
  induction hm with
  | nil => rfl
  | cons _ _ _ _ _ ih => simp [ih]

theorem append (hm : w.Mirrors options ss hs) (hm' : w.Mirrors options ss' hs') :
    w.Mirrors options (ss ++ ss') (hs ++ hs') := by
  induction hm with
  | nil => exact hm'
  | cons hl hn hbelow _ _ ih => exact .cons hl hn hbelow ih

/-- **Mirrored trees stay mirrored** when no node of the forest changes and the table only grows. -/
theorem mono (hm : w.Mirrors options ss hs) (hf : w.forest.KeepsNodes w'.forest)
    (ht : w.types.Extends w'.types) : w'.Mirrors options ss hs := by
  induction hm with
  | nil => exact .nil
  | cons hl hn _ _ ih₁ ih₂ =>
    obtain ⟨m, hm, he⟩ := hf _ _ hl
    exact .cons hm (he ▸ hn.mono ht) ih₁ ih₂

theorem kind_eq_of_mem_zip (hm : w.Mirrors options ss hs) (hmem : (s, h) ∈ ss.zip hs) {l : LiveNode}
    (hl : w.forest.live? h = some l) : l.node.kind = s.kind := by
  induction hm with
  | nil => simp at hmem
  | cons hl' hn _ _ _ ih =>
    rcases List.mem_cons.mp hmem with he | hmem
    · cases he
      cases hl.symm.trans hl'
      exact hn.payload.kind_eq
    · exact ih hmem

/-- **The preorder of mirrored trees** has one node for each source node, in source preorder, which
mirrors it with all that is below it. -/
theorem listing (hm : w.Mirrors options ss hs) : ∃ xs, w.forest.Listing hs xs ∧
    List.Forall₂ (fun s h => w.Mirrors options [s] [h]) (ss.flatMap SourceTree.nodes) xs := by
  induction hm with
  | nil => exact ⟨[], .nil, .nil⟩
  | @cons s h l cs rest hs hl hn hbelow _ ih₁ ih₂ =>
    obtain ⟨below, hlist₁, hall₁⟩ := ih₁
    obtain ⟨after, hlist₂, hall₂⟩ := ih₂
    refine ⟨h :: (below ++ after), .cons hl (hn.children_eq ▸ hlist₁) hlist₂, ?_⟩
    rw [List.flatMap_cons, SourceTree.nodes_eq, List.cons_append]
    exact .cons (.cons hl hn hbelow .nil) (List.rel_append hall₁ hall₂)

end Workspace.Mirrors

end SyntaxForest
