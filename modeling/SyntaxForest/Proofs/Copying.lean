import SyntaxForest.Forest.Copy
import SyntaxForest.Proofs.Growth
import SyntaxForest.Proofs.Preorder
import SyntaxForest.Proofs.Rebuilding

/-! # Copying

`Copies hs cs` says that the trees below `cs` are copies of those below `hs`, node by node with types
and source ranges. A copy of a listing is made by a stack machine: it takes the copies of a node's
children off the stack and puts the copy of the node on it (`copyNodes_listing`). So a copy of a live
node is never refused, and grows one tree (`copy_eq_ok`). -/

namespace SyntaxForest

namespace CopyStack

theorem mapM_pop : ∀ (hs cs rest : List Handle), cs.length = hs.length →
    (hs.mapM pop).run (cs ++ rest) = .ok (cs, rest)
  | [], [], _, _ => rfl
  | h :: hs, c :: cs, rest, hlen => by
    have ih := mapM_pop hs cs rest (by simpa using hlen)
    rw [List.mapM_cons, StateT.run_bind]
    change (do
      let r ← (hs.mapM pop).run (cs ++ rest)
      pure (c :: r.1, r.2)) = _
    rw [ih]; rfl

theorem copyNode_eq_ok {f : Forest} {h : Handle} {l : LiveNode} (hl : f.live? h = some l)
    {cs : List Handle} (hlen : cs.length = l.node.children.length) (rest : List Handle) :
    copyNode f h (cs ++ rest) =
      .ok (l.node.withChildren cs, rest) := by
  have hpop := mapM_pop l.node.payload.children cs rest hlen
  have hrun : (l.node.payload.traverseChildren pop).run (cs ++ rest) =
      .ok (l.node.payload.withChildren cs, rest) := by
    rw [Payload.traverseChildren_eq, StateT.run_map, hpop]; rfl
  simp only [copyNode, Forest.node, Forest.live, hl, hrun, bind, Except.bind, pure, Except.pure,
    Node.withChildren]

end CopyStack

namespace Forest

variable {f g f' : Forest}

/-! ### Copies -/

/-- The trees below the second handles in `g` are copies of those below the first handles in `f`. -/
inductive Copies (f g : Forest) : List Handle → List Handle → Prop where
  | nil : Copies f g [] []
  | cons {h c : Handle} {l m : LiveNode} {hs cs below : List Handle} :
    f.live? h = some l → g.live? c = some m →
    m.node = l.node.withChildren below →
    Copies f g l.node.children below → Copies f g hs cs → Copies f g (h :: hs) (c :: cs)

/-- The nodes of the first forest are in the second one, perhaps with other owners. -/
def KeepsNodes (g g' : Forest) : Prop :=
  ∀ k l, g.live? k = some l → ∃ l', g'.live? k = some l' ∧ l'.node = l.node

theorem KeepsNodes.refl (f : Forest) : f.KeepsNodes f := fun _ l hk => ⟨l, hk, rfl⟩

theorem KeepsNodes.trans {g' g'' : Forest} (h : g.KeepsNodes g') (h' : g'.KeepsNodes g'') :
    g.KeepsNodes g'' := fun k l hk => by
  obtain ⟨l', hl', he⟩ := h k l hk
  obtain ⟨l'', hl'', he'⟩ := h' k l' hl'
  exact ⟨l'', hl'', he'.trans he⟩

theorem Grows.keepsNodes {roots : List Handle} (h : f.Grows f' roots) : f.KeepsNodes f' :=
  fun _ l hk => ⟨l, h.live?_of_live? hk, rfl⟩

theorem Bookkept.keepsNodes_store (hb : f.Bookkept) (node : Node) : f.KeepsNodes (f.store node) :=
  fun k l hk => by
    have hne : k ≠ f.nextHandle := fun h => by
      rw [h, hb.not_contains_nextHandle] at hk; cases hk
    rw [Forest.store, live?_claim, hb.live?_place, if_neg hne, hk]
    split_ifs
    · exact ⟨_, rfl, rfl⟩
    · exact ⟨l, rfl, rfl⟩

namespace Copies
variable {hs cs : List Handle}

theorem length_eq (hc : f.Copies g hs cs) : cs.length = hs.length := by
  induction hc with
  | nil => rfl
  | cons _ _ _ _ _ _ ih => simp [ih]

theorem mono (hc : f.Copies g hs cs) {g' : Forest} (hk : g.KeepsNodes g') : f.Copies g' hs cs := by
  induction hc with
  | nil => exact .nil
  | cons hl hm he _ _ ih₁ ih₂ =>
    obtain ⟨m', hm', he'⟩ := hk _ _ hm
    exact .cons hl hm' (he'.trans he) ih₁ ih₂

theorem append {ks ds : List Handle} (hc : f.Copies g hs cs) (kc : f.Copies g ks ds) :
    f.Copies g (hs ++ ks) (cs ++ ds) := by
  induction hc with
  | nil => exact kc
  | cons hl hm he hb _ _ ih => exact .cons hl hm he hb ih

theorem of_grows (hf : f.WellFormed) {roots : List Handle} (hg : f.Grows f' roots)
    (hc : f'.Copies g hs cs) (hh : ∀ h ∈ hs, f.contains h) : f.Copies g hs cs := by
  induction hc with
  | nil => exact .nil
  | @cons h c l m hs cs below hl hm he _ _ ih₁ ih₂ =>
    rw [hg.kept (hh h (by simp))] at hl
    refine .cons hl hm he (ih₁ fun c hc => ?_) (ih₂ fun h hm => hh h (by simp [hm]))
    exact contains_of_owns (hf.ownership.child hl hc).1

theorem kinds (hc : f.Copies g hs cs) : List.Forall₂
    (fun h c => ∃ l m, f.live? h = some l ∧ g.live? c = some m ∧ m.node.kind = l.node.kind)
    hs cs := by
  induction hc with
  | nil => exact .nil
  | cons hl hm he _ _ _ ih =>
    exact .cons ⟨_, _, hl, hm, by rw [he]; exact Payload.kind_withChildren _ _⟩ ih

end Copies

/-! ### Storing a copy -/

theorem exists_of_mem_zip {R : Handle → Handle → Prop} {field : Field} {c : Handle} :
    ∀ {es : List (Field × Handle)} {cs : List Handle}, List.Forall₂ R (es.map Prod.snd) cs →
      (field, c) ∈ (es.map Prod.fst).zip cs → ∃ h, (field, h) ∈ es ∧ R h c
  | [], _, _, hm => by simp at hm
  | (g, h) :: es, c' :: cs, .cons hr hall, hm => by
    rcases List.mem_cons.mp hm with he | hm
    · rw [Prod.mk.injEq] at he
      obtain ⟨rfl, rfl⟩ := he
      exact ⟨h, by simp, hr⟩
    · obtain ⟨h', hm', hr'⟩ := exists_of_mem_zip hall hm
      exact ⟨h', List.mem_cons_of_mem _ hm', hr'⟩

/-- **The copy of a node may be stored** over the copies of its children, when these are new roots. -/
theorem storable_copy (hf : f.WellFormed) {cs rest : List Handle} (hg : f.Grows g (cs ++ rest))
    {h : Handle} {l : LiveNode} (hl : f.live? h = some l) (hc : f.Copies g l.node.children cs) :
    g.Storable (l.node.withChildren cs) := by
  have hlen : cs.length = l.node.payload.children.length := hc.length_eq
  constructor
  case root =>
    intro field c hm
    rw [← Payload.mem_childFields, Node.payload_withChildren,
      Payload.childFields_withChildren hlen] at hm
    obtain ⟨k, hk, lk, m, hlk, hm', hkind⟩ := exists_of_mem_zip hc.kinds hm
    obtain ⟨n, hn⟩ := hg.root (List.mem_append_left rest (List.of_mem_zip hm).2)
    rw [hn] at hm'; cases hm'
    refine ⟨n, hn, ?_⟩
    rw [hkind]
    exact hf.ownership.category hl (Payload.mem_childFields.mp hk) hlk
  case nodup =>
    rw [Node.children_withChildren hlen]
    exact (List.nodup_append.mp hg.nodup).1
  case occupied =>
    intro field ho
    rw [Node.payload_withChildren] at ho ⊢
    rw [Payload.isOptional_eq_of_kind_eq (Payload.kind_withChildren _ _)]
    exact hf.ownership.occupied hl ((Payload.slot?_withChildren hlen field).mp ho)

/-! ### The stack machine -/

theorem copyNodes_cons {h : Handle} {l : LiveNode} (hl : g.live? h = some l) {cs : List Handle}
    (hlen : cs.length = l.node.children.length) (stack more : List Handle) :
    Edit.copyNodes (cs ++ stack) (h :: more) g =
      Edit.copyNodes (g.nextHandle :: stack) more
        (g.store (l.node.withChildren cs)) := by
  have hcopy := CopyStack.copyNode_eq_ok hl hlen stack
  simp only [Edit.copyNodes, bind, EStateM.bind, Edit.onRefusal, Edit.ask, hcopy, Edit.store]

/-- **The stack machine copies listings**: the copies of the first handles end up on the stack. -/
theorem copyNodes_listing (hf : f.WellFormed) {hs xs : List Handle} (hl : f.Listing hs xs) :
    ∀ {g : Forest} {stack : List Handle} (more : List Handle), g.WellFormed → f.Grows g stack →
      ∃ g' cs, Edit.copyNodes stack (xs.reverse ++ more) g = Edit.copyNodes (cs ++ stack) more g' ∧
        g'.WellFormed ∧ f.Grows g' (cs ++ stack) ∧ f.Copies g' hs cs ∧ g.KeepsNodes g' := by
  induction hl with
  | nil =>
    intro g stack more hg hgrow
    exact ⟨g, [], rfl, hg, hgrow, .nil, .refl g⟩
  | @cons h l rest below after hh _ _ ih₁ ih₂ =>
    intro g stack more hg hgrow
    -- the trees after this one, then the children, then the node itself
    obtain ⟨g₂, cs₂, hrun₂, hg₂, hgrow₂, hcopy₂, hkeep₂⟩ := ih₂ (below.reverse ++ h :: more) hg hgrow
    obtain ⟨g₁, cs₁, hrun₁, hg₁, hgrow₁, hcopy₁, hkeep₁⟩ := ih₁ (h :: more) hg₂ hgrow₂
    have hlen := hcopy₁.length_eq
    have hs := storable_copy hf hgrow₁ hh hcopy₁
    have hkeep := hg₁.books.keepsNodes_store (l.node.withChildren cs₁)
    have hgrow' : f.Grows g₁ ((l.node.withChildren cs₁).children ++ (cs₂ ++ stack)) := by
      rw [Node.children_withChildren hlen]; exact hgrow₁
    refine ⟨_, g₁.nextHandle :: cs₂, ?_, hg₁.store hs, hgrow'.store hg₁ hs, ?_, ?_⟩
    · rw [List.reverse_cons, List.reverse_append, List.append_assoc, List.append_assoc,
        List.singleton_append, hrun₂, hrun₁]
      exact copyNodes_cons (hgrow₁.live?_of_live? hh) hlen _ more
    · exact .cons hh (hs.live?_nextHandle hg₁.books) rfl (hcopy₁.mono hkeep)
        (hcopy₂.mono (hkeep₁.trans hkeep))
    · exact hkeep₂.trans (hkeep₁.trans hkeep)

/-! ### Copies of one node and of several -/

/-- **A copy of a live node is made** and grows one tree. -/
theorem copy_eq_ok (hf : f.WellFormed) {h : Handle} (hh : f.contains h) :
    ∃ c f', Edit.copy h f = .ok c f' ∧ f'.WellFormed ∧ f.Grows f' [c] ∧ f.Copies f' [h] [c] := by
  obtain ⟨xs, hl⟩ := exists_listing_of_contains hf hh
  obtain ⟨f', cs, hrun, hf', hgrow, hcopy, -⟩ := copyNodes_listing hf hl [] hf (.refl f)
  obtain ⟨c, rfl⟩ := List.length_eq_one_iff.mp hcopy.length_eq
  rw [List.append_nil] at hrun
  refine ⟨c, f', ?_, hf', hgrow, hcopy⟩
  simp only [Edit.copy, bind, EStateM.bind, Edit.ask, preorder_eq_ok hf hl, hrun]
  rfl

theorem copy_eq_error {h : Handle} (hh : f.live? h = none) :
    Edit.copy h f = .error (.staleNode h) f := by
  simp only [Edit.copy, bind, EStateM.bind, Edit.ask, preorder_eq_error hh]

end Forest

end SyntaxForest
