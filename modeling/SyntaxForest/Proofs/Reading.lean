import SyntaxForest.Proofs.Ancestry
import SyntaxForest.Proofs.Copying
import SyntaxForest.Proofs.SourceText

/-! # Readers

A reader of a tree goes from a node to its children, and asks the slots that have to be occupied for
their occupants. In a well-formed forest it never comes to a stale handle or an empty slot: the
preorder of a live node is closed under both ways down (`Listing.readable`). So no question about the
tree below a live node is refused, and neither is a copy of it.

* `reading_never_refused`: the readers answer, in every forest that a run reaches. -/

namespace SyntaxForest.Forest

variable {f : Forest} {h : Handle}

/-! ### Ways down -/

/-- **A readable node** of a list of nodes: what a reader goes on to from there is in the list. -/
structure Readable (f : Forest) (xs : List Handle) (x : Handle) : Prop where
  live : f.contains x
  children : ∃ cs, f.children x = .ok cs ∧ ∀ c ∈ cs, c ∈ xs
  required : ∀ field, f.slotIsOptional x field = .ok false →
    ∃ c ∈ xs, f.required x field = .ok c

/-- **The nodes of a listing are readable.** -/
theorem Listing.readable (hf : f.WellFormed) {hs xs : List Handle} (hl : f.Listing hs xs) :
    ∀ x ∈ xs, f.Readable xs x := by
  intro x hx
  have hlive := hl.live x hx
  obtain ⟨l, hxl⟩ := contains_iff.mp hlive
  refine ⟨hlive, ⟨_, children_eq_ok.mpr ⟨l, hxl, rfl⟩, fun c hc => hl.child_mem hf hx hxl hc⟩, ?_⟩
  intro field hmandatory
  obtain ⟨l', o, hxl', hslot, hopt⟩ := slotIsOptional_eq_ok.mp hmandatory
  cases hxl.symm.trans hxl'
  obtain ⟨c, rfl, hrequired⟩ := hf.exists_required hxl field hslot hopt
  have hc : c ∈ l.node.children :=
    Payload.mem_children.mpr ⟨field, Payload.mem_content_of_slot? hslot⟩
  exact ⟨c, hl.child_mem hf hx hxl hc, hrequired⟩

/-! ### Operands -/

theorem exists_operands (hf : f.WellFormed) (hk : f.kind h = .ok .chain) :
    ∃ left right others, f.leftOperand h = .ok left ∧ f.rightOperand h = .ok right ∧
      f.extendedOperands h = .ok others ∧ f.operands h = .ok (left :: right :: others) := by
  obtain ⟨⟨⟨p, type?, span?⟩, owner?⟩, hl, hkind⟩ := kind_eq_ok.mp hk
  cases p with
  | chain o left? right? others =>
    have hoperator : f.operator h = .ok o :=
      Except.bind_eq_ok.mpr ⟨_, payload_eq_ok.mpr ⟨_, hl, rfl⟩, rfl⟩
    obtain ⟨left, rfl, hleft⟩ := hf.exists_required hl .leftOperand rfl rfl
    obtain ⟨right, rfl, hright⟩ := hf.exists_required hl .rightOperand rfl rfl
    have hothers : f.seq h .extendedOperands = .ok others := seq_eq_ok.mpr ⟨_, hl, rfl⟩
    have hchildren : f.children h = .ok (left :: right :: others) :=
      children_eq_ok.mpr ⟨_, hl, by simp [Node.children, Payload.children, Payload.childFields]⟩
    exact ⟨left, right, others, Except.bind_eq_ok.mpr ⟨o, hoperator, hleft⟩,
      Except.bind_eq_ok.mpr ⟨o, hoperator, hright⟩, Except.bind_eq_ok.mpr ⟨o, hoperator, hothers⟩,
      Except.bind_eq_ok.mpr ⟨o, hoperator, hchildren⟩⟩
  | _ => cases hkind

/-! ### Source texts -/

theorem exists_sourceText (hf : f.WellFormed) (hh : f.contains h) :
    ∃ text, f.sourceText h = .ok text := by
  obtain ⟨l, hl⟩ := contains_iff.mp hh
  obtain ⟨t, ht⟩ := exists_fragment hf (kind_eq_ok.mpr ⟨l, hl, rfl⟩)
  exact ⟨_, sourceText_eq_ok ht⟩

/-! ### Reading in a run -/

/-- **Readers are never refused on a live node**, in every forest that a run reaches: the node has a
source text, a copy of it can be made, its tree has a root, it has children and a preorder, and if it
is a chain, it has its operands. No reader meets a stale handle or an empty slot on its way, since
all nodes of the preorder are readable. -/
theorem reading_never_refused (steps : List Step) {h : Handle}
    (hh : (empty.run steps).contains h) :
    (∃ text, (empty.run steps).sourceText h = .ok text) ∧
    (∃ c f', Edit.copy h (empty.run steps) = .ok c f') ∧
    (∃ r, (empty.run steps).rootOf h = .ok r) ∧
    (∃ cs, (empty.run steps).children h = .ok cs) ∧
    (∃ xs, (empty.run steps).preorder h = .ok xs ∧ h ∈ xs ∧
      ∀ x ∈ xs, (empty.run steps).Readable xs x) ∧
    ((empty.run steps).kind h = .ok .chain → ∃ left right others,
      (empty.run steps).leftOperand h = .ok left ∧ (empty.run steps).rightOperand h = .ok right ∧
      (empty.run steps).extendedOperands h = .ok others ∧
      (empty.run steps).operands h = .ok (left :: right :: others)) := by
  have hf := wellFormed_run steps wellFormed_empty
  obtain ⟨c, f', hcopy, -⟩ := copy_eq_ok hf hh
  obtain ⟨r, hroot, -⟩ := rootOf_eq_ok hf hh
  obtain ⟨below, hl, hpreorder⟩ := exists_preorder hf hh
  have hreadable := hl.readable hf
  obtain ⟨cs, hchildren, -⟩ := (hreadable h List.mem_cons_self).children
  exact ⟨exists_sourceText hf hh, ⟨c, f', hcopy⟩, ⟨r, hroot⟩, ⟨cs, hchildren⟩,
    ⟨_, hpreorder, List.mem_cons_self, hreadable⟩, exists_operands hf⟩

/-- The left operand of a sum can be replaced but not taken out, and all three operands can be
read. -/
theorem reading_never_refused_sum :
    ∃ f, f = empty.run [.operate (.name "a"), .operate (.name "b"),
        .operate (.chain none .plus ⟨0, 0⟩ ⟨1, 0⟩), .operate (.name "c"),
        .operate (.push ⟨2, 0⟩ .extendedOperands ⟨3, 0⟩), .operate (.null),
        .operate (.replace ⟨0, 0⟩ ⟨4, 0⟩), .operate (.take ⟨2, 0⟩ .leftOperand)] ∧
      f.contains ⟨2, 0⟩ ∧ f.kind ⟨2, 0⟩ = .ok .chain ∧ f.leftOperand ⟨2, 0⟩ = .ok ⟨4, 0⟩ ∧
      f.operands ⟨2, 0⟩ = .ok [⟨4, 0⟩, ⟨1, 0⟩, ⟨3, 0⟩] ∧ ∃ text, f.sourceText ⟨2, 0⟩ = .ok text := by
  refine ⟨_, rfl, rfl, rfl, ?_⟩
  obtain ⟨htext, -, -, -, -, hchain⟩ := reading_never_refused [.operate (.name "a"),
    .operate (.name "b"), .operate (.chain none .plus ⟨0, 0⟩ ⟨1, 0⟩), .operate (.name "c"),
    .operate (.push ⟨2, 0⟩ .extendedOperands ⟨3, 0⟩), .operate (.null),
    .operate (.replace ⟨0, 0⟩ ⟨4, 0⟩), .operate (.take ⟨2, 0⟩ .leftOperand)] (h := ⟨2, 0⟩) rfl
  obtain ⟨left, right, others, hleft, hright, hothers, hoperands⟩ := hchain rfl
  obtain rfl : ⟨4, 0⟩ = left := by cases hleft; rfl
  obtain rfl : ⟨1, 0⟩ = right := by cases hright; rfl
  obtain rfl : [⟨3, 0⟩] = others := by cases hothers; rfl
  exact ⟨hleft, hoperands, htext⟩

end SyntaxForest.Forest
