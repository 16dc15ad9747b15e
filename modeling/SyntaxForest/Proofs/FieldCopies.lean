import SyntaxForest.Proofs.Displacing

/-! # Copies in a field

A field can be filled with copies of what another field holds. The two fields may overlap in any way:
they may be the same one, the source may stand in what the copies displace, and the field that is
filled may be below one of the trees that are copied. All copies are made before anything else is
touched, and what is freed then was there before, so the copies are those of the trees as they were
(`Displacement.exists_copiedBelow`), and the field holds them and nothing else
(`Displacement.slot_after`, `Displacement.seq_after`). -/

namespace SyntaxForest.Forest

variable {f f' g f₁ : Forest} {p k : Handle} {field : Field}
  {hs cs xs ys roots gone outs : List Handle} {φ : Handle → Handle}

/-! ### Counterparts of several trees -/

theorem Counterparts.kept (hc : f.Counterparts g xs φ) (hk : g.Counterparts f' (xs.map φ) id) :
    f.Counterparts f' xs φ := fun x hx => by
  obtain ⟨l, m, hl, hm, hnode⟩ := hc x hx
  obtain ⟨m₀, m', hm₀, hm', hsame⟩ := hk (φ x) (List.mem_map_of_mem hx)
  cases hm.symm.trans hm₀
  exact ⟨l, m', hl, hm', by rw [hsame, Node.mapChildren_id, hnode]⟩

/-- **The preorders of several trees** go over into those of the counterparts, tree by tree. -/
theorem Counterparts.mapM_preorder (hc : f.Counterparts f' xs φ) (hf : f.WellFormed)
    (hf' : f'.WellFormed) (hl : f.Listing hs xs) : ∃ trees, hs.mapM f.preorder = .ok trees ∧
      (hs.map φ).mapM f'.preorder = .ok (trees.map (List.map φ)) ∧ trees.flatten = xs := by
  induction hl with
  | nil => exact ⟨[], rfl, rfl, rfl⟩
  | @cons h l rest below after hlive hbelow _ _ ih =>
    have hfirst : f.Listing [h] (h :: below) := by
      simpa using Listing.cons hlive hbelow .nil
    have hcut : h :: (below ++ after) = (h :: below) ++ after := rfl
    rw [hcut] at hc ⊢
    have hc₁ : f.Counterparts f' (h :: below) φ := fun x hx => hc x (List.mem_append_left after hx)
    obtain ⟨trees, htrees, hcopies, rfl⟩ := ih fun x hx => hc x (List.mem_append_right _ hx)
    have hfirst' : f'.Listing [φ h] ((h :: below).map φ) := hc₁.listing hfirst
    refine ⟨(h :: below) :: trees, ?_, ?_, rfl⟩
    · rw [List.mapM_cons, preorder_eq_ok hf hfirst, htrees]
      rfl
    · rw [List.map_cons, List.mapM_cons, preorder_eq_ok hf' hfirst', hcopies]
      rfl

theorem WellFormed.nodup_below_content (hf : f.WellFormed) {l : LiveNode} (hl : f.live? p = some l)
    (hx : f.Listing (l.node.payload.content field) xs) : xs.Nodup := by
  refine nodup_listing hf hx ?_ fun a ha b hb hu => ?_
  · exact (Payload.nodup_children.mp (hf.ownership.nodup hl)).1 field
  · exact hf.ownership.eq_of_under_sibling hl (Payload.mem_children.mpr ⟨field, ha⟩)
      (Payload.mem_children.mpr ⟨field, hb⟩) hu

/-! ### After a displacement -/

/-- **Copies below a node**: the trees below the first handles have the nodes `trees`, each in its
preorder, and `φ` takes them to new trees, whose roots `p` owns. A node of a copy has the payload, the
type and the source range of its original, over the copies of the children. -/
structure CopiedBelow (f f' : Forest) (p : Handle) (hs : List Handle) (trees : List (List Handle))
    (φ : Handle → Handle) : Prop where
  originals : hs.mapM f.preorder = .ok trees
  copies : (hs.map φ).mapM f'.preorder = .ok (trees.map (List.map φ))
  nodes : ∀ x ∈ trees.flatten, ∃ n, f.node x = .ok n ∧ (∀ k ∈ n.children, k ∈ trees.flatten) ∧
    f'.node (φ x) = .ok (n.mapChildren φ)
  owner : ∀ h ∈ hs, f'.owner? (φ h) = .ok (some p)
  nodup : (trees.flatten.map φ).Nodup
  fresh : ∀ x ∈ trees.flatten, ¬ f.contains (φ x)
  apart : trees.flatten.Disjoint (trees.flatten.map φ)

namespace Displacement

section
variable (hd : Displacement f g f₁ p field roots ys outs cs)
include hd

theorem wellFormed_freed : (f₁.freeSubtrees roots).WellFormed := by
  rw [freeSubtrees_eq]
  exact wellFormed_freeAll hd.books hd.ownership

variable (hf : f.WellFormed)
include hf

theorem live?_kept (hl : f.Listing roots gone) (hk : k ∉ gone) :
    (f₁.freeSubtrees roots).live? k = f₁.live? k := by
  obtain ⟨gone', hr, hp⟩ := hd.exists_releases hf hl
  rw [hr.live?_eq, if_neg fun hm => hk (hp.mem_iff.mp hm)]

theorem exists_target {l : LiveNode} (hl : f.live? p = some l) :
    ∃ m, (f₁.freeSubtrees roots).live? p = some m ∧
      m.node.payload = l.node.payload.withContent field ys := by
  obtain ⟨gone, hgone⟩ := exists_listing hf fun a ha => contains_of_owns (hd.owns hf ha)
  rw [hd.live?_kept hf hgone (hd.target_not_gone hf hgone), hd.live?_old hl]
  exact ⟨_, rfl, by rw [if_pos rfl]⟩

theorem slot_after {o : Option Handle} (ho : f.slot p field = .ok o) :
    (f₁.freeSubtrees roots).slot p field = .ok ys.head? := by
  obtain ⟨l, hl, hs⟩ := slot_eq_ok.mp ho
  obtain ⟨m, hm, hpayload⟩ := hd.exists_target hf hl
  exact slot_eq_ok.mpr ⟨m, hm, by rw [hpayload, Payload.slot?_withContent hs]⟩

theorem seq_after (hx : f.seq p field = .ok xs) :
    (f₁.freeSubtrees roots).seq p field = .ok ys := by
  obtain ⟨l, hl, hs⟩ := seq_eq_ok.mp hx
  obtain ⟨m, hm, hpayload⟩ := hd.exists_target hf hl
  exact seq_eq_ok.mpr ⟨m, hm, by rw [hpayload, Payload.seq?_withContent hs]⟩

theorem owner_after {c : Handle} (hc : c ∈ ys) :
    (f₁.freeSubtrees roots).owner? c = .ok (some p) := by
  obtain ⟨gone, hgone⟩ := exists_listing hf fun a ha => contains_of_owns (hd.owns hf ha)
  have ho : f₁.owns p c := hd.exchange.owns_of_ins hd.wellFormed.ownership hc
  obtain ⟨n, hn⟩ := owns_iff.mp ho
  rw [← hd.live?_kept hf hgone (hd.not_gone_of_mem hf hgone hc)] at hn
  exact owner?_eq_ok.mpr ⟨_, hn, rfl⟩

end

/-- **What was copied from a field and then put in another one** are the trees as they were before. -/
theorem exists_copiedBelow (hd : Displacement f g f₁ p field roots cs outs cs) (hf : f.WellFormed)
    {source : Handle} {sourceField : Field} {l : LiveNode} (hsource : f.live? source = some l)
    (hc : f.Copies g (l.node.payload.content sourceField) cs) :
    ∃ φ trees, (l.node.payload.content sourceField).map φ = cs ∧
      f.CopiedBelow (f₁.freeSubtrees roots) p (l.node.payload.content sourceField) trees φ := by
  obtain ⟨xs, hl⟩ := exists_listing hf fun a ha => contains_of_owns (hf.owns_of_content hsource ha)
  obtain ⟨gone, hgone⟩ := exists_listing hf fun a ha => contains_of_owns (hd.owns hf ha)
  obtain ⟨made, hmade, hlen, hcounter⟩ := hc.listing hl
  obtain ⟨φ, rfl⟩ := exists_map_eq (hf.nodup_below_content hsource hl) hlen
  obtain ⟨rfl, hcopy⟩ := hcounter φ rfl
  have hkept : f.Counterparts (f₁.freeSubtrees roots) xs φ :=
    hcopy.kept (hd.counterparts_made hf hgone hmade)
  have hfresh : ∀ x ∈ xs, ¬ f.contains (φ x) := fun x hx =>
    ((hd.mem_made hf hmade).mp (List.mem_map_of_mem hx)).2
  obtain ⟨trees, htrees, hcopies, rfl⟩ := hkept.mapM_preorder hf hd.wellFormed_freed hl
  refine ⟨φ, trees, rfl, htrees, hcopies, fun x hx => ?_, fun h hh => ?_, ?_, hfresh, ?_⟩
  · obtain ⟨l, m, hlive, hm, hnode⟩ := hkept x hx
    exact ⟨l.node, node_eq_ok.mpr ⟨l, hlive, rfl⟩, fun k hk => hl.child_mem hf hx hlive hk,
      node_eq_ok.mpr ⟨m, hm, hnode⟩⟩
  · exact hd.owner_after hf (List.mem_map_of_mem hh)
  · -- the copies are roots when they are made
    refine nodup_listing hd.wellFormed hmade hd.grows.nodup fun a ha b hb hu => ?_
    obtain ⟨n, hn⟩ := hd.grows.root ha
    exact (hu.eq_of_root hn).symm
  · intro x hx hx'
    obtain ⟨y, hy, rfl⟩ := List.mem_map.mp hx'
    exact hfresh y hy (hl.live _ hx)

end Displacement

/-! ### Copies between fields -/

/-- **Copying from field to field**, in every forest that a run reaches and however the fields
overlap. A copy that is accepted leaves in the slot, or in the sequence, the copies of what the source
held before, in their order: new nodes, none of which was live, equal to the originals node by node,
and owned by the node with the field. An empty source leaves a slot empty, which then may be empty,
or the sequence. -/
theorem field_copied (steps : List Step) {p source : Handle} {field sourceField : Field}
    {f' : Forest} :
    (Edit.copySlotFrom p field source sourceField (empty.run steps) = .ok () f' →
      ∃ o φ trees, (empty.run steps).slot source sourceField = .ok o ∧
        f'.slot p field = .ok (o.map φ) ∧
        (o = none → (empty.run steps).slotIsOptional p field = .ok true) ∧
        (empty.run steps).CopiedBelow f' p o.toList trees φ) ∧
    (Edit.copySeqFrom p field source sourceField (empty.run steps) = .ok () f' →
      ∃ hs φ trees, (empty.run steps).seq source sourceField = .ok hs ∧
        f'.seq p field = .ok (hs.map φ) ∧
        (empty.run steps).CopiedBelow f' p hs trees φ) := by
  have hf : (empty.run steps).WellFormed := wellFormed_run steps wellFormed_empty
  generalize empty.run steps = f at *
  constructor
  · intro hr
    obtain ⟨g, f₁, o, s, ys, outs, ho, hs, hc, hd, rfl⟩ := Edit.displacement_copySlotFrom hf hr
    obtain ⟨l, hl, hslot⟩ := slot_eq_ok.mp hs
    have hcontent := Payload.content_of_slot? hslot
    rw [← hcontent] at hc
    obtain ⟨φ, trees, rfl, hcopied⟩ := hd.exists_copiedBelow hf hl hc
    rw [hcontent] at hcopied
    refine ⟨s, φ, trees, hs, ?_, fun hnone => ?_, hcopied⟩
    · rw [hd.slot_after hf ho, hcontent]
      cases s <;> rfl
    -- nothing is copied: the slot was cleared
    · obtain ⟨-, -, s', hs', ⟨-, hclear⟩ | ⟨c, -, -, rfl, -⟩⟩ := Edit.copySlotFrom_eq_ok hf hr
      · obtain ⟨l, o', hl, hslot, hopt, -⟩ := Edit.clearSlot_eq_ok hclear
        exact slotIsOptional_eq_ok.mpr ⟨l, o', hl, hslot, hopt⟩
      · cases hnone
        cases hs.symm.trans hs'
  · intro hr
    obtain ⟨g, f₁, ps, hs, ys, hp, hs', hc, hd, rfl⟩ := Edit.displacement_copySeqFrom hf hr
    obtain ⟨l, hl, hseq⟩ := seq_eq_ok.mp hs'
    obtain rfl := Payload.content_of_seq? hseq
    obtain ⟨φ, trees, rfl, hcopied⟩ := hd.exists_copiedBelow hf hl hc
    exact ⟨_, φ, trees, hs', hd.seq_after hf hp, hcopied⟩

/-- A statement gets a copy of its own expression; and a block that stands in another one gets a copy
of all statements of the other one, which is a copy of itself. -/
theorem field_copied_overlapping : ∃ f f₁ f₂ : Forest, ∃ φ ψ : Handle → Handle,
    f = empty.run [.operate (.name "a"), .operate (.expressionStatement ⟨0, 0⟩),
      .operate (.block [⟨1, 0⟩]), .operate (.block [⟨2, 0⟩])] ∧
    Edit.copySlotFrom ⟨1, 0⟩ .expression ⟨1, 0⟩ .expression f = .ok () f₁ ∧
    f₁.slot ⟨1, 0⟩ .expression = .ok (some (φ ⟨0, 0⟩)) ∧
    f.CopiedBelow f₁ ⟨1, 0⟩ [⟨0, 0⟩] [[⟨0, 0⟩]] φ ∧
    Edit.copySeqFrom ⟨2, 0⟩ .statements ⟨3, 0⟩ .statements f = .ok () f₂ ∧
    f₂.seq ⟨2, 0⟩ .statements = .ok [ψ ⟨2, 0⟩] ∧
    f.CopiedBelow f₂ ⟨2, 0⟩ [⟨2, 0⟩] [[⟨2, 0⟩, ⟨1, 0⟩, ⟨0, 0⟩]] ψ := by
  have hslot : ∃ f₁, Edit.copySlotFrom ⟨1, 0⟩ .expression ⟨1, 0⟩ .expression
      (empty.run [.operate (.name "a"), .operate (.expressionStatement ⟨0, 0⟩),
        .operate (.block [⟨1, 0⟩]), .operate (.block [⟨2, 0⟩])]) = .ok () f₁ := ⟨_, rfl⟩
  have hseq : ∃ f₂, Edit.copySeqFrom ⟨2, 0⟩ .statements ⟨3, 0⟩ .statements
      (empty.run [.operate (.name "a"), .operate (.expressionStatement ⟨0, 0⟩),
        .operate (.block [⟨1, 0⟩]), .operate (.block [⟨2, 0⟩])]) = .ok () f₂ := ⟨_, rfl⟩
  obtain ⟨f₁, hr₁⟩ := hslot
  obtain ⟨f₂, hr₂⟩ := hseq
  obtain ⟨o, φ, trees₁, ho, ho', -, hcopied₁⟩ := (field_copied _).1 hr₁
  obtain ⟨hs, ψ, trees₂, hhs, hhs', hcopied₂⟩ := (field_copied _).2 hr₂
  obtain rfl : some ⟨0, 0⟩ = o := Except.ok.inj ho
  obtain rfl : [⟨2, 0⟩] = hs := Except.ok.inj hhs
  obtain rfl : [[⟨0, 0⟩]] = trees₁ := Except.ok.inj hcopied₁.originals
  obtain rfl : [[⟨2, 0⟩, ⟨1, 0⟩, ⟨0, 0⟩]] = trees₂ := Except.ok.inj hcopied₂.originals
  exact ⟨_, f₁, f₂, φ, ψ, rfl, hr₁, ho', hcopied₁, hr₂, hhs', hcopied₂⟩

end SyntaxForest.Forest
