import SyntaxForest.Proofs.Displacing

/-! # Destruction is exact

Six operations destroy nodes: they give a field another content, or discard a tree. The nodes that go
are those of the displaced trees, each freed once. All other nodes stay, with the field and the owner
that the operation names rewritten, and all new nodes belong to the copies that came in
(`destruction_exact`). -/

namespace SyntaxForest

/-! ### Operations that destroy nodes -/

/-- The operations that destroy nodes. -/
inductive Destruction where
  | setSlot (parent : Handle) (field : Field) (child : Handle)
  | clearSlot (parent : Handle) (field : Field)
  | copySlotFrom (parent : Handle) (field : Field) (source : Handle) (sourceField : Field)
  | clearSeq (parent : Handle) (field : Field)
  | copySeqFrom (parent : Handle) (field : Field) (source : Handle) (sourceField : Field)
  | discard (h : Handle)
deriving DecidableEq, Repr

namespace Destruction

/-- Runs an operation that destroys nodes. -/
def run : Destruction → Edit Unit
  | setSlot p field c => Edit.setSlot p field c
  | clearSlot p field => Edit.clearSlot p field
  | copySlotFrom p field source sourceField => Edit.copySlotFrom p field source sourceField
  | clearSeq p field => Edit.clearSeq p field
  | copySeqFrom p field source sourceField => Edit.copySeqFrom p field source sourceField
  | discard h => Edit.discard h

/-- The field that gets another content, and its node. -/
def target? : Destruction → Option (Handle × Field)
  | setSlot p field _ | clearSlot p field | copySlotFrom p field _ _ | clearSeq p field
  | copySeqFrom p field _ _ => some (p, field)
  | discard _ => none

/-- The roots of the displaced trees: what stands in the field, or the node to discard. -/
def displaced (f : Forest) : Destruction → Except TreeError (List Handle)
  | setSlot p field _ | clearSlot p field | copySlotFrom p field _ _ =>
    return (← f.slot p field).toList
  | clearSeq p field | copySeqFrom p field _ _ => f.seq p field
  | discard h => return [h]

/-- The roots of the trees to copy. -/
def source (f : Forest) : Destruction → Except TreeError (List Handle)
  | copySlotFrom _ _ source sourceField => return (← f.slot source sourceField).toList
  | copySeqFrom _ _ source sourceField => f.seq source sourceField
  | _ => return []

/-- The nodes that were there before and are installed. -/
def adopted : Destruction → List Handle
  | setSlot _ _ c => [c]
  | _ => []

/-- A node that stays, afterwards: the field of the target has the adopted nodes and the copies, and
the adopted nodes have the target as their owner. -/
def rewritten (d : Destruction) (copies : List Handle) (k : Handle) (l : LiveNode) : LiveNode :=
  match d.target? with
  | none => l
  | some (p, field) =>
    { node :=
        if k = p then
          { l.node with payload := l.node.payload.withContent field (d.adopted ++ copies) }
        else l.node
      owner? := if k ∈ d.adopted then some p else l.owner? }

/-- **What a destruction does** from `f` to `f'`. The nodes `gone` go, and the entry of each is emptied
once. All other nodes stay, `rewritten`; the target and the adopted nodes are among them. The trees
below `originals` are copied, with the roots `copies`, and the nodes of the copies are `made`. -/
structure Exact (d : Destruction) (f f' : Forest) (gone originals copies made : List Handle) :
    Prop where
  nodup : gone.Nodup
  mem_gone : ∀ k, k ∈ gone ↔ f.contains k ∧ ¬ f'.contains k
  once : ∀ i, f'.timesEmptied i = f.timesEmptied i + if i ∈ gone.map Handle.index then 1 else 0
  kept : ∀ k l, f.live? k = some l → k ∉ gone → f'.live? k = some (d.rewritten copies k l)
  spared : ∀ k, k ∈ d.adopted ∨ (∃ field, d.target? = some (k, field)) → f.contains k ∧ k ∉ gone
  copied : f.Copies f' originals copies
  mem_made : ∀ k, k ∈ made ↔ f'.contains k ∧ ¬ f.contains k

end Destruction

namespace Forest

variable {f f' g f₁ : Forest} {p h k : Handle} {field : Field}
  {roots gone gone' outs made hs cs : List Handle}

/-! ### What is destroyed, kept and made -/

theorem Releases.exact {d : Destruction} (hr : f₁.Releases gone' f') (hp : gone'.Perm gone)
    (hlive : ∀ k ∈ gone, f.contains k) (ht : ∀ i, f₁.timesEmptied i = f.timesEmptied i)
    (hkept : ∀ k l, f.live? k = some l → k ∉ gone → f₁.live? k = some (d.rewritten cs k l))
    (hspared : ∀ k, k ∈ d.adopted ∨ (∃ field, d.target? = some (k, field)) →
      f.contains k ∧ k ∉ gone)
    (hc : f.Copies f' hs cs) (hmade : ∀ k, k ∈ made ↔ f₁.contains k ∧ ¬ f.contains k) :
    d.Exact f f' gone hs cs made := by
  have hview : ∀ k, f'.live? k = if k ∈ gone then none else f₁.live? k := fun k => by
    simp only [hr.live?_eq, hp.mem_iff]
  have hnd : gone.Nodup := hp.nodup_iff.mp hr.nodup
  have hkept' : ∀ k l, f.live? k = some l → k ∉ gone →
      f'.live? k = some (d.rewritten cs k l) := fun k l hl hk => by
    rw [hview, if_neg hk, hkept k l hl hk]
  refine ⟨hnd, fun k => ⟨fun hk => ⟨hlive k hk, ?_⟩, fun ⟨hk, hgone⟩ => ?_⟩, fun i => ?_, hkept',
    hspared, hc, fun k => ?_⟩
  · rw [not_contains_iff, hview, if_pos hk]
  · by_contra hnot
    obtain ⟨l, hl⟩ := contains_iff.mp hk
    exact hgone (contains_iff.mpr ⟨_, hkept' k l hl hnot⟩)
  · rw [hr.timesEmptied_eq, ht, (hp.map Handle.index).count_eq, (nodup_map_index hnd hlive).count]
  · rw [hmade]
    refine and_congr_left fun hnew => ?_
    rw [Forest.contains, Forest.contains, hview, if_neg fun hk => hnew (hlive k hk)]

/-- **A displacement is exact**, if what comes in was given to the operation or made by it. -/
theorem Displacement.exact {d : Destruction}
    (hd : Displacement f g f₁ p field roots (d.adopted ++ cs) outs cs) (hf : f.WellFormed)
    (htarget : d.target? = some (p, field)) (hold : ∀ c ∈ d.adopted, f.contains c)
    (hl : f.Listing roots gone) (hc : f.Copies g hs cs) (hm : g.Listing cs made) :
    d.Exact f (f₁.freeSubtrees roots) gone hs cs made := by
  obtain ⟨gone', hr, hp⟩ := hd.exists_releases hf hl
  refine hr.exact hp hl.live hd.timesEmptied (fun k l hk hgone => ?_) (fun k hk => ?_)
    (hc.congr hm (hd.counterparts_made hf hl hm)) fun k => hd.mem_made hf hm
  · -- what goes out was displaced, and copies are new
    have hout : k ∉ outs := fun hout => hgone ((mem_listing hf hl).mpr
      ⟨k, hd.exchange.outs k hout, under_refl f k⟩)
    have hcopy : k ∉ cs := fun hcs =>
      not_contains_iff.mpr (hd.grows.fresh hcs) (contains_iff.mpr ⟨l, hk⟩)
    rw [hd.live?_old hk, if_neg hout, Destruction.rewritten, htarget]
    simp only [List.mem_append, hcopy, or_false]
  · rcases hk with hk | ⟨field', hk⟩
    · exact ⟨hold k hk, hd.not_gone_of_mem hf hl (List.mem_append_left cs hk)⟩
    · cases htarget.symm.trans hk
      exact ⟨hd.live, hd.target_not_gone hf hl⟩

theorem exact_discard (hf : f.WellFormed) {n : Node} (hroot : f.live? h = some ⟨n, none⟩)
    (hl : f.Listing [h] gone) :
    (Destruction.discard h).Exact f (f.freeSubtrees [h]) gone [] [] [] := by
  have hloose : f.Ownership [h] := hf.ownership.loosen_root hroot
  obtain ⟨gone', hr, hp⟩ := exists_releases_perm hf.books hloose (nodup_preorder hf hl) fun k =>
    (mem_listing hf hl).trans ⟨fun hu => ⟨hl.live k ((mem_listing hf hl).mpr hu), hu⟩, And.right⟩
  exact hr.exact hp hl.live (fun _ => rfl) (fun k l hk _ => hk)
    (by simp [Destruction.adopted, Destruction.target?]) .nil (by simp)

end Forest

open Forest

/-- All destructions but `discard` displace the content of their target. -/
theorem Destruction.exists_displacement {f f' : Forest} {p : Handle} {field : Field}
    (hf : f.WellFormed) {d : Destruction} (htarget : d.target? = some (p, field))
    (hr : d.run f = .ok () f') : ∃ g f₁ roots hs cs outs, d.displaced f = .ok roots ∧
      d.source f = .ok hs ∧ (∀ c ∈ d.adopted, f.contains c) ∧ f.Copies g hs cs ∧
      Displacement f g f₁ p field roots (d.adopted ++ cs) outs cs ∧ f' = f₁.freeSubtrees roots := by
  cases d with
  | setSlot _ _ c =>
    cases htarget
    obtain ⟨l, -, hl, -⟩ := Edit.setSlot_eq_ok hf hr
    obtain ⟨f₁, o, ho, hd, hfree⟩ := Edit.displacement_setSlot (contains_iff.mpr ⟨l, hl⟩) (.refl f)
      hf (fun _ => rfl) hr
    obtain ⟨-, ⟨n, hn, -⟩, -⟩ := hd.exchange.ins c List.mem_cons_self
    have hold : ∀ k ∈ [c], f.contains k :=
      List.forall_mem_singleton.mpr (contains_iff.mpr ⟨_, hn⟩)
    exact ⟨f, f₁, _, [], [], [], Except.bind_eq_ok.mpr ⟨o, ho, rfl⟩, rfl, hold, .nil, hd, hfree⟩
  | clearSlot =>
    cases htarget
    obtain ⟨f₁, o, ho, hd, hfree⟩ := Edit.displacement_clearSlot hf hr
    exact ⟨f, f₁, _, [], [], _, Except.bind_eq_ok.mpr ⟨o, ho, rfl⟩, rfl, nofun, .nil, hd, hfree⟩
  | copySlotFrom =>
    cases htarget
    obtain ⟨g, f₁, o, s, ys, outs, ho, hs, hc, hd, hfree⟩ := Edit.displacement_copySlotFrom hf hr
    exact ⟨g, f₁, _, _, ys, outs, Except.bind_eq_ok.mpr ⟨o, ho, rfl⟩,
      Except.bind_eq_ok.mpr ⟨s, hs, rfl⟩, nofun, hc, hd, hfree⟩
  | clearSeq =>
    cases htarget
    obtain ⟨f₁, xs, hxs, hd, hfree⟩ := Edit.displacement_clearSeq hf hr
    exact ⟨f, f₁, xs, [], [], [], hxs, rfl, nofun, .nil, hd, hfree⟩
  | copySeqFrom =>
    cases htarget
    obtain ⟨g, f₁, xs, hs, ys, hxs, hhs, hc, hd, hfree⟩ := Edit.displacement_copySeqFrom hf hr
    exact ⟨g, f₁, xs, hs, ys, [], hxs, hhs, nofun, hc, hd, hfree⟩
  | discard => cases htarget

namespace Forest

/-- **Destructions are exact**, in every forest that a run reaches. An operation that is accepted
displaces the content of its field, or the node to discard: what goes are the nodes in the preorders
of the displaced roots. What is made are the nodes in the preorders of the copies that it installs. -/
theorem destruction_exact (steps : List Step) (d : Destruction) {f' : Forest}
    (hr : d.run (empty.run steps) = .ok () f') : ∃ roots trees originals copies made,
      d.displaced (empty.run steps) = .ok roots ∧
      roots.mapM (empty.run steps).preorder = .ok trees ∧
      d.source (empty.run steps) = .ok originals ∧ copies.mapM f'.preorder = .ok made ∧
      d.Exact (empty.run steps) f' trees.flatten originals copies made.flatten := by
  have hf : (empty.run steps).WellFormed := wellFormed_run steps wellFormed_empty
  generalize empty.run steps = f at *
  cases htarget : d.target? with
  | some target =>
    obtain ⟨p, field⟩ := target
    obtain ⟨g, f₁, roots, hs, cs, outs, hroots, hsource, hold, hc, hd, rfl⟩ :=
      d.exists_displacement hf htarget hr
    obtain ⟨gone, hl⟩ := exists_listing hf fun a ha => contains_of_owns (hd.owns hf ha)
    obtain ⟨new, hm⟩ := exists_listing hd.wellFormed fun r hr => hd.grows.contains_root hr
    have hf' : (f₁.freeSubtrees roots).WellFormed := by
      rw [freeSubtrees_eq]
      exact wellFormed_freeAll hd.books hd.ownership
    have hm' : (f₁.freeSubtrees roots).Listing cs new := by
      simpa using (hd.counterparts_made hf hl hm).listing hm
    obtain ⟨trees, htrees, rfl⟩ := hl.mapM_preorder hf
    obtain ⟨made, hmade, rfl⟩ := hm'.mapM_preorder hf'
    exact ⟨roots, trees, hs, cs, made, hroots, htrees, hsource, hmade,
      hd.exact hf htarget hold hl hc hm⟩
  | none =>
    obtain ⟨h, rfl⟩ : ∃ h, d = .discard h := by
      cases d <;> first | exact ⟨_, rfl⟩ | cases htarget
    obtain ⟨n, hroot, rfl⟩ := Edit.discard_eq_ok hr
    obtain ⟨gone, hl⟩ := exists_listing_of_contains hf (contains_iff.mpr ⟨_, hroot⟩)
    obtain ⟨trees, htrees, hgone⟩ := hl.mapM_preorder hf
    exact ⟨[h], trees, [], [], [], rfl, htrees, rfl, rfl, hgone ▸ exact_discard hf hroot hl⟩

/-- A block gets copies of the statements of a block that stands in it: the inner block goes, with
the statement that was copied. -/
theorem destruction_exact_nested_block : ∃ f' copies made,
    (Destruction.copySeqFrom ⟨3, 0⟩ .statements ⟨2, 0⟩ .statements).run
      (empty.run [.operate (.name "a"), .operate (.expressionStatement ⟨0, 0⟩),
        .operate (.block [⟨1, 0⟩]), .operate (.block [⟨2, 0⟩])]) = .ok () f' ∧
    (Destruction.copySeqFrom ⟨3, 0⟩ .statements ⟨2, 0⟩ .statements).Exact
      (empty.run [.operate (.name "a"), .operate (.expressionStatement ⟨0, 0⟩),
        .operate (.block [⟨1, 0⟩]), .operate (.block [⟨2, 0⟩])]) f'
      [⟨2, 0⟩, ⟨1, 0⟩, ⟨0, 0⟩] [⟨1, 0⟩] copies made ∧
    f'.live? ⟨3, 0⟩ = some ⟨⟨.block copies, none, none⟩, none⟩ := by
  obtain ⟨f', hrun⟩ : ∃ f', (Destruction.copySeqFrom ⟨3, 0⟩ .statements ⟨2, 0⟩ .statements).run
      (empty.run [.operate (.name "a"), .operate (.expressionStatement ⟨0, 0⟩),
        .operate (.block [⟨1, 0⟩]), .operate (.block [⟨2, 0⟩])]) = .ok () f' := ⟨_, rfl⟩
  obtain ⟨roots, trees, originals, copies, made, hroots, htrees, hsource, -, hexact⟩ :=
    destruction_exact [.operate (.name "a"), .operate (.expressionStatement ⟨0, 0⟩),
      .operate (.block [⟨1, 0⟩]), .operate (.block [⟨2, 0⟩])]
      (.copySeqFrom ⟨3, 0⟩ .statements ⟨2, 0⟩ .statements) hrun
  obtain rfl : [⟨2, 0⟩] = roots := Except.ok.inj hroots
  obtain rfl : [[⟨2, 0⟩, ⟨1, 0⟩, ⟨0, 0⟩]] = trees := Except.ok.inj htrees
  obtain rfl : [⟨1, 0⟩] = originals := Except.ok.inj hsource
  exact ⟨f', copies, made.flatten, hrun, hexact, hexact.kept ⟨3, 0⟩ _ rfl (by decide)⟩

end Forest

end SyntaxForest
