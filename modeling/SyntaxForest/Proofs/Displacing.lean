import SyntaxForest.Proofs.Ancestry
import SyntaxForest.Proofs.Effects
import SyntaxForest.Proofs.Rereading

/-! # What is displaced

An operation that destroys nodes may have made copies before, and it has given the field its new
content, when it frees the nodes that stood there. Below these nodes all is still as it was before
the operation (`Displacement.under_iff`). So the trees that are freed are those that the operation
found there, and each of their nodes is freed once (`Displacement.exists_releases`); what came in is
in none of them (`Displacement.not_gone_of_mem`), and what was made stays as it was made
(`Displacement.counterparts_made`). -/

namespace SyntaxForest.Forest

variable {f f' g f₁ : Forest} {p a c k : Handle} {field : Field}
  {roots stack gone xs ys ins outs loose grown made hs cs : List Handle}

/-! ### Below old nodes -/

theorem Under.contains_of_contains (hu : f.Under k a) (ha : f.contains a) : f.contains k := by
  rcases hu.cases_head with rfl | ⟨c, ho, -⟩
  · exact ha
  · exact contains_of_owns ho

theorem Grows.owns_old (hg : f.Grows g roots) (hf : f.WellFormed) (hp : f.contains p)
    (ho : g.owns p c) : f.owns p c := by
  suffices hc : f.contains c by rwa [owns_congr (hg.kept hc)] at ho
  by_contra hnew
  obtain ⟨r, hr, hu⟩ := (hg.under (contains_of_owns ho)).resolve_left hnew
  -- a new root has no owner, and what is under it is new
  rcases (Under.of_owner ho).mp hu with rfl | hu
  · obtain ⟨n, hn⟩ := hg.root hr
    exact not_owns_of_root hn ho
  · exact hg.not_contains_of_under hf hr hu hp

theorem Grows.under_iff (hg : f.Grows g roots) (hf : f.WellFormed) (ha : f.contains a) :
    g.Under k a ↔ f.Under k a := by
  refine ⟨fun hu => ?_, fun hu => hu.mono hg.owns⟩
  induction hu using Relation.ReflTransGen.head_induction_on with
  | refl => exact under_refl f a
  | head ho _ ih => exact ih.head (hg.owns_old hf (ih.contains_of_contains ha) ho)

/-- **An exchange leaves the trees alone that it takes out of the field.** -/
theorem Exchange.under_iff (hx : f.Exchange f' p field xs ys ins outs loose) (hf : f.Ownership [])
    (ha : a ∈ xs) : f'.Under k a ↔ f.Under k a := by
  have hnot : ¬ f.Under p a := hf.not_under (hx.owns_of_mem hf ha)
  -- neither what comes in nor what goes out is below `a`, as `p` is not
  constructor
  · intro hu
    induction hu using Relation.ReflTransGen.head_induction_on with
    | refl => exact under_refl f a
    | @head c q ho _ ih =>
      obtain ⟨-, ⟨-, rfl⟩ | ⟨-, ho⟩⟩ := hx.owns_iff.mp ho
      · exact absurd ih hnot
      · exact ih.head ho
  · intro hu
    induction hu using Relation.ReflTransGen.head_induction_on with
    | refl => exact under_refl f' a
    | @head c q ho hu ih =>
      refine ih.head (hx.owns_iff.mpr ⟨fun hout => ?_, .inr ⟨hx.not_mem_ins ho, ho⟩⟩)
      obtain rfl := owner_unique ho (hx.owns_of_mem hf (hx.outs c hout))
      exact hnot hu

theorem Exchange.contains_iff (hx : f.Exchange f' p field xs ys ins outs loose) :
    f'.contains k ↔ f.contains k := by
  obtain ⟨l, payload, -, -, hview⟩ := hx.refilled
  rw [contains, contains, hview, exchanged, Option.isSome_map]

/-! ### The nodes that are freed -/

theorem exists_releases_perm (hb : f.Bookkept) (ho : f.Ownership stack) (hnd : gone.Nodup)
    (hmem : ∀ k, k ∈ gone ↔ f.contains k ∧ ∃ s ∈ stack, f.Under k s) :
    ∃ gone', f.Releases gone' (f.freeSubtrees stack) ∧ gone'.Perm gone := by
  obtain ⟨gone', hr⟩ := f.exists_releases stack
  rw [← freeSubtrees_eq] at hr
  refine ⟨gone', hr, (List.perm_ext_iff_of_nodup hr.nodup hnd).mpr fun k => ?_⟩
  rw [hr.mem_iff, contains_freeSubtrees_iff hb ho, hmem]
  push Not
  exact ⟨fun ⟨hk, h⟩ => ⟨hk, h hk⟩, fun ⟨hk, h⟩ => ⟨hk, fun _ => h⟩⟩

theorem nodup_map_index (hnd : gone.Nodup) (hlive : ∀ k ∈ gone, f.contains k) :
    (gone.map Handle.index).Nodup :=
  hnd.map_on fun a ha b hb hi => eq_of_index_eq (hlive a ha) (hlive b hb) hi

namespace Displacement

section
variable (hd : Displacement f g f₁ p field xs ys outs grown)
include hd

theorem ownership : f₁.Ownership xs :=
  hd.exchange.ownership hd.wellFormed.ownership

theorem live?_old {l : LiveNode} (hk : f.live? k = some l) : f₁.live? k = some
      { node :=
          if k = p then { l.node with payload := l.node.payload.withContent field ys } else l.node
        owner? := if k ∈ outs then none else if k ∈ ys then some p else l.owner? } := by
  obtain ⟨m, hm⟩ := contains_iff.mp hd.live
  rw [hd.payload (hd.grows.live?_of_live? hm), exchanged, hd.grows.live?_of_live? hk,
    Option.map_some]
  by_cases hkp : k = p
  · subst hkp
    cases hk.symm.trans hm
    rfl
  · rw [if_neg hkp, if_neg hkp]

variable (hf : f.WellFormed)
include hf

theorem owns (ha : a ∈ xs) : f.owns p a :=
  hd.grows.owns_old hf hd.live (hd.exchange.owns_of_mem hd.wellFormed.ownership ha)

theorem under_iff (ha : a ∈ xs) : f₁.Under k a ↔ f.Under k a :=
  (hd.exchange.under_iff hd.wellFormed.ownership ha).trans
    (hd.grows.under_iff hf (contains_of_owns (hd.owns hf ha)))

theorem nodup_gone (hl : f.Listing xs gone) : gone.Nodup := by
  obtain ⟨l, payload, hlive, hrefilled, -⟩ := hd.exchange.refilled
  have hroots : xs.Nodup := by
    rw [← hrefilled.before]
    exact (Payload.nodup_children.mp (hd.wellFormed.ownership.nodup hlive)).1 field
  refine nodup_listing hf hl hroots fun a ha b hb hu => ?_
  rcases (Under.of_owner (hd.owns hf ha)).mp hu with he | hu
  · exact he.symm
  · exact absurd hu (hf.ownership.not_under (hd.owns hf hb))

/-- **The displaced trees are freed**: their nodes, each once. -/
theorem exists_releases (hl : f.Listing xs gone) :
    ∃ gone', f₁.Releases gone' (f₁.freeSubtrees xs) ∧ gone'.Perm gone := by
  refine exists_releases_perm hd.books hd.ownership (hd.nodup_gone hf hl) fun k => ?_
  rw [mem_listing hf hl]
  constructor
  · rintro ⟨a, ha, hu⟩
    have hk : f.contains k := hu.contains_of_contains (contains_of_owns (hd.owns hf ha))
    exact ⟨hd.exchange.contains_iff.mpr (hd.grows.contains hk), a, ha, (hd.under_iff hf ha).mpr hu⟩
  · rintro ⟨-, a, ha, hu⟩
    exact ⟨a, ha, (hd.under_iff hf ha).mp hu⟩

theorem mem_made (hl : g.Listing grown made) : k ∈ made ↔ f₁.contains k ∧ ¬ f.contains k := by
  rw [mem_listing hd.wellFormed hl, hd.exchange.contains_iff]
  constructor
  · rintro ⟨r, hr, hu⟩
    exact ⟨hu.contains_of_contains (hd.grows.contains_root hr),
      hd.grows.not_contains_of_under hf hr hu⟩
  · rintro ⟨hk, hnew⟩
    exact (hd.grows.under hk).resolve_left hnew

theorem target_not_gone (hl : f.Listing xs gone) : p ∉ gone := fun hmem => by
  obtain ⟨a, ha, hu⟩ := (mem_listing hf hl).mp hmem
  exact hf.ownership.not_under (hd.owns hf ha) hu

theorem not_gone_of_mem (hl : f.Listing xs gone) (hc : c ∈ ys) : c ∉ gone := fun hmem => by
  obtain ⟨a, ha, hu⟩ := (mem_listing hf hl).mp hmem
  obtain ⟨-, ⟨n, hn, -⟩, -⟩ := hd.exchange.ins c hc
  -- it is a root, and the displaced roots were owned
  obtain rfl := (hu.mono hd.grows.owns).eq_of_root hn
  exact not_owns_of_root hn (hd.grows.owns (hd.owns hf ha))

theorem counterparts_made (hl : f.Listing xs gone) (hm : g.Listing grown made) :
    g.Counterparts (f₁.freeSubtrees xs) made id := fun x hx => by
  obtain ⟨gone', hr, hp⟩ := hd.exists_releases hf hl
  obtain ⟨l, hlive⟩ := contains_iff.mp (hm.live x hx)
  obtain ⟨m, hp'⟩ := contains_iff.mp (hd.grows.contains hd.live)
  have hnew : ¬ f.contains x := ((hd.mem_made hf hm).mp hx).2
  have hgone : x ∉ gone' := fun hmem => hnew (hl.live x (hp.mem_iff.mp hmem))
  have hxp : x ≠ p := fun he => hnew (he ▸ hd.live)
  have hview : (f₁.freeSubtrees xs).live? x = f₁.live? x := by rw [hr.live?_eq, if_neg hgone]
  rw [hd.payload hp', exchanged, hlive, Option.map_some, if_neg hxp] at hview
  exact ⟨l, _, hlive, hview, l.node.mapChildren_id.symm⟩

end

end Displacement

theorem Copies.congr (hc : f.Copies g hs cs) : ∀ {made : List Handle}, g.Listing cs made →
    g.Counterparts f' made id → f.Copies f' hs cs := by
  induction hc with
  | nil => exact fun _ _ => .nil
  | @cons h c l m hs cs below hh hk he hbelow _ ih₁ ih₂ =>
    intro made hl hsame
    obtain _ | ⟨hk', hl₁, hl₂⟩ := hl
    cases hk.symm.trans hk'
    obtain ⟨m₀, m', hm₀, hm', hnode⟩ := hsame c List.mem_cons_self
    cases hk.symm.trans hm₀
    have hnode' : m'.node = l.node.withChildren below := by rw [hnode, Node.mapChildren_id, he]
    have hchildren : m.node.children = below := by
      rw [he]
      exact Node.children_withChildren hbelow.length_eq
    refine .cons hh hm' hnode' (ih₁ (hchildren ▸ hl₁) fun x hx => hsame x ?_)
      (ih₂ hl₂ fun x hx => hsame x ?_)
    · exact List.mem_cons_of_mem c (List.mem_append_left _ hx)
    · exact List.mem_cons_of_mem c (List.mem_append_right _ hx)

end SyntaxForest.Forest
