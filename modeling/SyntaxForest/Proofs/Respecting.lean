import SyntaxForest.Proofs.Calls
import SyntaxForest.Proofs.Safety

/-! # Calls that respect a tree

A call respects the tree below a root if a visit leaves owners and children in it as they are, and
the end of the visit of a node leaves them as they are outside of the tree of that node; only its
owner may get other children (`Call.Respects`).

At the end of the visit of a node so does every step of an editor that stays with the node: it makes
new nodes (`respects_of_grows`), exchanges children at the node or below it (`respects_exchange`),
puts a detached tree in the place of the node (`respects_replace`), and frees what is below the node
(`respects_freeSubtrees`). Such steps may follow one another (`Respects.trans`). -/

namespace SyntaxForest

namespace Forest

variable {f f' f'' : Forest} {roots : List Handle} {p h x : Handle}

/-! ### Nodes that stay in place -/

/-- The node is live in both forests, with the same owner. -/
def KeepsOwner (f f' : Forest) (x : Handle) : Prop :=
  ∃ l l', f.live? x = some l ∧ f'.live? x = some l' ∧ l'.owner? = l.owner?

/-- The node is live in both forests, with the same children. -/
def KeepsChildren (f f' : Forest) (x : Handle) : Prop :=
  ∃ l l', f.live? x = some l ∧ f'.live? x = some l' ∧ l'.node.children = l.node.children

theorem keepsOwner_of_eq (hx : f.contains x) (he : f'.live? x = f.live? x) : f.KeepsOwner f' x := by
  obtain ⟨l, hl⟩ := contains_iff.mp hx
  exact ⟨l, l, hl, he.trans hl, rfl⟩

theorem keepsChildren_of_eq (hx : f.contains x) (he : f'.live? x = f.live? x) :
    f.KeepsChildren f' x := by
  obtain ⟨l, hl⟩ := contains_iff.mp hx
  exact ⟨l, l, hl, he.trans hl, rfl⟩

theorem KeepsOwner.trans (hk : f.KeepsOwner f' x) (hk' : f'.KeepsOwner f'' x) :
    f.KeepsOwner f'' x := by
  obtain ⟨l, l', hl, hl', he⟩ := hk
  obtain ⟨m, m', hm, hm', he'⟩ := hk'
  rw [hl'] at hm; cases hm
  exact ⟨l, m', hl, hm', he'.trans he⟩

theorem KeepsChildren.trans (hk : f.KeepsChildren f' x) (hk' : f'.KeepsChildren f'' x) :
    f.KeepsChildren f'' x := by
  obtain ⟨l, l', hl, hl', he⟩ := hk
  obtain ⟨m, m', hm, hm', he'⟩ := hk'
  rw [hl'] at hm; cases hm
  exact ⟨l, m', hl, hm', he'.trans he⟩

theorem KeepsOwner.owns_iff (hk : f.KeepsOwner f' x) : f'.owns p x ↔ f.owns p x := by
  obtain ⟨l, l', hl, hl', he⟩ := hk
  simp only [owns, hl, hl', he]

theorem KeepsOwner.contains (hk : f.KeepsOwner f' x) : f'.contains x := by
  obtain ⟨-, l', -, hl', -⟩ := hk
  exact contains_iff.mpr ⟨l', hl'⟩

theorem KeepsChildren.owns (hk : f.KeepsChildren f' p) (hf : f.WellFormed) (hf' : f'.WellFormed)
    (ho : f'.owns p h) : f.owns p h := by
  obtain ⟨l, l', hl, hl', he⟩ := hk
  obtain ⟨m, hm, hh⟩ := hf'.ownership.owner ho (by simp)
  cases hl'.symm.trans hm
  exact (hf.ownership.child hl (he ▸ hh)).1

theorem KeepsChildren.below_eq (hk : f.KeepsChildren f' x) (descend : Bool) :
    f'.below x descend = f.below x descend := by
  obtain ⟨l, l', hl, hl', he⟩ := hk
  simp only [below, hl, hl', Option.map_some, he]

end Forest

/-! ### Calls that respect a tree -/

open Forest

/-- **A call that respects the tree below a root**: a visit changes no owner and no children in it,
and the end of the visit of `h` none outside of the tree of `h`, but for the children of the owner
of `h`. -/
def Call.Respects (root : Handle) : Call → Prop
  | visit _ f _ f' => ∀ x, f.contains x → f.Under x root → f.KeepsOwner f' x ∧ f.KeepsChildren f' x
  | endVisit h f f' => ∀ x, f.contains x → f.Under x root → ¬ f.Under x h →
    f.KeepsOwner f' x ∧ (¬ f.owns x h → f.KeepsChildren f' x)

namespace Call

variable {f f₁ f' : Forest} {root h : Handle}

theorem respects_visit_of_idle (h : Handle) (f : Forest) (descend : Bool) :
    (visit h f descend f).Respects root :=
  fun _ hx _ => ⟨keepsOwner_of_eq hx rfl, keepsChildren_of_eq hx rfl⟩

theorem respects_endVisit_of_idle (h : Handle) (f : Forest) : (endVisit h f f).Respects root :=
  fun _ hx _ _ => ⟨keepsOwner_of_eq hx rfl, fun _ => keepsChildren_of_eq hx rfl⟩

/-! ### One step after another -/

/-- What is outside of the tree of `h` stays there, unless the root has come into it. -/
theorem Respects.apart (hc : (endVisit h f f').Respects root) (hf : f.WellFormed)
    (hroot : ¬ f'.Under root h) {x : Handle} (hx : f.contains x) (hu : f.Under x root)
    (hxh : ¬ f.Under x h) : f'.Under x root ∧ ¬ f'.Under x h := by
  induction hu using Relation.ReflTransGen.head_induction_on with
  | refl => exact ⟨under_refl f' root, hroot⟩
  | @head x y ho hu ih =>
    obtain ⟨hkeeps, -⟩ := hc x hx ((under_of_owns ho).trans hu) hxh
    have ho' : f'.owns y x := hkeeps.owns_iff.mpr ho
    obtain ⟨l, hl, -⟩ := hf.ownership.owner ho (by simp)
    obtain ⟨hy, hyh⟩ := ih (contains_iff.mpr ⟨l, hl⟩)
      fun hyh => hxh ((under_of_owns ho).trans hyh)
    refine ⟨(under_of_owns ho').trans hy, fun hxh' => ?_⟩
    rcases (Under.of_owner ho').mp hxh' with rfl | hyh'
    · exact hxh (under_refl f h)
    · exact hyh hyh'

/-- **Steps that respect the tree may follow one another**, if the root has not come into the tree
of `h` between them. -/
theorem Respects.trans (hc : (endVisit h f f₁).Respects root)
    (hc' : (endVisit h f₁ f').Respects root) (hf : f.WellFormed) (hf₁ : f₁.WellFormed)
    (hroot : ¬ f₁.Under root h) : (endVisit h f f').Respects root := by
  intro x hx hu hxh
  obtain ⟨howner, hchildren⟩ := hc x hx hu hxh
  obtain ⟨hu₁, hxh₁⟩ := hc.apart hf hroot hx hu hxh
  obtain ⟨howner', hchildren'⟩ := hc' x howner.contains hu₁ hxh₁
  refine ⟨howner.trans howner', fun ho => ?_⟩
  have hkeeps := hchildren ho
  exact hkeeps.trans (hchildren' fun ho₁ => ho (hkeeps.owns hf hf₁ ho₁))

theorem Respects.not_under_root (hc : (endVisit h f f').Respects root) {m : Node}
    (hroot : f.live? root = some ⟨m, none⟩) (hne : h ≠ root) : ¬ f'.Under root h := by
  obtain ⟨⟨l, ⟨n, o⟩, hl, hl', he⟩, -⟩ := hc root (contains_iff.mpr ⟨_, hroot⟩)
    (under_refl f root) fun hu => hne (hu.eq_of_root hroot)
  cases hroot.symm.trans hl
  obtain rfl : o = none := he
  exact fun hu => hne (hu.eq_of_root hl')

/-! ### Steps that stay with a node -/

theorem respects_of_grows {roots : List Handle} (h : Handle) (g : f.Grows f' roots) :
    (endVisit h f f').Respects root :=
  fun _ hx _ _ => ⟨keepsOwner_of_eq hx (g.kept hx), fun _ => keepsChildren_of_eq hx (g.kept hx)⟩

theorem respects_exchange (hf : f.WellFormed) {p : Handle} {field : Field}
    {xs ys ins outs loose : List Handle} (hex : f.Exchange f' p field xs ys ins outs loose)
    (hroot : f.Under h root) (hp : f.Under p h ∨ f.owns p h ∧ outs = [h]) :
    (endVisit h f f').Respects root := by
  intro x hx hxroot hxh
  have hout : x ∉ outs := fun hmem => hxh <| by
    have ho : f.owns p x := hex.owns_of_mem hf.ownership (hex.outs x hmem)
    rcases hp with hp | ⟨-, rfl⟩
    · exact (under_of_owns ho).trans hp
    · exact List.mem_singleton.mp hmem ▸ under_refl f x
  -- a node under the root that has no owner is the root, and `p` is under it
  have hin : x ∉ ins := fun hmem => by
    obtain ⟨-, ⟨n, hn, -⟩, hpx⟩ := hex.ins x hmem
    obtain rfl := hxroot.eq_of_root hn
    rcases hp with hp | ⟨hp, -⟩
    · exact hpx (hp.trans hroot)
    · exact hpx (((Under.of_owner hp).mp hroot).resolve_left fun h => hxh (h ▸ under_refl f root))
  obtain ⟨-, payload, -, -, hview⟩ := hex.refilled
  obtain ⟨l, hl⟩ := contains_iff.mp hx
  have hl' : f'.live? x =
      some { l with node := if x = p then { l.node with payload } else l.node } := by
    simp [hview, exchanged, hl, hout, hin]
  refine ⟨⟨l, _, hl, hl', rfl⟩, fun ho => ⟨l, _, hl, hl', ?_⟩⟩
  have hxp : x ≠ p := by
    rintro rfl
    exact hp.elim hxh fun hp => ho hp.1
  simp [hxp]

theorem respects_replace (hf : f.WellFormed) {new : Handle} (hroot : f.Under h root)
    (hr : Edit.replace h new f = .ok () f') : (endVisit h f f').Respects root := by
  obtain ⟨p, field, l₁, l₂, hex⟩ := Edit.replace_eq_ok hf hr
  exact respects_exchange hf hex hroot (.inr ⟨hex.owns_of_mem hf.ownership (by simp), rfl⟩)

/-- **What is below the node is freed**, or the node itself. -/
theorem respects_freeSubtrees (hf : f.WellFormed) {stack : List Handle}
    (hs : ∀ s ∈ stack, f.Under s h) : (endVisit h f (f.freeSubtrees stack)).Respects root := by
  intro x hx _ hxh
  have hfree : (f.freeSubtrees stack).live? x = f.live? x := by
    rw [freeSubtrees_eq]
    refine live?_freeAll_of_closed (P := fun k => f.Under k h) hs
      (fun p l c hp hph hcp => ?_) hxh
    exact (under_of_owns (hf.ownership.child hp hcp).1).trans hph
  exact ⟨keepsOwner_of_eq hx hfree, fun _ => keepsChildren_of_eq hx hfree⟩

/-- **Folding a node** of a tree with a detached root respects the tree: new nodes are made, one of
them is put in the place of the node, and the node is discarded. -/
theorem respects_fold {roots : List Handle} {old new : Handle} {m : Node} (hf : f.WellFormed)
    (g : f.Grows f₁ roots) (hf₁ : f₁.WellFormed) (hroot : f.live? root = some ⟨m, none⟩)
    (hu : f.Under old root) (hne : old ≠ root) (hr : Edit.replace old new f₁ = .ok () f') :
    (endVisit old f (f'.freeSubtrees [old])).Respects root := by
  have hf' : f'.WellFormed := (Edit.safe_replace hf₁ old new).accepted hr
  have hmake : (endVisit old f f₁).Respects root := respects_of_grows old g
  have hreplace : (endVisit old f f').Respects root :=
    hmake.trans (respects_replace hf₁ (hu.mono g.owns) hr) hf hf₁ (hmake.not_under_root hroot hne)
  have hdiscard : (endVisit old f' (f'.freeSubtrees [old])).Respects root :=
    respects_freeSubtrees hf' (by simp [under_refl])
  exact hreplace.trans hdiscard hf hf' (hreplace.not_under_root hroot hne)

end Call

end SyntaxForest
