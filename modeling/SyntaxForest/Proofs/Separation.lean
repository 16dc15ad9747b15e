import SyntaxForest.Proofs.Effects

/-! # Trees apart

A list of nodes is apart if the children and the owner of every listed node are listed
(`Apart`); the nodes of a detached tree are (`apart_listing`). No operation reaches from one side to
the other: if none of the handles given to it is listed, the listed nodes keep what they hold and who
owns them.

* `Apart.sameOn_of_effect`: an accepted operation leaves the listed nodes as they were.
* `Apart.sameOn_run`: so does a run of any length, with refused steps and with conversions. -/

namespace SyntaxForest

/-- The handles given to a step. A conversion reads no node of the forest, and a question changes
none. -/
def Step.arguments : Step → List Handle
  | operate op => op.arguments
  | extend v children => v.parent :: children
  | convert .. => []
  | ask _ => []

namespace Forest

variable {f f' f'' : Forest} {xs arguments : List Handle} {h k p c : Handle}

/-- The listed handles name the same nodes, with the same owners, in both forests. -/
def SameOn (f f' : Forest) (xs : List Handle) : Prop := ∀ x ∈ xs, f'.live? x = f.live? x

theorem SameOn.refl (f : Forest) (xs : List Handle) : f.SameOn f xs := fun _ _ => rfl

theorem SameOn.trans (h : f.SameOn f' xs) (h' : f'.SameOn f'' xs) : f.SameOn f'' xs :=
  fun x hx => (h' x hx).trans (h x hx)

/-- **Nodes apart** from all others: with a node, its children and its owner are listed. -/
structure Apart (f : Forest) (xs : List Handle) : Prop where
  live : ∀ x ∈ xs, f.contains x
  owned : ∀ {p c}, f.owns p c → (p ∈ xs ↔ c ∈ xs)

/-- **The nodes of a detached tree** are apart. -/
theorem apart_listing (hf : f.WellFormed) {n : Node} (hroot : f.live? h = some ⟨n, none⟩)
    (hl : f.Listing [h] xs) : f.Apart xs where
  live := hl.live
  owned {p c} ho := by
    have hmem : ∀ k, k ∈ xs ↔ f.Under k h := fun k => by simpa using mem_listing hf hl
    rw [hmem, hmem, Under.of_owner ho, or_iff_right]
    rintro rfl
    exact not_owns_of_root hroot ho

namespace Apart

theorem mono (ha : f.Apart xs) (hs : f.SameOn f' xs) (hf : f.WellFormed) (hf' : f'.WellFormed) :
    f'.Apart xs where
  live x hx := by
    rw [contains, hs x hx]
    exact ha.live x hx
  owned {p c} ho := by
    constructor
    · intro hp
      -- the owner has the same children in both forests
      obtain ⟨l, hl, hc⟩ := hf'.ownership.owner ho (by simp)
      rw [hs p hp] at hl
      exact (ha.owned (hf.ownership.child hl hc).1).mp hp
    · intro hc
      have ho' : f.owns p c := by rw [← owns_congr (hs c hc)]; exact ho
      exact (ha.owned ho').mpr hc

theorem mem_of_under (ha : f.Apart xs) (hs : f.SameOn f' xs) (hk : k ∈ xs) (hu : f'.Under k h) :
    h ∈ xs := by
  induction hu with
  | refl => exact hk
  | @tail c p _ ho ih =>
    have ho' : f.owns p c := by rw [← owns_congr (hs c ih)]; exact ho
    exact (ha.owned ho').mpr ih

/-! ### What leaves nodes apart as they were -/

theorem sameOn_of_grows (ha : f.Apart xs) {roots : List Handle} (hg : f.Grows f' roots) :
    f.SameOn f' xs := fun x hx => hg.kept (ha.live x hx)

theorem sameOn_store (ha : f.Apart xs) (hf : f.WellFormed) {node : Node} (hs : f.Storable node)
    (hc : ∀ c ∈ node.children, c ∉ xs) : f.SameOn (f.store node) xs := fun x hx =>
  hs.live?_store_of_contains hf.books (ha.live x hx) fun hm => hc x hm hx

theorem sameOn_annotate (hh : h ∉ xs) (change : Node → Node) :
    f.SameOn (f.annotate h change) xs := fun x hx => by
  have hne : x ≠ h := fun he => hh (he ▸ hx)
  rw [live?_annotate, if_neg hne]

theorem sameOn_exchange (ha : f.Apart xs) (hf : f.WellFormed) {field : Field}
    {old new ins outs loose : List Handle} (hx : f.Exchange f' p field old new ins outs loose)
    (hp : p ∉ xs) (hins : ∀ c ∈ ins, c ∉ xs) : f.SameOn f' xs := fun x hxs => by
  obtain ⟨l, payload, -, -, hview⟩ := hx.refilled
  have hne : x ≠ p := fun he => hp (he ▸ hxs)
  have hin : x ∉ ins := fun hm => hins x hm hxs
  have hout : x ∉ outs := fun hm =>
    hp ((ha.owned (hx.owns_of_mem hf.ownership (hx.outs x hm))).mpr hxs)
  rw [hview, exchanged]
  simp [hne, hin, hout]

theorem sameOn_free (ha : f.Apart xs) (hs : f.SameOn f' xs) {stack : List Handle}
    (hf' : f'.Ownership stack) (hstack : ∀ s ∈ stack, s ∉ xs) :
    f.SameOn (f'.freeSubtrees stack) xs := fun x hx => by
  have hnot : ∀ s ∈ stack, ¬ f'.Under x s := fun s hm hu =>
    hstack s hm (ha.mem_of_under hs hx hu)
  rw [live?_freeSubtrees_of_not_under hf' hnot, hs x hx]

theorem sameOn_displacement (ha : f.Apart xs) (hf : f.WellFormed) {g f₁ : Forest} {field : Field}
    {old new outs grown : List Handle} (hd : Displacement f g f₁ p field old new outs grown)
    (hp : p ∉ xs) (hnew : ∀ y ∈ new, y ∉ xs ∨ y ∈ grown) :
    f.SameOn (f₁.freeSubtrees old) xs := by
  have hgrow : f.SameOn g xs := ha.sameOn_of_grows hd.grows
  have ha' : g.Apart xs := ha.mono hgrow hf hd.wellFormed
  have hfresh : ∀ y ∈ new, y ∉ xs := fun y hy hmem => (hnew y hy).elim (fun h => h hmem)
    fun hg => not_contains_iff.mpr (hd.grows.fresh hg) (ha.live y hmem)
  have hexchange : g.SameOn f₁ xs := ha'.sameOn_exchange hd.wellFormed hd.exchange hp hfresh
  refine hgrow.trans (ha'.sameOn_free hexchange (hd.exchange.ownership hd.wellFormed.ownership) ?_)
  intro s hs hmem
  have ho : g.owns p s := hd.exchange.owns_of_mem hd.wellFormed.ownership hs
  exact hp ((ha'.owned ho).mpr hmem)

/-- **An accepted operation leaves nodes apart as they were**, if none of them is given to it. -/
theorem sameOn_of_effect (ha : f.Apart xs) (hf : f.WellFormed) (he : f.Effect arguments f')
    (hargs : ∀ a ∈ arguments, a ∉ xs) : f.SameOn f' xs := by
  cases he with
  | grows hg => exact ha.sameOn_of_grows hg
  | stores hs hc => exact ha.sameOn_store hf hs fun c hm => hargs c (hc c hm)
  | annotates change hh => exact sameOn_annotate (hargs _ hh) change
  | moves hx hp hins =>
    refine ha.sameOn_exchange hf hx ?_ fun c hm => hargs c (hins c hm)
    rcases hp with hp | ⟨c, hc, ho⟩
    · exact hargs _ hp
    · exact fun hmem => hargs c hc ((ha.owned ho).mp hmem)
  | displaces hd hp hys =>
    exact ha.sameOn_displacement hf hd (hargs _ hp) fun y hy => (hys y hy).imp_left (hargs y)
  | @discards h n hh hl =>
    refine ha.sameOn_free (.refl f xs) (hf.ownership.loosen_root hl) fun s hs => ?_
    exact List.mem_singleton.mp hs ▸ hargs h hh

/-! ### Steps and runs -/

theorem sameOn_edit {α : Type} (ha : f.Apart xs) (hf : f.WellFormed) {x : Edit α}
    (hx : x.Affects arguments f) (hsafe : x.Safe f f) (hargs : ∀ a ∈ arguments, a ∉ xs) :
    f.SameOn (x.after f) xs := by
  unfold Edit.after
  rcases hr : x f with ⟨a, f'⟩ | ⟨e, f'⟩
  · exact ha.sameOn_of_effect hf (hx a f' hr) hargs
  · exact fun k _ => (hsafe.refused hr).2 k

theorem sameOn_extend (v : SequenceView) : ∀ (cs : List Handle) {f : Forest}, f.Apart xs →
    f.WellFormed → v.parent ∉ xs → (∀ c ∈ cs, c ∉ xs) → f.SameOn ((v.extend cs).after f) xs
  | [], f, _, _, _, _ => .refl f xs
  | c :: cs, f, ha, hf, hp, hcs => by
    have hsafe := Edit.safe_push hf v.parent v.field c
    have hpush : f.SameOn ((v.push c).after f) xs :=
      ha.sameOn_edit hf (Edit.affects_push hf) hsafe
        (List.forall_mem_cons.mpr ⟨hp, by simpa using hcs c List.mem_cons_self⟩)
    rw [SequenceView.extend, Edit.after_bind]
    unfold Edit.after at hpush
    rcases hr : v.push c f with ⟨_, f'⟩ | ⟨e, f'⟩ <;> rw [hr] at hpush
    · have hf' := hsafe.accepted hr
      exact hpush.trans (sameOn_extend v cs (ha.mono hpush hf hf') hf' hp
        fun c hc => hcs c (List.mem_cons_of_mem _ hc))
    · exact hpush

theorem sameOn_after (ha : f.Apart xs) (hf : f.WellFormed) {s : Step}
    (hargs : ∀ a ∈ s.arguments, a ∉ xs) : f.SameOn (s.after f) xs := by
  cases s with
  | operate op => exact ha.sameOn_edit hf (op.affects hf) (op.safe hf) hargs
  | extend v cs =>
    obtain ⟨hp, hcs⟩ := List.forall_mem_cons.mp hargs
    exact sameOn_extend v cs ha hf hp hcs
  | convert options source types =>
    have hs := Conversion.sound_convertAt options 0 source hf
    rcases hr : source.convert options ⟨f, types⟩ with ⟨h, w⟩ | ⟨e, w⟩ <;>
      simp only [Step.after, Conversion.after, hr]
    · exact ha.sameOn_of_grows (hs.accepted hr).2
    · exact fun k _ => (hs.refused hr).2 k
  | ask q => exact .refl f xs

/-- **Runs leave nodes apart as they were**, if none of them is given to a step. -/
theorem sameOn_run : ∀ (steps : List Step) {f : Forest}, f.Apart xs → f.WellFormed →
    (∀ s ∈ steps, ∀ a ∈ s.arguments, a ∉ xs) → f.SameOn (f.run steps) xs
  | [], f, _, _, _ => .refl f xs
  | s :: steps, f, ha, hf, hargs => by
    obtain ⟨hfirst, hrest⟩ := List.forall_mem_cons.mp hargs
    have hstep : f.SameOn (s.after f) xs := ha.sameOn_after hf hfirst
    have hf' : (s.after f).WellFormed := wellFormed_after hf s
    exact hstep.trans (sameOn_run steps (ha.mono hstep hf hf') hf' hrest)

end Apart

end Forest

end SyntaxForest
