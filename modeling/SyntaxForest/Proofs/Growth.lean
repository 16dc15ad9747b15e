import SyntaxForest.Proofs.Freeing
import SyntaxForest.Proofs.Lineage
import SyntaxForest.Proofs.Storing

/-! # Growing a forest

An operation that makes new nodes leaves the nodes that were there as they were, and what it made are
the trees of some new roots: `Grows f f' roots`. Growth goes on by more trees (`Grows.trans`) and by a
node stored on top of some of the roots (`Grows.store`); freeing the roots undoes it
(`Grows.alike_free`). -/

namespace SyntaxForest.Forest

variable {f f' f'' : Forest} {roots rest : List Handle}

/-- **Growth**: the nodes of `f` stay as they were, and the new nodes are the trees of the roots. -/
structure Grows (f f' : Forest) (roots : List Handle) : Prop where
  kept : ∀ {k}, f.contains k → f'.live? k = f.live? k
  fresh : ∀ {r}, r ∈ roots → f.live? r = none
  root : ∀ {r}, r ∈ roots → ∃ n, f'.live? r = some ⟨n, none⟩
  nodup : roots.Nodup
  under : ∀ {k}, f'.contains k → f.contains k ∨ ∃ r ∈ roots, f'.Under k r

theorem Under.mono (h : ∀ {p c}, f.owns p c → f'.owns p c) {k a : Handle} (hu : f.Under k a) :
    f'.Under k a := Relation.ReflTransGen.mono (fun _ _ ho => h ho) _ _ hu

namespace Grows

theorem refl (f : Forest) : f.Grows f [] where
  kept _ := rfl
  fresh hr := by simp at hr
  root hr := by simp at hr
  nodup := List.nodup_nil
  under := Or.inl

theorem congr (g : f.Grows f' roots) (h : f'.Alike f'') : f.Grows f'' roots where
  kept hk := (h _).trans (g.kept hk)
  fresh := g.fresh
  root hr := by rw [h]; exact g.root hr
  nodup := g.nodup
  under hk := by
    rw [h.contains_eq] at hk
    simpa only [h.sameShape.under_iff] using g.under hk

theorem live?_of_live? (g : f.Grows f' roots) {k : Handle} {l : LiveNode} (hk : f.live? k = some l) :
    f'.live? k = some l :=
  (g.kept (contains_iff.mpr ⟨l, hk⟩)).trans hk

theorem contains (g : f.Grows f' roots) {k : Handle} (hk : f.contains k) : f'.contains k := by
  obtain ⟨l, hl⟩ := contains_iff.mp hk
  exact contains_iff.mpr ⟨l, g.live?_of_live? hl⟩

theorem contains_root (g : f.Grows f' roots) {r : Handle} (hr : r ∈ roots) : f'.contains r := by
  obtain ⟨n, hn⟩ := g.root hr
  exact contains_iff.mpr ⟨_, hn⟩

theorem owns (g : f.Grows f' roots) {p c : Handle} (ho : f.owns p c) : f'.owns p c := by
  obtain ⟨n, hn⟩ := owns_iff.mp ho
  exact owns_of_live? (g.live?_of_live? hn)

theorem trans {xs ys : List Handle} (g : f.Grows f' xs) (g' : f'.Grows f'' ys) :
    f.Grows f'' (xs ++ ys) where
  kept hk := (g'.kept (g.contains hk)).trans (g.kept hk)
  fresh {r} hr := by
    rcases List.mem_append.mp hr with hr | hr
    · exact g.fresh hr
    · rw [← not_contains_iff]
      exact fun hc => not_contains_iff.mpr (g'.fresh hr) (g.contains hc)
  root {r} hr := by
    rcases List.mem_append.mp hr with hr | hr
    · obtain ⟨n, hn⟩ := g.root hr
      exact ⟨n, g'.live?_of_live? hn⟩
    · exact g'.root hr
  nodup := by
    refine List.nodup_append.mpr ⟨g.nodup, g'.nodup, ?_⟩
    rintro r hr _ hr' rfl
    exact not_contains_iff.mpr (g'.fresh hr') (g.contains_root hr)
  under {k} hk := by
    rcases g'.under hk with hk | ⟨r, hr, hu⟩
    · refine (g.under hk).imp_right fun ⟨r, hr, hu⟩ => ?_
      exact ⟨r, List.mem_append_left ys hr, hu.mono g'.owns⟩
    · exact Or.inr ⟨r, List.mem_append_right xs hr, hu⟩

theorem perm {xs : List Handle} (g : f.Grows f' roots) (h : roots.Perm xs) : f.Grows f' xs where
  kept := g.kept
  fresh hr := g.fresh (h.mem_iff.mpr hr)
  root hr := g.root (h.mem_iff.mpr hr)
  nodup := h.nodup_iff.mp g.nodup
  under hk := (g.under hk).imp_right fun ⟨r, hr, hu⟩ => ⟨r, h.mem_iff.mp hr, hu⟩

theorem contains_of_under (g : f.Grows f' roots) (hf : f.WellFormed) {k a : Handle}
    (hk : f.contains k) (hu : f'.Under k a) : f.contains a := by
  induction hu with
  | refl => exact hk
  | @tail c p _ ho ih =>
    have ho' : f.owns p c := by rw [← owns_congr (g.kept ih)]; exact ho
    obtain ⟨l, hl, -⟩ := hf.ownership.owner ho' (by simp)
    exact contains_iff.mpr ⟨l, hl⟩

theorem not_contains_of_under (g : f.Grows f' roots) (hf : f.WellFormed) {k r : Handle}
    (hr : r ∈ roots) (hu : f'.Under k r) : ¬ f.contains k := fun hk =>
  not_contains_iff.mpr (g.fresh hr) (g.contains_of_under hf hk hu)

/-- **Storing a node over some of the roots** grows one tree out of them. -/
theorem store {node : Node} (g : f.Grows f' (node.children ++ rest)) (hf' : f'.WellFormed)
    (hs : f'.Storable node) : f.Grows (f'.store node) (f'.nextHandle :: rest) := by
  have hb := hf'.books
  have hnext : ¬ f'.contains f'.nextHandle := not_contains_iff.mpr hb.not_contains_nextHandle
  obtain ⟨-, hrest, hdis⟩ := List.nodup_append.mp g.nodup
  have hmem : ∀ {r}, r ∈ rest → r ∉ node.children := fun hr hm => hdis _ hm _ hr rfl
  constructor
  case kept =>
    intro k hk
    rw [hs.live?_store_of_contains hb (g.contains hk) fun hm => ?_, g.kept hk]
    exact not_contains_iff.mpr (g.fresh (List.mem_append_left rest hm)) hk
  case fresh =>
    intro r hr
    rcases List.mem_cons.mp hr with rfl | hr
    · exact not_contains_iff.mp fun hc => hnext (g.contains hc)
    · exact g.fresh (List.mem_append_right _ hr)
  case root =>
    intro r hr
    rcases List.mem_cons.mp hr with rfl | hr
    · exact ⟨node, hs.live?_nextHandle hb⟩
    · have hr' := List.mem_append_right node.children hr
      rw [hs.live?_store_of_contains hb (g.contains_root hr') (hmem hr)]
      exact g.root hr'
  case nodup =>
    refine List.nodup_cons.mpr ⟨fun hm => ?_, hrest⟩
    exact hnext (g.contains_root (List.mem_append_right _ hm))
  case under =>
    intro k hk
    by_cases hkn : k = f'.nextHandle
    · exact Or.inr ⟨k, by simp [hkn], under_refl _ k⟩
    · have hk' : f'.contains k := by
        obtain ⟨l, hl⟩ := contains_iff.mp hk
        obtain ⟨h, -⟩ | ⟨-, m, hm, -⟩ := hs.live?_before hb hl
        · exact absurd h hkn
        · exact contains_iff.mpr ⟨m, hm⟩
      refine (g.under hk').imp_right fun ⟨r, hr, hu⟩ => ?_
      rcases List.mem_append.mp hr with hr | hr
      · have hu' := hu.mono (hs.owns_store_of_owns hb)
        refine ⟨_, List.mem_cons_self .., hu'.trans (under_of_owns ?_)⟩
        exact (hs.owns_store hb).mpr (Or.inl ⟨hr, rfl⟩)
      · exact ⟨r, List.mem_cons_of_mem _ hr, hu.mono (hs.owns_store_of_owns hb)⟩

theorem annotate (g : f.Grows f' roots) {h : Handle} (hh : h ∈ roots) (change : Node → Node)
    (hc : ∀ n, (change n).payload = n.payload) : f.Grows (f'.annotate h change) roots where
  kept {k} hk := by
    rw [live?_annotate, if_neg fun he => ?_, g.kept hk]
    exact not_contains_iff.mpr (g.fresh hh) (he ▸ hk)
  fresh := g.fresh
  root {r} hr := by
    obtain ⟨n, hn⟩ := g.root hr
    rw [live?_annotate]
    split_ifs
    · exact ⟨change n, by rw [hn]; rfl⟩
    · exact ⟨n, hn⟩
  nodup := g.nodup
  under {k} hk := by
    have hshape := f'.sameShape_annotate h change hc
    obtain ⟨l, hl⟩ := contains_iff.mp hk
    obtain ⟨m, hm, -⟩ := hshape.live? hl
    simpa only [hshape.under_iff] using g.under (contains_iff.mpr ⟨m, hm⟩)

/-! ### Freeing what has grown -/

theorem ownership (g : f.Grows f' roots) (hf' : f'.WellFormed) : f'.Ownership roots :=
  hf'.ownership.loosen fun _ hr _ ho => by
    obtain ⟨n, hn⟩ := g.root hr
    exact not_owns_of_root hn ho

theorem wellFormed_free (g : f.Grows f' roots) (hf' : f'.WellFormed) :
    (f'.freeSubtrees roots).WellFormed := by
  rw [freeSubtrees_eq]; exact wellFormed_freeAll hf'.books (g.ownership hf')

/-- **Freeing the new roots takes the forest back to how it looked.** -/
theorem alike_free (g : f.Grows f' roots) (hf : f.WellFormed) (hf' : f'.WellFormed) :
    f.Alike (f'.freeSubtrees roots) := by
  intro k
  rw [freeSubtrees_eq]
  by_cases hk : f.contains k
  · rw [← g.kept hk]
    refine live?_freeAll_of_closed (P := fun k => ¬ f.contains k) (fun r hr => ?_) ?_ (by simp [hk])
    · exact not_contains_iff.mpr (g.fresh hr)
    -- an old child has its owner among the old nodes
    · intro p l c hp hpn hc hcf
      obtain ⟨n, hn⟩ := owns_iff.mp (hf'.ownership.child hp hc).1
      rw [g.kept hcf] at hn
      obtain ⟨m, hm, -⟩ := hf.ownership.owner (owns_of_live? hn) (by simp)
      exact hpn (contains_iff.mpr ⟨m, hm⟩)
  · rw [not_contains_iff.mp hk, ← not_contains_iff]
    intro hc
    obtain ⟨l, hl⟩ := contains_iff.mp hc
    rcases g.under (contains_iff.mpr ⟨l, live?_of_freeAll hl⟩) with h | ⟨r, hr, hu⟩
    · exact hk h
    · exact not_contains_freeAll hf'.books (g.ownership hf') hr hu hc

end Grows

end SyntaxForest.Forest
