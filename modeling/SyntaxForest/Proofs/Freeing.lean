import SyntaxForest.Proofs.Ownership

/-! # Freeing subtrees

The handles on the stack of `freeAll` are the loose nodes of the forest at every step, so a forest is
well-formed when the stack is empty (`wellFormed_freeAll`). What is freed is what is under a handle on
the stack (`not_contains_freeAll`, `live?_freeAll_of_closed`). -/

namespace SyntaxForest.Forest

variable {f : Forest} {stack : List Handle}

/-! ### One step -/

theorem Ownership.of_stale {h : Handle} (hf : f.Ownership (h :: stack)) (hh : f.live? h = none) :
    f.Ownership stack where
  child hp hc := ⟨(hf.child hp hc).1, fun hm => (hf.child hp hc).2 (List.mem_cons_of_mem h hm)⟩
  nodup := hf.nodup
  owner {p c} ho hc := by
    refine hf.owner ho fun hm => ?_
    rcases List.mem_cons.mp hm with rfl | hm
    · exact not_contains_iff.mpr hh (contains_of_owns ho)
    · exact hc hm
  grounded := hf.grounded
  category := hf.category
  occupied := hf.occupied

theorem Ownership.loosen (hf : f.Ownership []) (hr : ∀ r ∈ stack, ∀ p, ¬ f.owns p r) :
    f.Ownership stack where
  child hp hc := ⟨(hf.child hp hc).1, fun hm => hr _ hm _ (hf.child hp hc).1⟩
  nodup := hf.nodup
  owner ho _ := hf.owner ho (by simp)
  grounded := hf.grounded
  category := hf.category
  occupied := hf.occupied

theorem Ownership.loosen_root {r : Handle} {n : Node} (hf : f.Ownership [])
    (hr : f.live? r = some ⟨n, none⟩) : f.Ownership [r] :=
  hf.loosen fun c hc _ ho => by
    obtain rfl := List.mem_singleton.mp hc
    exact not_owns_of_root hr ho

/-- **Emptying the entry of a loose node** makes its children loose. -/
theorem Ownership.release {h : Handle} {l : LiveNode} (hf : f.Ownership (h :: stack))
    (hl : f.live? h = some l) :
    (f.release h).Ownership (l.node.children.reverse ++ stack) := by
  have hlive : ∀ {k m}, (f.release h).live? k = some m ↔ k ≠ h ∧ f.live? k = some m := by
    intro k m
    rw [live?_release_of_live (contains_iff.mpr ⟨l, hl⟩)]
    split_ifs with hk <;> simp [hk]
  have howns : ∀ {p c}, (f.release h).owns p c ↔ c ≠ h ∧ f.owns p c := by
    intro p c
    simp only [owns_iff, hlive, exists_and_left]
  constructor
  case child =>
    intro p m c hp hc
    obtain ⟨hph, hp⟩ := hlive.mp hp
    obtain ⟨ho, hno⟩ := hf.child hp hc
    refine ⟨howns.mpr ⟨fun h => hno (by simp [h]), ho⟩, fun hm => ?_⟩
    rcases List.mem_append.mp hm with hm | hm
    · exact hph (hf.child_unique hp hl hc (List.mem_reverse.mp hm))
    · exact hno (List.mem_cons_of_mem h hm)
  case nodup => exact fun hp => hf.nodup (hlive.mp hp).2
  case owner =>
    intro p c ho hc
    obtain ⟨hch, ho⟩ := howns.mp ho
    simp only [List.mem_append, List.mem_reverse, not_or] at hc
    obtain ⟨m, hm, hmem⟩ := hf.owner ho (by simp [hch, hc.2])
    refine ⟨m, hlive.mpr ⟨fun hp => ?_, hm⟩, hmem⟩
    subst hp
    rw [hl] at hm; cases hm
    exact hc.1 hmem
  case grounded => exact Subrelation.wf (fun h => (howns.mp h).2) hf.grounded
  case category => exact fun hp hc hm => hf.category (hlive.mp hp).2 hc (hlive.mp hm).2
  case occupied => exact fun hp => hf.occupied (hlive.mp hp).2

/-! ### The whole run -/

/-- **Freeing the loose nodes makes a forest well-formed.** -/
theorem wellFormed_freeAll (hb : f.Bookkept) (hf : f.Ownership stack) :
    (f.freeAll stack).WellFormed := by
  fun_induction freeAll f stack with
  | case1 f => exact ⟨hb, hf⟩
  | case2 f h stack hh ih => exact ih hb (hf.of_stale hh)
  | case3 f h stack l hl ih => exact ih (hb.release (contains_iff.mpr ⟨l, hl⟩)) (hf.release hl)

theorem live?_freeAll (f : Forest) (stack : List Handle) (k : Handle) :
    (f.freeAll stack).live? k = none ∨ (f.freeAll stack).live? k = f.live? k := by
  fun_induction freeAll f stack with
  | case1 f => exact Or.inr rfl
  | case2 f h stack hh ih => exact ih
  | case3 f h stack l hl ih =>
    rw [live?_release_of_live (contains_iff.mpr ⟨l, hl⟩)] at ih
    split_ifs at ih with hk
    · exact Or.inl (ih.elim id id)
    · exact ih

theorem live?_of_freeAll {k : Handle} {l : LiveNode} (h : (f.freeAll stack).live? k = some l) :
    f.live? k = some l := by
  rcases live?_freeAll f stack k with hk | hk
  · rw [hk] at h; cases h
  · exact hk ▸ h

/-- **Nothing else is freed**: a set of nodes that holds the stack and is closed under children holds
all that is freed. -/
theorem live?_freeAll_of_closed {P : Handle → Prop} (hstack : ∀ s ∈ stack, P s)
    (hclosed : ∀ p l c, f.live? p = some l → P p → c ∈ l.node.children → P c) {k : Handle}
    (hk : ¬ P k) : (f.freeAll stack).live? k = f.live? k := by
  fun_induction freeAll f stack with
  | case1 f => rfl
  | case2 f h stack hh ih => exact ih (fun s hs => hstack s (List.mem_cons_of_mem h hs)) hclosed
  | case3 f h stack l hl ih =>
    have hlive := live?_release_of_live (f := f) (contains_iff.mpr ⟨l, hl⟩)
    have hPh : P h := hstack h (by simp)
    rw [ih ?_ ?_, hlive, if_neg fun he : k = h => hk (he ▸ hPh)]
    · intro s hs
      rcases List.mem_append.mp hs with hs | hs
      · exact hclosed h l s hl hPh (List.mem_reverse.mp hs)
      · exact hstack s (List.mem_cons_of_mem h hs)
    · intro p m c hp
      rw [hlive] at hp
      split_ifs at hp with hph
      exact hclosed p m c hp

theorem not_contains_freeAll_of_mem {s : Handle} (hs : s ∈ stack) :
    ¬ (f.freeAll stack).contains s := by
  fun_induction freeAll f stack with
  | case1 f => simp at hs
  | case2 f h stack hh ih =>
    rcases List.mem_cons.mp hs with rfl | hs
    · rw [not_contains_iff]
      exact (live?_freeAll f stack s).elim id fun h => h.trans hh
    · exact ih hs
  | case3 f h stack l hl ih =>
    rcases List.mem_cons.mp hs with rfl | hs
    · rw [not_contains_iff]
      refine (live?_freeAll _ _ s).elim id fun h => h.trans ?_
      rw [live?_release, if_pos rfl]
    · exact ih (List.mem_append_right _ hs)

/-- **What is under the stack is freed.** -/
theorem not_contains_freeAll (hb : f.Bookkept) (hf : f.Ownership stack) {k s : Handle}
    (hs : s ∈ stack) (hk : f.Under k s) : ¬ (f.freeAll stack).contains k := by
  induction hk using Relation.ReflTransGen.head_induction_on with
  | refl => exact not_contains_freeAll_of_mem hs
  | head hkp _ ih =>
    intro hc
    obtain ⟨m, hm⟩ := contains_iff.mp hc
    obtain ⟨n, hn⟩ := owns_iff.mp hkp
    have hlive := live?_of_freeAll hm
    rw [hn] at hlive; cases hlive
    -- a node that is left keeps its owner, which is left too
    obtain ⟨l, hl, -⟩ := (wellFormed_freeAll hb hf).ownership.owner (owns_of_live? hm) (by simp)
    exact ih (contains_iff.mpr ⟨l, hl⟩)

/-! ### Several subtrees -/

theorem freeAll_append (f : Forest) (xs ys : List Handle) :
    f.freeAll (xs ++ ys) = (f.freeAll xs).freeAll ys := by
  fun_induction freeAll f xs with
  | case1 f => rfl
  | case2 f h stack hh ih => rw [List.cons_append, freeAll_cons_of_stale hh, ih]
  | case3 f h stack l hl ih =>
    rw [List.cons_append, freeAll_cons_of_live hl, ← List.append_assoc, ih]

theorem freeSubtrees_eq : ∀ (hs : List Handle) (f : Forest), f.freeSubtrees hs = f.freeAll hs
  | [], f => by simp [freeSubtrees]
  | h :: hs, f => by
    rw [← List.singleton_append, freeAll_append, ← freeSubtrees_eq hs]; rfl

end SyntaxForest.Forest
