import SyntaxForest.Proofs.Preorder
import SyntaxForest.Proofs.Run
import Mathlib.Algebra.GroupWithZero.Nat

/-! # Owners above, children below

A forest is kept twice: each node names its owner, and each node lists its children. Climbing the
owner links from a node comes to an end at the root (`Climb`), or, in search of an ancestor, where
the ancestor is met (`Search`). The answers of `rootOf` and `isAncestor` are those of the climbs, and
they are what the preorders say too: an ancestor has the node in its preorder, after the owner of
the node (`Listing.owner_first`), and the preorders of the roots have each node once
(`exists_preorders_of_roots`).

* `owners_agree_with_preorders`: both views agree in every forest that a run reaches. -/

namespace SyntaxForest.Forest

variable {f : Forest} {a h r x : Handle} {hs xs below : List Handle}

/-! ### Climbing -/

/-- **A climb to the root**: the owner links from the first handle lead to the second one, which
has no owner. -/
inductive Climb (f : Forest) : Handle → Handle → Prop
  | root {h : Handle} : f.owner? h = .ok none → Climb f h h
  | owner {h p r : Handle} : f.owner? h = .ok (some p) → Climb f p r → Climb f h r

/-- **A climb in search of an ancestor**, with the answer whether it was met before the climb came
to a node without an owner. -/
inductive Search (f : Forest) (a : Handle) : Handle → Bool → Prop
  | met : Search f a a true
  | root {h : Handle} : h ≠ a → f.owner? h = .ok none → Search f a h false
  | owner {h p : Handle} {b : Bool} :
    h ≠ a → f.owner? h = .ok (some p) → Search f a p b → Search f a h b

theorem Climb.under (hc : f.Climb h r) : f.Under h r := by
  induction hc with
  | root => exact under_refl f _
  | owner ho _ ih =>
    obtain ⟨⟨n, _⟩, hn, rfl⟩ := owner?_eq_ok.mp ho
    exact (under_of_owns (owns_of_live? hn)).trans ih

theorem Climb.mem_roots (hc : f.Climb h r) : r ∈ f.roots := by
  induction hc with
  | root ho =>
    obtain ⟨⟨n, _⟩, hn, rfl⟩ := owner?_eq_ok.mp ho
    exact Forest.mem_roots.mpr ⟨n, hn⟩
  | owner _ _ ih => exact ih

theorem Line.climb (hl : f.Line h xs) : ∃ r rest, xs = r :: rest ∧ f.Climb h r := by
  induction hl with
  | @root h n hn => exact ⟨h, [], rfl, .root (owner?_eq_ok.mpr ⟨_, hn, rfl⟩)⟩
  | @owned h p n path hn _ ih =>
    obtain ⟨r, rest, rfl, hclimb⟩ := ih
    exact ⟨r, rest ++ [h], rfl, .owner (owner?_eq_ok.mpr ⟨_, hn, rfl⟩) hclimb⟩

theorem rootOf_eq_ok (hf : f.WellFormed) (hh : f.contains h) :
    ∃ r, f.rootOf h = .ok r ∧ f.Climb h r := by
  obtain ⟨path, hline⟩ := exists_line hf hh
  obtain ⟨r, rest, rfl, hclimb⟩ := hline.climb
  obtain ⟨l, hl⟩ := contains_iff.mp hh
  refine ⟨r, ?_, hclimb⟩
  rw [rootOf, live_eq_ok.mpr hl, lineage_eq hf hh hline]
  rfl

theorem Line.search (hl : f.Line h xs) (a : Handle) :
    ∃ b, f.Search a h b ∧ (b = true ↔ f.Under h a) := by
  induction hl with
  | @root h n hn =>
    by_cases ha : h = a
    · exact ⟨true, ha ▸ .met, by simp [ha, under_refl]⟩
    · have hno : ¬ f.Under h a := fun hu => ha (hu.eq_of_root hn).symm
      exact ⟨false, .root ha (owner?_eq_ok.mpr ⟨_, hn, rfl⟩), by simp [hno]⟩
  | @owned h p n path hn _ ih =>
    by_cases ha : h = a
    · exact ⟨true, ha ▸ .met, by simp [ha, under_refl]⟩
    · obtain ⟨b, hsearch, hb⟩ := ih
      refine ⟨b, .owner ha (owner?_eq_ok.mpr ⟨_, hn, rfl⟩) hsearch, hb.trans ?_⟩
      rw [Under.of_owner (owns_of_live? hn), or_iff_right (Ne.symm ha)]

/-! ### Preorders -/

theorem exists_preorder (hf : f.WellFormed) (hh : f.contains h) :
    ∃ below, f.Listing [h] (h :: below) ∧ f.preorder h = .ok (h :: below) := by
  obtain ⟨xs, hl⟩ := exists_listing_of_contains hf hh
  cases hl with
  | cons hlive hbelow hafter =>
    have hl := Listing.cons hlive hbelow hafter
    exact ⟨_, hl, preorder_eq_ok hf hl⟩

theorem mem_preorder (hf : f.WellFormed) (hl : f.Listing [h] xs) : x ∈ xs ↔ f.Under x h := by
  simp [mem_listing hf hl]

/-- **`isAncestor` and the search answer** whether the node is in the preorder. -/
theorem exists_isAncestor (hf : f.WellFormed) (hl : f.Listing [a] xs) (hh : f.contains h) :
    ∃ b, f.isAncestor a h = .ok b ∧ f.Search a h b ∧ (b = true ↔ h ∈ xs) := by
  have ha : f.contains a := hl.live a ((mem_preorder hf hl).mpr (under_refl f a))
  obtain ⟨path, hline⟩ := exists_line hf hh
  obtain ⟨b, hsearch, hb⟩ := hline.search a
  obtain ⟨b', hancestor, hb'⟩ := isAncestor_eq_ok hf ha hh
  obtain rfl : b = b' := Bool.eq_iff_iff.mpr (hb.trans hb'.symm)
  exact ⟨b, hancestor, hsearch, hb.trans (mem_preorder hf hl).symm⟩

/-- **Owners stand first**: a node of a listing that is none of the first handles comes after its
owner. -/
theorem Listing.owner_first (hf : f.WellFormed) (hl : f.Listing hs xs) :
    ∀ x ∈ xs, x ∈ hs ∨ ∃ p, f.owns p x ∧ [p, x].Sublist xs := by
  induction hl with
  | nil => simp
  | @cons h l rest below after hlive _ _ ih₁ ih₂ =>
    intro x hx
    rcases List.mem_cons.mp hx with rfl | hx
    · exact Or.inl List.mem_cons_self
    rcases List.mem_append.mp hx with hx | hx
    -- below the first handle, whose children stand after it
    · right
      rcases ih₁ x hx with hc | ⟨p, ho, hsub⟩
      · have hfirst : [h, x].Sublist (h :: (below ++ after)) :=
          .cons_cons h (List.singleton_sublist.mpr (List.mem_append_left after hx))
        exact ⟨h, (hf.ownership.child hlive hc).1, hfirst⟩
      · exact ⟨p, ho, (hsub.trans (List.sublist_append_left below after)).cons h⟩
    -- below one of the other handles
    · rcases ih₂ x hx with hr | ⟨p, ho, hsub⟩
      · exact Or.inl (List.mem_cons_of_mem h hr)
      · exact Or.inr ⟨p, ho, (hsub.trans (List.sublist_append_right below after)).cons h⟩

theorem exists_owner_before (hf : f.WellFormed) (hl : f.Listing [a] (a :: below)) (hx : x ∈ below) :
    ∃ p, f.owner? x = .ok (some p) ∧ [p, x].Sublist (a :: below) := by
  have hnodup := nodup_preorder hf hl
  rcases hl.owner_first hf x (List.mem_cons_of_mem a hx) with hxa | ⟨p, ho, hsub⟩
  · obtain rfl := List.mem_singleton.mp hxa
    exact absurd hx (List.nodup_cons.mp hnodup).1
  · obtain ⟨n, hn⟩ := owns_iff.mp ho
    exact ⟨p, owner?_eq_ok.mpr ⟨_, hn, rfl⟩, hsub⟩

/-! ### The roots -/

theorem Climb.eq_of_mem_roots (hc : f.Climb h r) (ha : a ∈ f.roots) (hu : f.Under h a) : a = r := by
  obtain ⟨n, hn⟩ := Forest.mem_roots.mp ha
  obtain ⟨m, hm⟩ := Forest.mem_roots.mp hc.mem_roots
  rcases under_total hu hc.under with har | hra
  · exact (har.eq_of_root hn).symm
  · exact hra.eq_of_root hm

theorem contains_of_mem_roots (ha : a ∈ f.roots) : f.contains a := by
  obtain ⟨n, hn⟩ := mem_roots.mp ha
  exact contains_iff.mpr ⟨_, hn⟩

/-- **One root has the node in its preorder**: the one where the climb ends. -/
theorem Climb.eq_iff (hf : f.WellFormed) (hc : f.Climb h r) :
    a = r ↔ a ∈ f.roots ∧ ∃ ys, f.preorder a = .ok ys ∧ h ∈ ys := by
  constructor
  · rintro rfl
    obtain ⟨ys, hl, hys⟩ := exists_preorder hf (contains_of_mem_roots hc.mem_roots)
    exact ⟨hc.mem_roots, _, hys, (mem_preorder hf hl).mpr hc.under⟩
  · rintro ⟨ha, ys, hys, hmem⟩
    obtain ⟨zs, hl, hzs⟩ := exists_preorder hf (contains_of_mem_roots ha)
    cases hys.symm.trans hzs
    exact hc.eq_of_mem_roots ha ((mem_preorder hf hl).mp hmem)

theorem Listing.mapM_preorder (hf : f.WellFormed) (hl : f.Listing hs xs) :
    ∃ xss, hs.mapM f.preorder = .ok xss ∧ xss.flatten = xs := by
  induction hl with
  | nil => exact ⟨[], rfl, rfl⟩
  | @cons h l rest below after hlive hbelow _ _ ih =>
    obtain ⟨xss, hxss, rfl⟩ := ih
    have hfirst : f.Listing [h] (h :: (below ++ [])) := .cons hlive hbelow .nil
    refine ⟨(h :: (below ++ [])) :: xss, ?_, by simp⟩
    rw [List.mapM_cons, preorder_eq_ok hf hfirst, hxss]
    rfl

/-- **The preorders of the roots** have every node once. -/
theorem exists_preorders_of_roots (hf : f.WellFormed) :
    ∃ xss, f.roots.mapM f.preorder = .ok xss ∧ xss.flatten.Nodup ∧
      (∀ k, k ∈ xss.flatten ↔ f.contains k) := by
  obtain ⟨xs, hl⟩ := exists_listing hf fun a ha => contains_of_mem_roots ha
  obtain ⟨xss, hxss, rfl⟩ := hl.mapM_preorder hf
  have hroots : f.roots.Nodup := by
    rw [roots_eq_handlesWhere]
    exact f.nodup_handlesWhere _
  -- no root is under another one, and every node is under the root that it climbs to
  refine ⟨xss, hxss, nodup_listing hf hl hroots fun a ha b _ hu => ?_, fun k => ⟨hl.live k, ?_⟩⟩
  · obtain ⟨n, hn⟩ := mem_roots.mp ha
    exact (hu.eq_of_root hn).symm
  · intro hk
    obtain ⟨r, -, hclimb⟩ := rootOf_eq_ok hf hk
    exact (mem_listing hf hl).mpr ⟨r, hclimb.mem_roots, hclimb.under⟩

/-! ### Both views in a run -/

/-- **The view from below and the view from above agree**, in every forest that a run reaches. Of
live nodes `a` and `n`:
* the preorder of `a` starts with `a`, has no handle twice, and lists every other node after its
  owner;
* the search for `a` from `n` ends, and `isAncestor` answers as the search does: whether `n` is in
  the preorder of `a`;
* the climb from `n` ends where `rootOf` says, which is the only root that has `n` in its preorder;
* the preorders of the roots together have every live handle once, as many as there are nodes. -/
theorem owners_agree_with_preorders (steps : List Step) {a n : Handle}
    (ha : (empty.run steps).contains a) (hn : (empty.run steps).contains n) :
    ∃ below b r xss,
      ((empty.run steps).preorder a = .ok (a :: below) ∧ (a :: below).Nodup ∧
        ∀ x ∈ below, ∃ p, (empty.run steps).owner? x = .ok (some p) ∧
          [p, x].Sublist (a :: below)) ∧
      ((empty.run steps).isAncestor a n = .ok b ∧ (empty.run steps).Search a n b ∧
        (b = true ↔ n ∈ a :: below)) ∧
      ((empty.run steps).rootOf n = .ok r ∧ (empty.run steps).Climb n r ∧
        ∀ k, k = r ↔ k ∈ (empty.run steps).roots ∧
          ∃ ys, (empty.run steps).preorder k = .ok ys ∧ n ∈ ys) ∧
      ((empty.run steps).roots.mapM (empty.run steps).preorder = .ok xss ∧ xss.flatten.Nodup ∧
        (∀ k, k ∈ xss.flatten ↔ (empty.run steps).contains k) ∧
        (xss.map List.length).sum = (empty.run steps).size) := by
  have hf := wellFormed_run steps wellFormed_empty
  generalize empty.run steps = f at *
  obtain ⟨below, hl, hpreorder⟩ := exists_preorder hf ha
  obtain ⟨b, hancestor⟩ := exists_isAncestor hf hl hn
  obtain ⟨r, hroot, hclimb⟩ := rootOf_eq_ok hf hn
  obtain ⟨xss, hxss, hnd, hmem⟩ := exists_preorders_of_roots hf
  have hsize : xss.flatten.length = f.size := hf.books.length_eq_size hnd hmem
  rw [List.length_flatten] at hsize
  exact ⟨below, b, r, xss,
    ⟨hpreorder, nodup_preorder hf hl, fun x hx => exists_owner_before hf hl hx⟩, hancestor,
    ⟨hroot, hclimb, fun k => hclimb.eq_iff hf⟩, hxss, hnd, hmem, hsize⟩

/-- A sum of two numbers in parentheses, beside a name: the sum is above its second operand, which
climbs to the parentheses. -/
theorem owners_agree_with_preorders_sum :
    ∃ f, f = empty.run [.operate (.number "1"), .operate (.number "2"),
        .operate (.chain none .plus ⟨0, 0⟩ ⟨1, 0⟩), .operate (.parenthesized ⟨2, 0⟩),
        .operate (.name "x")] ∧
      f.contains ⟨2, 0⟩ ∧ f.contains ⟨1, 0⟩ ∧ f.isAncestor ⟨2, 0⟩ ⟨1, 0⟩ = .ok true ∧
      f.Climb ⟨1, 0⟩ ⟨3, 0⟩ ∧ f.roots.mapM f.preorder =
        .ok [[⟨3, 0⟩, ⟨2, 0⟩, ⟨0, 0⟩, ⟨1, 0⟩], [⟨4, 0⟩]] ∧ f.size = 5 := by
  refine ⟨_, rfl, rfl, rfl, ?_⟩
  obtain ⟨below, b, r, xss, ⟨hpreorder, -, -⟩, ⟨hancestor, -, hmem⟩, ⟨hroot, hclimb, -⟩, hxss, -, -,
    hsize⟩ := owners_agree_with_preorders [.operate (.number "1"), .operate (.number "2"),
    .operate (.chain none .plus ⟨0, 0⟩ ⟨1, 0⟩), .operate (.parenthesized ⟨2, 0⟩),
    .operate (.name "x")] (a := ⟨2, 0⟩) (n := ⟨1, 0⟩) rfl rfl
  obtain rfl : [⟨0, 0⟩, ⟨1, 0⟩] = below := by cases hpreorder; rfl
  obtain rfl : ⟨3, 0⟩ = r := by cases hroot; rfl
  obtain rfl : [[⟨3, 0⟩, ⟨2, 0⟩, ⟨0, 0⟩, ⟨1, 0⟩], [⟨4, 0⟩]] = xss := by cases hxss; rfl
  obtain rfl : b = true := hmem.mpr (by simp)
  exact ⟨hancestor, hclimb, hxss, hsize.symm⟩

end SyntaxForest.Forest
