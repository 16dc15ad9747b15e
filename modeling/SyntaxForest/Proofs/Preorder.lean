import SyntaxForest.Proofs.Lineage
import SyntaxForest.Walk.Visitor

/-! # Preorder

A walk with its own stack does what the recursion over the tree does (`Visitor.Walks`,
`Visitor.Walks.accept_eq`). `Listing hs xs` says that the trees below `hs`, one after another, have the
nodes `xs` in preorder. In a well-formed forest every live node has a listing, of what is under it
(`mem_listing`) and without repetition (`nodup_listing`), and `preorder` answers it
(`preorder_eq_ok`). -/

namespace SyntaxForest

/-! ### Walks -/

namespace Visitor
variable {σ : Type}

/-- A recursive walk of the trees below the listed nodes: the state before, the state after, and the
number of visits and ends of visits. -/
inductive Walks (v : Visitor σ) (f : Forest) : List Handle → σ → σ → Nat → Prop where
  | nil {s : σ} : Walks v f [] s s 0
  | cons {h : Handle} {rest : List Handle} {s s₁ s₂ s₃ : σ} {d : Bool} {m n : Nat} :
    v.visit f h s = (d, s₁) → Walks v f (f.below h d) s₁ s₂ m →
    Walks v f rest (v.endVisit f h s₂) s₃ n → Walks v f (h :: rest) s s₃ (m + n + 2)

theorem run_visit {v : Visitor σ} {f : Forest} {c : Handle} {d : Bool} {s s' : σ}
    (hv : v.visit f c s = (d, s')) (n : Nat) (h : Handle) (pending : List Handle)
    (frames : List Frame) :
    v.run f (n + 1) (⟨h, c :: pending⟩ :: frames) s =
      v.run f n (⟨c, f.below c d⟩ :: ⟨h, pending⟩ :: frames) s' := by
  rw [run]; simp only [step, enter, hv]

theorem run_endVisit (v : Visitor σ) (f : Forest) (n : Nat) (h : Handle) (frames : List Frame)
    (s : σ) : v.run f (n + 1) (⟨h, []⟩ :: frames) s = v.run f n frames (v.endVisit f h s) := rfl

/-- The stack machine walks the pending children of the top frame as the recursion does. -/
theorem Walks.run_eq {v : Visitor σ} {f : Forest} {pending : List Handle} {s s' : σ} {n : Nat}
    (hw : v.Walks f pending s s' n) : ∀ (h : Handle) (frames : List Frame) (m : Nat),
      v.run f (n + m) (⟨h, pending⟩ :: frames) s = v.run f m (⟨h, []⟩ :: frames) s' := by
  induction hw with
  | nil => intro h frames m; rw [Nat.zero_add]
  | @cons k rest s s₁ s₂ s₃ d a b hv _ _ ih₁ ih₂ =>
    intro h frames m
    rw [show a + b + 2 + m = (a + (b + m + 1)) + 1 by omega]
    rw [run_visit hv, ih₁ k (⟨h, rest⟩ :: frames) (b + m + 1), run_endVisit]
    exact ih₂ h frames m

/-- **A walk of a live node does what the recursion does**, if the recursion is not too long. -/
theorem Walks.accept_eq {v : Visitor σ} {f : Forest} {root : Handle} {s s' : σ} {n : Nat}
    (hw : v.Walks f [root] s s' n) (hr : f.contains root) (hn : n ≤ 2 * f.entries.size) :
    f.accept root v s = .ok s' := by
  obtain ⟨l, hl⟩ := Forest.contains_iff.mp hr
  cases hw with
  | @cons _ _ _ s₁ s₂ _ d a b hv hbelow hrest =>
    cases hrest
    obtain ⟨m, hm⟩ : ∃ m, 2 * f.entries.size = a + (m + 1) :=
      ⟨2 * f.entries.size - a - 1, by omega⟩
    simp only [Forest.accept, Forest.live, hl, enter, hv, bind, Except.bind, pure, Except.pure]
    rw [hm, hbelow.run_eq root [] (m + 1), run_endVisit]
    cases m <;> rfl

end Visitor

namespace Forest

variable {f : Forest}

/-! ### Listings -/

/-- The trees below the first handles have, one after another, the second handles in preorder. -/
inductive Listing (f : Forest) : List Handle → List Handle → Prop where
  | nil : Listing f [] []
  | cons {h : Handle} {l : LiveNode} {rest below after : List Handle} :
    f.live? h = some l → Listing f l.node.children below → Listing f rest after →
    Listing f (h :: rest) (h :: (below ++ after))

theorem Listing.append {hs ks xs ys : List Handle} (hl : f.Listing hs xs) (kl : f.Listing ks ys) :
    f.Listing (hs ++ ks) (xs ++ ys) := by
  induction hl with
  | nil => exact kl
  | cons h hb _ _ ih =>
    simpa only [List.cons_append, List.append_assoc] using Listing.cons h hb ih

theorem Ownership.under_iff {loose : List Handle} (hf : f.Ownership loose) {h : Handle}
    {l : LiveNode} (hl : f.live? h = some l) {k : Handle} (hk : ∀ c, f.owns h c → c ∉ loose) :
    f.Under k h ↔ k = h ∨ ∃ c ∈ l.node.children, f.Under k c := by
  constructor
  · intro hu
    rcases Relation.ReflTransGen.cases_tail hu with hu | ⟨c, hu, ho⟩
    · exact Or.inl hu.symm
    · obtain ⟨m, hm, hc⟩ := hf.owner ho (hk c ho)
      rw [hl] at hm; cases hm
      exact Or.inr ⟨c, hc, hu⟩
  · rintro (rfl | ⟨c, hc, hu⟩)
    · exact under_refl f k
    · exact hu.trans (under_of_owns (hf.child hl hc).1)

/-- **A listing has what is under its first handles.** -/
theorem mem_listing (hf : f.WellFormed) {hs xs : List Handle} (hl : f.Listing hs xs) {k : Handle} :
    k ∈ xs ↔ ∃ h ∈ hs, f.Under k h := by
  induction hl with
  | nil => simp
  | @cons h l rest below after hh _ _ ih₁ ih₂ =>
    have := hf.ownership.under_iff hh (k := k) (by simp)
    simp only [List.mem_cons, List.mem_append, ih₁, ih₂, exists_eq_or_imp, this, or_assoc]

theorem Listing.child_mem (hf : f.WellFormed) {hs xs : List Handle} (hl : f.Listing hs xs)
    {x k : Handle} {l : LiveNode} (hx : x ∈ xs) (hlive : f.live? x = some l)
    (hk : k ∈ l.node.children) : k ∈ xs := by
  obtain ⟨h, hh, hu⟩ := (mem_listing hf hl).mp hx
  have hkx : f.Under k x := under_of_owns (hf.ownership.child hlive hk).1
  exact (mem_listing hf hl).mpr ⟨h, hh, hkx.trans hu⟩

theorem Ownership.eq_of_under_sibling {loose : List Handle} (hf : f.Ownership loose) {h a b : Handle}
    {l : LiveNode} (hl : f.live? h = some l) (ha : a ∈ l.node.children) (hb : b ∈ l.node.children)
    (hu : f.Under a b) : a = b := by
  rcases (Under.of_owner (hf.child hl ha).1).mp hu with h | h
  · exact h.symm
  · exact absurd h (hf.not_under (hf.child hl hb).1)

/-- **A listing has no repetition**, if its first handles are not under one another. -/
theorem nodup_listing (hf : f.WellFormed) {hs xs : List Handle} (hl : f.Listing hs xs)
    (hnd : hs.Nodup) (hu : ∀ a ∈ hs, ∀ b ∈ hs, f.Under a b → a = b) : xs.Nodup := by
  induction hl with
  | nil => exact List.nodup_nil
  | @cons h l rest below after hh hbelow hafter ih₁ ih₂ =>
    have hnd' := List.nodup_cons.mp hnd
    have hne : ∀ r ∈ rest, h ≠ r := fun r hr he => hnd'.1 (he ▸ hr)
    refine List.nodup_cons.mpr ⟨fun hm => ?_, List.nodup_append.mpr ⟨?_, ?_, ?_⟩⟩
    · rcases List.mem_append.mp hm with hm | hm
      · obtain ⟨c, hc, hu⟩ := (mem_listing hf hbelow).mp hm
        exact hf.ownership.not_under (hf.ownership.child hh hc).1 hu
      · obtain ⟨r, hr, hur⟩ := (mem_listing hf hafter).mp hm
        exact hne r hr (hu h (by simp) r (by simp [hr]) hur)
    · exact ih₁ (hf.ownership.nodup hh) fun a ha b hb => hf.ownership.eq_of_under_sibling hh ha hb
    · exact ih₂ hnd'.2 fun a ha b hb => hu a (by simp [ha]) b (by simp [hb])
    · rintro k hk _ hk' rfl
      obtain ⟨c, hc, huc⟩ := (mem_listing hf hbelow).mp hk
      obtain ⟨r, hr, hur⟩ := (mem_listing hf hafter).mp hk'
      have huh := huc.trans (under_of_owns (hf.ownership.child hh hc).1)
      rcases under_total huh hur with h | h
      · exact hne r hr (hu _ (by simp) r (by simp [hr]) h)
      · exact hne r hr (hu r (by simp [hr]) _ (by simp) h).symm

/-! ### Every live node has a listing -/

theorem Listing.live {hs xs : List Handle} (hl : f.Listing hs xs) : ∀ k ∈ xs, f.contains k := by
  induction hl with
  | nil => simp
  | cons h _ _ ih₁ ih₂ =>
    intro k hk
    rcases List.mem_cons.mp hk with rfl | hk
    · exact contains_iff.mpr ⟨_, h⟩
    · exact (List.mem_append.mp hk).elim (ih₁ k) (ih₂ k)

theorem length_lineage_of_owns (hf : f.WellFormed) {p c : Handle} (ho : f.owns p c) :
    (f.lineage c).length = (f.lineage p).length + 1 := by
  obtain ⟨l, hl, -⟩ := hf.ownership.owner ho (by simp)
  have hp := contains_iff.mpr ⟨l, hl⟩
  obtain ⟨path, hpath⟩ := exists_line hf hp
  obtain ⟨n, hn⟩ := owns_iff.mp ho
  rw [lineage_eq hf hp hpath, lineage_eq hf (contains_of_owns ho) (.owned hn hpath)]
  simp

theorem length_lineage_pos (hf : f.WellFormed) {h : Handle} (hh : f.contains h) :
    0 < (f.lineage h).length :=
  List.length_pos_of_mem ((mem_lineage hf hh).mpr (under_refl f h))

theorem length_lineage_le (hf : f.WellFormed) {h : Handle} (hh : f.contains h) :
    (f.lineage h).length ≤ f.entries.size := by
  obtain ⟨path, hpath⟩ := exists_line hf hh
  rw [lineage_eq hf hh hpath]
  exact hpath.length_le hf hh

/-- Induction from the leaves to the roots: a child is further away from the root than its owner. -/
theorem exists_listing (hf : f.WellFormed) {hs : List Handle} (hh : ∀ h ∈ hs, f.contains h) :
    ∃ xs, f.Listing hs xs := by
  suffices ∀ n, ∀ hs : List Handle, (∀ h ∈ hs, f.contains h ∧
      f.entries.size < (f.lineage h).length + n) → ∃ xs, f.Listing hs xs from
    this (f.entries.size + 1) hs fun h hm => ⟨hh h hm, by omega⟩
  intro n
  induction n with
  | zero =>
    intro hs hh
    cases hs with
    | nil => exact ⟨[], .nil⟩
    | cons h hs =>
      obtain ⟨hc, hlt⟩ := hh h (by simp)
      have := length_lineage_le hf hc
      omega
  | succ n ih =>
    intro hs
    induction hs with
    | nil => exact fun _ => ⟨[], .nil⟩
    | cons h hs ihs =>
      intro hh
      obtain ⟨hc, hlt⟩ := hh h (by simp)
      obtain ⟨l, hl⟩ := contains_iff.mp hc
      obtain ⟨below, hbelow⟩ := ih l.node.children fun c hcm => by
        have ho := (hf.ownership.child hl hcm).1
        have := length_lineage_of_owns hf ho
        exact ⟨contains_of_owns ho, by omega⟩
      obtain ⟨after, hafter⟩ := ihs fun k hk => hh k (by simp [hk])
      exact ⟨_, .cons hl hbelow hafter⟩

/-- **Every live node has a listing.** -/
theorem exists_listing_of_contains (hf : f.WellFormed) {h : Handle} (hh : f.contains h) :
    ∃ xs, f.Listing [h] xs :=
  exists_listing hf (List.forall_mem_singleton.mpr hh)

/-! ### Preorder -/

theorem Listing.walks {hs xs : List Handle} (hl : f.Listing hs xs) : ∀ seen : List Handle,
    Visitor.visited.Walks f hs seen (xs.reverse ++ seen) (2 * xs.length) := by
  induction hl with
  | nil => exact fun seen => .nil
  | @cons h l rest below after hh _ _ ih₁ ih₂ =>
    intro seen
    have hb : f.below h true = l.node.children := by simp [Forest.below, hh]
    have hvisit : Visitor.visited.visit f h seen = (true, h :: seen) := rfl
    have hw := Visitor.Walks.cons hvisit (hb ▸ ih₁ (h :: seen)) (ih₂ (below.reverse ++ h :: seen))
    have hlen : 2 * (h :: (below ++ after)).length = 2 * below.length + 2 * after.length + 2 := by
      simp; omega
    have hrev : (h :: (below ++ after)).reverse ++ seen =
        after.reverse ++ (below.reverse ++ h :: seen) := by simp
    rw [hlen, hrev]
    exact hw

theorem nodup_preorder (hf : f.WellFormed) {h : Handle} {xs : List Handle} (hl : f.Listing [h] xs) :
    xs.Nodup :=
  nodup_listing hf hl (List.nodup_singleton h) fun a ha b hb _ => by simp_all

/-- **`preorder` answers the listing of a node**, if that has no repetition. -/
theorem Listing.preorder_of_nodup {h : Handle} {xs : List Handle} (hl : f.Listing [h] xs)
    (hnd : xs.Nodup) : f.preorder h = .ok xs := by
  have hle := length_le_size hnd hl.live
  have hh : f.contains h := by cases hl with | cons h _ _ => exact contains_iff.mpr ⟨_, h⟩
  have haccept := (hl.walks []).accept_eq hh (by omega)
  simp [preorder, haccept, bind, Except.bind, pure, Except.pure]

theorem preorder_eq_ok (hf : f.WellFormed) {h : Handle} {xs : List Handle} (hl : f.Listing [h] xs) :
    f.preorder h = .ok xs := hl.preorder_of_nodup (nodup_preorder hf hl)

theorem Listing.walks_ended {hs xs : List Handle} (hl : f.Listing hs xs) : ∃ ys : List Handle,
    ys.Perm xs ∧ ∀ seen, Visitor.ended.Walks f hs seen (ys ++ seen) (2 * xs.length) := by
  induction hl with
  | nil => exact ⟨[], .nil, fun seen => .nil⟩
  | @cons h l rest below after hh _ _ ih₁ ih₂ =>
    obtain ⟨ys₁, hp₁, hw₁⟩ := ih₁
    obtain ⟨ys₂, hp₂, hw₂⟩ := ih₂
    refine ⟨ys₂ ++ h :: ys₁, ?_, fun seen => ?_⟩
    · exact List.perm_middle.trans ((List.perm_append_comm.trans (hp₁.append hp₂)).cons h)
    · have hb : f.below h true = l.node.children := by simp [Forest.below, hh]
      have hvisit : Visitor.ended.visit f h seen = (true, seen) := rfl
      have hw := Visitor.Walks.cons hvisit (hb ▸ hw₁ seen) (hw₂ (h :: (ys₁ ++ seen)))
      have hlen : 2 * (h :: (below ++ after)).length = 2 * below.length + 2 * after.length + 2 := by
        simp; omega
      rw [hlen, List.append_assoc]
      exact hw

theorem postorder_eq_ok (hf : f.WellFormed) {h : Handle} {xs : List Handle} (hl : f.Listing [h] xs) :
    ∃ ys, f.postorder h = .ok ys ∧ ys.Perm xs := by
  have hle := length_le_size (nodup_preorder hf hl) hl.live
  have hh : f.contains h := by cases hl with | cons h _ _ => exact contains_iff.mpr ⟨_, h⟩
  obtain ⟨ys, hp, hw⟩ := hl.walks_ended
  have haccept := (hw []).accept_eq hh (by omega)
  refine ⟨ys.reverse, ?_, ys.reverse_perm.trans hp⟩
  simp [postorder, haccept, bind, Except.bind, pure, Except.pure]

theorem preorder_eq_error {h : Handle} (hh : f.live? h = none) :
    f.preorder h = .error (.staleNode h) := by
  simp [preorder, accept, live, hh, bind, Except.bind]

theorem postorder_eq_error {h : Handle} (hh : f.live? h = none) :
    f.postorder h = .error (.staleNode h) := by
  simp [postorder, accept, live, hh, bind, Except.bind]

end Forest

end SyntaxForest
