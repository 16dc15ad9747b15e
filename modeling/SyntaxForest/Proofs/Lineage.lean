import SyntaxForest.Forest.Lineage
import SyntaxForest.Proofs.Ownership

/-! # Lineages

In a well-formed forest the climb from a node meets each owner above it once and ends at a root, within
as many steps as there are entries: `exists_line`, `lineage_eq`. So `lineage` lists what a node is
under (`mem_lineage`), and `isAncestor` decides it (`isAncestor_eq_ok`). -/

namespace SyntaxForest.Forest

variable {f : Forest}

/-! ### Under -/

theorem under_refl (f : Forest) (h : Handle) : f.Under h h := Relation.ReflTransGen.refl

theorem Under.trans {k a b : Handle} (hka : f.Under k a) (hab : f.Under a b) : f.Under k b :=
  Relation.ReflTransGen.trans hka hab

theorem under_of_owns {p c : Handle} (h : f.owns p c) : f.Under c p := Relation.ReflTransGen.single h

theorem Under.eq_of_root {r a : Handle} {n : Node} (hr : f.live? r = some ⟨n, none⟩)
    (h : f.Under r a) : a = r := by
  rcases Relation.ReflTransGen.cases_head h with h | ⟨p, hp, -⟩
  · exact h.symm
  · exact absurd hp (not_owns_of_root hr)

theorem Under.of_owner {h p a : Handle} (ho : f.owns p h) : f.Under h a ↔ a = h ∨ f.Under p a := by
  constructor
  · intro hu
    rcases Relation.ReflTransGen.cases_head hu with hu | ⟨q, hq, hu⟩
    · exact Or.inl hu.symm
    · exact Or.inr (owner_unique ho hq ▸ hu)
  · rintro (rfl | hu)
    · exact under_refl f a
    · exact (under_of_owns ho).trans hu

theorem Under.contains {h a : Handle} (hf : f.WellFormed) (hh : f.contains h) (hu : f.Under h a) :
    f.contains a := by
  induction hu with
  | refl => exact hh
  | tail _ ho _ =>
    obtain ⟨l, hl, -⟩ := hf.ownership.owner ho (by simp)
    exact contains_iff.mpr ⟨l, hl⟩

theorem under_total {k a b : Handle} (ha : f.Under k a) (hb : f.Under k b) :
    f.Under a b ∨ f.Under b a :=
  Relation.ReflTransGen.total_of_right_unique (fun _ _ _ hp hq => owner_unique hp hq) ha hb

/-- **No node is below itself.** -/
theorem Ownership.not_under {loose : List Handle} (hf : f.Ownership loose) {p c : Handle}
    (ho : f.owns p c) : ¬ f.Under p c := by
  intro hu
  have hcycle : Relation.TransGen (fun p c => (f.owns p c : Prop)) c c :=
    Relation.TransGen.tail' (Relation.reflTransGen_swap.mp hu) ho
  exact hf.grounded.transGen.asymmetric _ _ hcycle hcycle

/-! ### Lines -/

/-- `path` leads from the root of a tree down to `h`. -/
inductive Line (f : Forest) : Handle → List Handle → Prop where
  | root {h : Handle} {n : Node} : f.live? h = some ⟨n, none⟩ → Line f h [h]
  | owned {h p : Handle} {n : Node} {path : List Handle} :
    f.live? h = some ⟨n, some p⟩ → Line f p path → Line f h (path ++ [h])

theorem Line.climb_eq {h : Handle} {path : List Handle} (hl : f.Line h path) :
    ∀ {n : Nat}, path.length ≤ n → ∀ acc, f.climb n h acc = path ++ acc := by
  induction hl with
  | root hr =>
    intro n hn acc
    obtain ⟨m, rfl⟩ : ∃ m, n = m + 1 := ⟨n - 1, by simp at hn; omega⟩
    simp [climb, hr]
  | @owned h p _ path ho _ ih =>
    intro n hn acc
    rw [List.length_append, List.length_singleton] at hn
    obtain ⟨m, rfl⟩ : ∃ m, n = m + 1 := ⟨n - 1, by omega⟩
    simp only [climb, ho]
    rw [ih (by omega), List.append_assoc]; rfl

theorem Line.mem_iff {h : Handle} {path : List Handle} (hl : f.Line h path) {a : Handle} :
    a ∈ path ↔ f.Under h a := by
  induction hl with
  | @root h _ hr =>
    rw [List.mem_singleton]
    exact ⟨fun ha => ha ▸ under_refl f h, fun hu => hu.eq_of_root hr⟩
  | owned ho _ ih =>
    rw [List.mem_append, List.mem_singleton, ih, Under.of_owner (owns_of_live? ho), or_comm]

theorem Line.nodup {loose : List Handle} (hf : f.Ownership loose) {h : Handle} {path : List Handle}
    (hl : f.Line h path) : path.Nodup := by
  induction hl with
  | root => exact List.nodup_singleton _
  | owned ho hl ih =>
    refine List.nodup_append.mpr ⟨ih, List.nodup_singleton _, fun a ha b hb hab => ?_⟩
    rw [List.mem_singleton] at hb
    subst hb hab
    exact hf.not_under (owns_of_live? ho) (hl.mem_iff.mp ha)

theorem exists_line (hf : f.WellFormed) {h : Handle} (hh : f.contains h) : ∃ path, f.Line h path := by
  induction h using hf.ownership.grounded.induction with
  | _ h ih =>
    obtain ⟨⟨n, o⟩, hn⟩ := contains_iff.mp hh
    cases o with
    | none => exact ⟨_, .root hn⟩
    | some p =>
      have ho := owns_of_live? hn
      obtain ⟨l, hl, -⟩ := hf.ownership.owner ho (by simp)
      obtain ⟨path, hpath⟩ := ih p ho (contains_iff.mpr ⟨l, hl⟩)
      exact ⟨_, .owned hn hpath⟩

theorem Line.length_le (hf : f.WellFormed) {h : Handle} (hh : f.contains h) {path : List Handle}
    (hl : f.Line h path) : path.length ≤ f.entries.size :=
  length_le_size (hl.nodup hf.ownership) fun _ ha => (hl.mem_iff.mp ha).contains hf hh

/-- **The lineage of a node leads from its root down to it.** -/
theorem lineage_eq (hf : f.WellFormed) {h : Handle} (hh : f.contains h) {path : List Handle}
    (hl : f.Line h path) : f.lineage h = path := by
  rw [lineage, hl.climb_eq (hl.length_le hf hh), List.append_nil]

theorem mem_lineage (hf : f.WellFormed) {h : Handle} (hh : f.contains h) {a : Handle} :
    a ∈ f.lineage h ↔ f.Under h a := by
  obtain ⟨path, hl⟩ := exists_line hf hh
  rw [lineage_eq hf hh hl, hl.mem_iff]

/-- **Ancestors are what a node is under.** -/
theorem isAncestor_eq_ok (hf : f.WellFormed) {a h : Handle} (ha : f.contains a) (hh : f.contains h) :
    ∃ b, f.isAncestor a h = .ok b ∧ (b ↔ f.Under h a) := by
  obtain ⟨l, hl⟩ := contains_iff.mp ha
  obtain ⟨m, hm⟩ := contains_iff.mp hh
  refine ⟨(f.lineage h).contains a, ?_, by rw [List.contains_iff_mem, mem_lineage hf hh]⟩
  simp [isAncestor, live, hl, hm, bind, Except.bind, pure, Except.pure]

theorem contains_rootOf (hf : f.WellFormed) {h r : Handle} (hr : f.rootOf h = .ok r) :
    f.contains r := by
  rcases hl : f.live? h with _ | l
  · simp [rootOf, live, hl, bind, Except.bind] at hr
  · have hh : f.contains h := contains_iff.mpr ⟨l, hl⟩
    obtain rfl : (f.lineage h).headD h = r := by
      simpa [rootOf, live, hl, bind, Except.bind, pure, Except.pure] using hr
    cases hp : f.lineage h with
    | nil => exact hh
    | cons a path =>
      have ha : a ∈ f.lineage h := by simp [hp]
      exact ((mem_lineage hf hh).mp ha).contains hf hh

theorem exists_root (hf : f.WellFormed) {h : Handle} (hh : f.contains h) :
    ∃ r n, f.Under h r ∧ f.live? r = some ⟨n, none⟩ := by
  obtain ⟨path, hl⟩ := exists_line hf hh
  clear hh
  induction hl with
  | @root h n hr => exact ⟨h, n, under_refl f h, hr⟩
  | owned ho _ ih =>
    obtain ⟨r, n, hu, hr⟩ := ih
    exact ⟨r, n, (under_of_owns (owns_of_live? ho)).trans hu, hr⟩

end SyntaxForest.Forest
