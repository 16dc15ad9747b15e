import SyntaxForest.Proofs.Ownership

/-! # Forests that look alike

Two forests look alike if every handle names the same node, with the same owner, in both. They may
differ in the generations of empty entries and in the free list. Everything that users can ask depends
on the look alone: the number of nodes (`Alike.size_eq`) and the list of roots (`Alike.roots_eq`)
too.

Two forests have one shape if they look alike up to the types and the source ranges of the nodes.
Ownership depends on the shape alone (`SameShape.ownership`). -/

namespace SyntaxForest.Forest

variable {f f' f'' : Forest}

/-! ### Shape -/

/-- Two forests have one shape: each handle names a node of the same payload, with the same owner, in
both. -/
def SameShape (f f' : Forest) : Prop :=
  ∀ k, (f'.live? k).map (fun l => (l.node.payload, l.owner?)) =
    (f.live? k).map fun l => (l.node.payload, l.owner?)

namespace SameShape

theorem symm (h : f.SameShape f') : f'.SameShape f := fun k => (h k).symm

theorem live? (h : f.SameShape f') {k : Handle} {l' : LiveNode} (hk : f'.live? k = some l') :
    ∃ l, f.live? k = some l ∧ l'.node.payload = l.node.payload ∧ l'.owner? = l.owner? := by
  have hk' := h k
  rw [hk, Option.map_some, eq_comm, Option.map_eq_some_iff] at hk'
  obtain ⟨l, hl, he⟩ := hk'
  rw [Prod.mk.injEq] at he
  exact ⟨l, hl, he.1.symm, he.2.symm⟩

theorem owns_of_owns (h : f.SameShape f') {p c : Handle} (ho : f'.owns p c) : f.owns p c := by
  obtain ⟨n, hn⟩ := owns_iff.mp ho
  obtain ⟨⟨m, o⟩, hl, -, rfl⟩ := h.live? hn
  exact owns_of_live? hl

theorem owns_iff (h : f.SameShape f') {p c : Handle} : f'.owns p c ↔ f.owns p c :=
  ⟨h.owns_of_owns, h.symm.owns_of_owns⟩

theorem under_iff (h : f.SameShape f') {k a : Handle} : f'.Under k a ↔ f.Under k a := by
  have : f'.OwnedBy = f.OwnedBy := by funext c p; exact propext h.owns_iff
  unfold Under; rw [this]

theorem ownership {loose : List Handle} (h : f.SameShape f') (hf : f.Ownership loose) :
    f'.Ownership loose := by
  constructor
  case child =>
    intro p l' c hp hc
    obtain ⟨l, hl, he, -⟩ := h.live? hp
    rw [Node.children, he] at hc
    exact (hf.child hl hc).imp_left h.owns_iff.mpr
  case nodup =>
    intro p l' hp
    obtain ⟨l, hl, he, -⟩ := h.live? hp
    rw [Node.children, he]; exact hf.nodup hl
  case owner =>
    intro p c ho hc
    obtain ⟨l, hl, hm⟩ := hf.owner (h.owns_of_owns ho) hc
    obtain ⟨l', hl', he, -⟩ := h.symm.live? hl
    exact ⟨l', hl', by rw [Node.children, ← he]; exact hm⟩
  case grounded => exact Subrelation.wf h.owns_of_owns hf.grounded
  case category =>
    intro p l' field c m' hp hc hm
    obtain ⟨l, hl, he, -⟩ := h.live? hp
    obtain ⟨m, hm, hk, -⟩ := h.live? hm
    rw [Node.kind, hk]
    exact hf.category hl (he ▸ hc) hm
  case occupied =>
    intro p l' field hp hs
    obtain ⟨l, hl, he, -⟩ := h.live? hp
    rw [he] at hs ⊢
    exact hf.occupied hl hs

end SameShape

/-! ### Look -/

/-- Two forests look alike: each handle names the same node, with the same owner, in both. -/
def Alike (f f' : Forest) : Prop := ∀ k, f'.live? k = f.live? k

namespace Alike

theorem refl (f : Forest) : f.Alike f := fun _ => rfl

theorem sameShape (h : f.Alike f') : f.SameShape f' := fun k => by rw [h k]

theorem contains_eq (h : f.Alike f') (k : Handle) : f'.contains k = f.contains k := by
  unfold contains; rw [h k]

end Alike

/-! ### Lists of handles -/

/-- The handles of the nodes with a property, in the order of their entries. -/
def handlesWhere (f : Forest) (q : LiveNode → Bool) : List Handle :=
  f.entries.toList.zipIdx.filterMap fun (e, index) =>
    (e.live?.filter q).map fun _ => ⟨index, e.generation⟩

theorem mem_handlesWhere {q : LiveNode → Bool} {h : Handle} :
    h ∈ f.handlesWhere q ↔ ∃ l, f.live? h = some l ∧ q l := by
  simp only [handlesWhere, List.mem_filterMap, Prod.exists, List.mem_zipIdx_iff_getElem?,
    Option.map_eq_some_iff, Option.filter_eq_some_iff, live?_eq_some, Array.getElem?_toList]
  constructor
  · rintro ⟨e, i, he, l, ⟨hl, hq⟩, rfl⟩
    exact ⟨l, ⟨e, he, rfl, hl⟩, hq⟩
  · rintro ⟨l, ⟨e, he, hg, hl⟩, hq⟩
    exact ⟨e, h.index, he, l, ⟨hl, hq⟩, by rw [hg]⟩

theorem pairwise_zipIdx {α : Type} : ∀ (l : List α) (k : Nat),
    (l.zipIdx k).Pairwise fun a b => a.2 < b.2
  | [], _ => List.Pairwise.nil
  | x :: l, k => by
    rw [List.zipIdx_cons]
    refine List.pairwise_cons.mpr ⟨fun b hb => ?_, pairwise_zipIdx l (k + 1)⟩
    exact (List.mem_zipIdx hb).1

theorem pairwise_handlesWhere (f : Forest) (q : LiveNode → Bool) :
    (f.handlesWhere q).Pairwise fun a b => a.index < b.index := by
  refine (pairwise_zipIdx f.entries.toList 0).filterMap _ fun a b hab h hh k hk => ?_
  simp only [Option.map_eq_some_iff] at hh hk
  obtain ⟨_, _, rfl⟩ := hh
  obtain ⟨_, _, rfl⟩ := hk
  exact hab

theorem nodup_handlesWhere (f : Forest) (q : LiveNode → Bool) : (f.handlesWhere q).Nodup :=
  (f.pairwise_handlesWhere q).imp fun hlt he => by rw [he] at hlt; exact absurd hlt (Nat.lt_irrefl _)

theorem Alike.handlesWhere_eq (h : f.Alike f') (q : LiveNode → Bool) :
    f'.handlesWhere q = f.handlesWhere q := by
  have hperm : (f'.handlesWhere q).Perm (f.handlesWhere q) :=
    (List.perm_ext_iff_of_nodup (f'.nodup_handlesWhere q) (f.nodup_handlesWhere q)).mpr
      fun k => by rw [mem_handlesWhere, mem_handlesWhere, h k]
  refine hperm.eq_of_pairwise (fun a b _ _ hab hba => ?_) (f'.pairwise_handlesWhere q)
    (f.pairwise_handlesWhere q)
  exact absurd (Nat.lt_trans hab hba) (Nat.lt_irrefl _)

theorem roots_eq_handlesWhere (f : Forest) :
    f.roots = f.handlesWhere fun l => l.owner?.isNone := by
  unfold roots handlesWhere
  refine List.filterMap_congr fun ⟨⟨_, live?⟩, _⟩ _ => ?_
  rcases live? with _ | ⟨_, _ | _⟩ <;> rfl

theorem mem_roots {h : Handle} : h ∈ f.roots ↔ ∃ n, f.live? h = some ⟨n, none⟩ := by
  rw [roots_eq_handlesWhere, mem_handlesWhere]
  constructor
  · rintro ⟨⟨n, o⟩, hl, hn⟩
    obtain rfl : o = none := by simpa using hn
    exact ⟨n, hl⟩
  · rintro ⟨n, hn⟩; exact ⟨_, hn, rfl⟩

theorem countP_zipIdx {α : Type} (p : α → Bool) (l : List α) :
    (l.zipIdx.countP fun a => p a.1) = l.countP p := by
  have hfst : l.zipIdx.map Prod.fst = l := List.zipIdx_map_fst 0 l
  conv_rhs => rw [← hfst, List.countP_map]
  rfl

theorem length_handlesWhere (f : Forest) (q : LiveNode → Bool) :
    (f.handlesWhere q).length = f.entries.toList.countP fun e => (e.live?.filter q).isSome := by
  rw [handlesWhere, List.length_filterMap_eq_countP]
  simp only [Option.isSome_map]
  exact countP_zipIdx (fun e => (e.live?.filter q).isSome) f.entries.toList

theorem Bookkept.size_eq (hf : f.Bookkept) : f.size = (f.handlesWhere fun _ => true).length := by
  rw [size, hf.count, length_handlesWhere]
  simp

theorem mem_handlesWhere_true {k : Handle} : k ∈ (f.handlesWhere fun _ => true) ↔ f.contains k := by
  rw [mem_handlesWhere, contains_iff]
  simp

/-- **A list of all live handles**, each named once, is as long as there are nodes. -/
theorem Bookkept.length_eq_size (hb : f.Bookkept) {xs : List Handle} (hnd : xs.Nodup)
    (hmem : ∀ k, k ∈ xs ↔ f.contains k) : xs.length = f.size := by
  have hperm : xs.Perm (f.handlesWhere fun _ => true) := by
    refine (List.perm_ext_iff_of_nodup hnd (f.nodup_handlesWhere _)).mpr fun k => ?_
    rw [hmem, mem_handlesWhere_true]
  rw [hb.size_eq, hperm.length_eq]

theorem Alike.roots_eq (h : f.Alike f') : f'.roots = f.roots := by
  rw [roots_eq_handlesWhere, roots_eq_handlesWhere, h.handlesWhere_eq]

theorem Alike.size_eq (h : f.Alike f') (hf : f.Bookkept) (hf' : f'.Bookkept) : f'.size = f.size := by
  rw [hf.size_eq, hf'.size_eq, h.handlesWhere_eq]

end SyntaxForest.Forest
