import SyntaxForest.Proofs.Freeing

/-! # What freeing releases

Freeing empties the entries of some live nodes, one after another and none twice
(`exists_releases`). So it takes these nodes away and leaves the others as they were, and it adds one
to the count of each of their entries: `Releases.live?_eq`, `Releases.timesEmptied_eq`. No other
change of a forest counts; changes of nodes leave all entries as they are (`SameArena`).

With the owners and children of the nodes in order, the nodes that go are those under the handles on
the stack: `contains_freeSubtrees_iff`. -/

namespace SyntaxForest.Forest

variable {f f' f'' : Forest} {h k : Handle} {gone stack : List Handle}

/-! ### How often an entry was emptied -/

/-- How often the entry with an index was emptied. -/
def timesEmptied (f : Forest) (i : Nat) : Nat := (f.entries[i]?.map Entry.emptied).getD 0

/-- Two forests with the same entries, apart from the nodes in them: each entry was emptied equally
often, and the free lists and the numbers of nodes are the same. -/
structure SameArena (f f' : Forest) : Prop where
  emptied : f'.entries.map Entry.emptied = f.entries.map Entry.emptied
  free : f'.free = f.free
  size : f'.size = f.size

namespace SameArena

theorem refl (f : Forest) : f.SameArena f := ⟨rfl, rfl, rfl⟩

theorem trans (h : f.SameArena f') (h' : f'.SameArena f'') : f.SameArena f'' :=
  ⟨h'.emptied.trans h.emptied, h'.free.trans h.free, h'.size.trans h.size⟩

theorem timesEmptied_eq (h : f.SameArena f') (i : Nat) : f'.timesEmptied i = f.timesEmptied i := by
  simp only [timesEmptied, ← Array.getElem?_map, h.emptied]

theorem generations (h : f.SameArena f') :
    f'.entries.map Entry.generation = f.entries.map Entry.generation := by
  have hmap : Entry.generation = UInt32.ofNat ∘ Entry.emptied := rfl
  rw [hmap, ← Array.map_map, h.emptied, Array.map_map]

end SameArena

theorem sameArena_update (f : Forest) (h : Handle) (change : LiveNode → LiveNode) :
    f.SameArena (f.update h change) := by
  refine ⟨?_, rfl, rfl⟩
  have hsame : ∀ e : Entry, (e.update h.generation change).emptied = e.emptied := fun e => by
    unfold Entry.update
    split <;> rfl
  refine Array.ext_getElem? fun i => ?_
  simp only [update, Array.getElem?_map, Array.getElem?_modify]
  split_ifs
  · cases f.entries[i]? with
    | none => rfl
    | some e => simp [hsame]
  · rfl

theorem sameArena_foldl_setOwner (owner : Option Handle) : ∀ (hs : List Handle) (f : Forest),
    f.SameArena (hs.foldl (fun f h => f.setOwner h owner) f)
  | [], f => .refl f
  | h :: hs, f => (f.sameArena_update h _).trans (sameArena_foldl_setOwner owner hs _)

theorem timesEmptied_place (f : Forest) (l : LiveNode) (i : Nat) :
    (f.place l).timesEmptied i = f.timesEmptied i := by
  unfold timesEmptied place
  split
  · show ((f.entries.modify _ _)[i]?.map Entry.emptied).getD 0 = _
    rw [Array.getElem?_modify]
    split_ifs
    · cases f.entries[i]? <;> rfl
    · rfl
  · show ((f.entries.push _)[i]?.map Entry.emptied).getD 0 = _
    rw [Array.getElem?_push]
    split_ifs with hi
    · rw [hi, Array.getElem?_size]; rfl
    · rfl

theorem timesEmptied_store (f : Forest) (node : Node) (i : Nat) :
    (f.store node).timesEmptied i = f.timesEmptied i :=
  ((sameArena_foldl_setOwner _ node.children _).timesEmptied_eq i).trans (f.timesEmptied_place _ i)

/-- **Emptying the entry of a node** counts once. -/
theorem timesEmptied_release (hh : f.contains h) (i : Nat) :
    (f.release h).timesEmptied i = f.timesEmptied i + [h.index].count i := by
  obtain ⟨l, hl⟩ := contains_iff.mp hh
  obtain ⟨e, he, -, -⟩ := live?_eq_some.mp hl
  unfold timesEmptied release
  show ((f.entries.modify _ _)[i]?.map Entry.emptied).getD 0 = _
  rw [Array.getElem?_modify]
  by_cases hi : h.index = i
  · subst hi
    rw [if_pos rfl, he, List.count_singleton_self]
    rfl
  · rw [if_neg hi, List.count_singleton, if_neg (by simpa using hi), Nat.add_zero]

/-! ### Several entries -/

/-- **Live nodes released one after another**: each is live when its turn comes. -/
inductive Releases : Forest → List Handle → Forest → Prop
  | nil (f : Forest) : Releases f [] f
  | cons {f f' : Forest} {h : Handle} {gone : List Handle} (hh : f.contains h)
      (hrest : Releases (f.release h) gone f') : Releases f (h :: gone) f'

/-- **Freeing empties the entries of live nodes**, one after another. -/
theorem exists_releases (f : Forest) (stack : List Handle) :
    ∃ gone, f.Releases gone (f.freeAll stack) := by
  fun_induction freeAll f stack with
  | case1 f => exact ⟨[], .nil f⟩
  | case2 f h stack _ ih => exact ih
  | case3 f h stack l hl ih =>
    obtain ⟨gone, hgone⟩ := ih
    exact ⟨h :: gone, .cons (contains_iff.mpr ⟨l, hl⟩) hgone⟩

namespace Releases

theorem live?_eq (hr : f.Releases gone f') (k : Handle) :
    f'.live? k = if k ∈ gone then none else f.live? k := by
  induction hr with
  | nil => simp
  | @cons f f' h gone hh _ ih =>
    rw [ih, live?_release_of_live hh]
    by_cases hk : k ∈ gone <;> simp [hk]

theorem contains (hr : f.Releases gone f') : ∀ k ∈ gone, f.contains k := by
  induction hr with
  | nil => simp
  | @cons f f' h gone hh _ ih =>
    refine List.forall_mem_cons.mpr ⟨hh, fun k hk => ?_⟩
    have hk' := ih k hk
    rw [Forest.contains, live?_release_of_live hh] at hk'
    split_ifs at hk' with hkh
    · cases hk'
    · exact hk'

theorem nodup (hr : f.Releases gone f') : gone.Nodup := by
  induction hr with
  | nil => exact List.nodup_nil
  | @cons f f' h gone hh hrest ih =>
    refine List.nodup_cons.mpr ⟨fun hm => ?_, ih⟩
    -- the node is not live when the rest is released
    have hh' := hrest.contains h hm
    rw [Forest.contains, live?_release_of_live hh, if_pos rfl] at hh'
    cases hh'

theorem mem_iff (hr : f.Releases gone f') : k ∈ gone ↔ f.contains k ∧ ¬ f'.contains k := by
  refine ⟨fun hk => ⟨hr.contains k hk, ?_⟩, fun ⟨hk, hgone⟩ => ?_⟩
  · rw [not_contains_iff, hr.live?_eq, if_pos hk]
  · by_contra hnot
    rw [Forest.contains, hr.live?_eq, if_neg hnot] at hgone
    exact hgone hk

/-- **The entry of each node is emptied once**, and no other entry. -/
theorem timesEmptied_eq (hr : f.Releases gone f') (i : Nat) :
    f'.timesEmptied i = f.timesEmptied i + (gone.map Handle.index).count i := by
  induction hr with
  | nil => rfl
  | @cons f f' h gone hh _ ih =>
    rw [ih, timesEmptied_release hh, Nat.add_assoc, ← List.count_append]
    rfl

end Releases

/-! ### The nodes under the stack -/

theorem live?_freeSubtrees_of_not_under (hf : f.Ownership stack)
    (hk : ∀ s ∈ stack, ¬ f.Under k s) : (f.freeSubtrees stack).live? k = f.live? k := by
  rw [freeSubtrees_eq]
  refine live?_freeAll_of_closed (P := fun k => ∃ s ∈ stack, f.Under k s)
    (fun s hs => ⟨s, hs, .refl⟩) ?_ (by simpa using hk)
  rintro p l c hp ⟨s, hs, hu⟩ hc
  exact ⟨s, hs, hu.head (hf.child hp hc).1⟩

/-- **The nodes that go are those under the handles on the stack.** -/
theorem contains_freeSubtrees_iff (hb : f.Bookkept) (hf : f.Ownership stack) :
    (f.freeSubtrees stack).contains k ↔ f.contains k ∧ ∀ s ∈ stack, ¬ f.Under k s := by
  constructor
  · intro hk
    rw [freeSubtrees_eq] at hk
    obtain ⟨l, hl⟩ := contains_iff.mp hk
    refine ⟨contains_iff.mpr ⟨l, live?_of_freeAll hl⟩, fun s hs hu => ?_⟩
    exact not_contains_freeAll hb hf hs hu hk
  · rintro ⟨hk, hnot⟩
    rw [contains, live?_freeSubtrees_of_not_under hf hnot]
    exact hk

end SyntaxForest.Forest
