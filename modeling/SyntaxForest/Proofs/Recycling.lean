import SyntaxForest.Proofs.FreeingCalls

/-! # Recycling

The free list is a stack of indices. Freeing puts the index of each node on top when its turn comes
(`Releases.free_eq`), and storing takes the index on top (`Fills.take_eq`). So the nodes that are
stored next, whatever else is changed in between, live in the entries that were freed last, from the
last to the first and before all older ones; each of these entries was emptied once more, and so it is
in its next generation (`Trees.recycles`). -/

namespace SyntaxForest

/-- The handle of the same entry in its next generation. -/
def Handle.next (h : Handle) : Handle := { h with generation := h.generation + 1 }

namespace Forest

variable {f f' g : Forest} {h k : Handle} {gone hs nodes walk : List Handle}

/-! ### The handles of the free list -/

/-- The handle for an entry in the generation that it is in. -/
def handleAt (f : Forest) (i : Nat) : Handle := ⟨i, UInt32.ofNat (f.timesEmptied i)⟩

theorem handleAt_index (hh : f.contains h) : f.handleAt h.index = h := by
  obtain ⟨l, hl⟩ := contains_iff.mp hh
  obtain ⟨e, he, hgen, -⟩ := live?_eq_some.mp hl
  have hemptied : f.timesEmptied h.index = e.emptied := by rw [timesEmptied, he]; rfl
  rw [handleAt, hemptied, show UInt32.ofNat e.emptied = h.generation from hgen]

theorem nextHandle_of_free {i : Nat} {free : List Nat} (hfree : f.free = i :: free) :
    f.nextHandle = f.handleAt i := by
  simp only [nextHandle, hfree, handleAt, timesEmptied]
  cases f.entries[i]? <;> rfl

theorem SameArena.handleAt_eq (hs : f.SameArena f') : f'.handleAt = f.handleAt := by
  funext i
  rw [handleAt, handleAt, hs.timesEmptied_eq]

theorem handleAt_store (f : Forest) (node : Node) : (f.store node).handleAt = f.handleAt := by
  funext i
  rw [handleAt, handleAt, timesEmptied_store]

theorem free_store (f : Forest) (node : Node) : (f.store node).free = f.free.tail := by
  refine (sameArena_foldl_setOwner _ node.children _).free.trans ?_
  unfold place
  cases f.free <;> rfl

/-- **Nodes stored one after another**, with the handles that they get. Nodes may be changed in
between, but nothing is freed. -/
inductive Fills : Forest → List Handle → Forest → Prop
  | nil (f : Forest) : Fills f [] f
  | update {f g : Forest} {hs : List Handle} (h : Handle) (change : LiveNode → LiveNode)
      (hrest : Fills (f.update h change) hs g) : Fills f hs g
  | store {f g : Forest} {hs : List Handle} (node : Node) (hrest : Fills (f.store node) hs g) :
      Fills f (f.nextHandle :: hs) g

namespace Fills

/-- **The nodes stored next live in the entries of the free list**, from the top of it on. -/
theorem take_eq (hf : f.Fills hs g) :
    hs.take f.free.length = (f.free.map f.handleAt).take hs.length := by
  induction hf with
  | nil => rw [List.take_nil, List.length_nil, List.take_zero]
  | @update f _ _ h change _ ih =>
    have hsame := f.sameArena_update h change
    rwa [hsame.free, hsame.handleAt_eq] at ih
  | @store f _ hs node _ ih =>
    rw [free_store, handleAt_store] at ih
    cases hfree : f.free with
    | nil => rfl
    | cons i free =>
      rw [hfree, List.tail_cons] at ih
      rw [List.map_cons, List.length_cons, List.length_cons, List.take_succ_cons,
        List.take_succ_cons, ih, nextHandle_of_free hfree]

theorem free_eq (hf : f.Fills hs g) : g.free = f.free.drop hs.length := by
  induction hf with
  | nil => rfl
  | @update f _ _ h change _ ih => rwa [(f.sameArena_update h change).free] at ih
  | store node _ ih => rw [ih, free_store, List.drop_tail, List.length_cons]

end Fills

/-! ### What was released -/

namespace Releases

theorem free_eq (hr : f.Releases gone f') :
    f'.free = (gone.map Handle.index).reverse ++ f.free := by
  induction hr with
  | nil => rfl
  | @cons f f' h gone _ _ ih =>
    rw [ih, List.map_cons, List.reverse_cons, List.append_assoc]
    rfl

theorem entries_eq (hr : f.Releases gone f') (i : Nat) : f'.entries[i]? =
    if i ∈ gone.map Handle.index then f.entries[i]?.map Entry.vacate else f.entries[i]? := by
  have hnd := nodup_map_index hr.nodup hr.contains
  induction hr with
  | nil => rfl
  | @cons f f' h gone _ _ ih =>
    obtain ⟨hnot, hnd⟩ := List.nodup_cons.mp hnd
    have hrelease : (f.release h).entries[i]? =
        if h.index = i then f.entries[i]?.map Entry.vacate else f.entries[i]? :=
      Array.getElem?_modify
    rw [ih hnd, hrelease]
    by_cases hi : h.index = i
    · subst hi
      rw [if_neg hnot, if_pos rfl, List.map_cons, if_pos List.mem_cons_self]
    · simp only [List.map_cons, List.mem_cons, Ne.symm hi, hi, if_false, false_or]

theorem handleAt_eq (hr : f.Releases gone f') (hk : k ∈ gone) : f'.handleAt k.index = k.next := by
  have hlive := hr.contains
  have honce : (gone.map Handle.index).count k.index = 1 :=
    List.count_eq_one_of_mem (nodup_map_index hr.nodup hlive) (List.mem_map_of_mem hk)
  have hbefore : UInt32.ofNat (f.timesEmptied k.index) = k.generation :=
    congrArg Handle.generation (handleAt_index (hlive k hk))
  rw [handleAt, hr.timesEmptied_eq, honce, UInt32.ofNat_add, hbefore]
  rfl

/-- **The nodes stored next live where nodes were released**, from the last to the first. -/
theorem reused (hr : f.Releases gone f') (hf : f'.Fills hs g) :
    hs.take gone.length = (gone.reverse.map Handle.next).take hs.length := by
  have hhandles : (gone.map Handle.index).reverse.map f'.handleAt = gone.reverse.map Handle.next := by
    rw [← List.map_reverse, List.map_map]
    exact List.map_congr_left fun k hk => hr.handleAt_eq (List.mem_reverse.mp hk)
  have hle : gone.length ≤ f'.free.length := by
    rw [hr.free_eq, List.length_append, List.length_reverse, List.length_map]
    exact Nat.le_add_right _ _
  calc hs.take gone.length
      = (hs.take f'.free.length).take gone.length := by rw [List.take_take, min_eq_left hle]
    _ = ((f'.free.map f'.handleAt).take hs.length).take gone.length := by rw [hf.take_eq]
    _ = ((f'.free.map f'.handleAt).take gone.length).take hs.length := by
      rw [List.take_take, List.take_take, min_comm]
    _ = (gone.reverse.map Handle.next).take hs.length := by
      rw [hr.free_eq, List.map_append, hhandles, List.take_left' (by simp)]

end Releases

/-! ### Freeing a tree -/

/-- **What is recycled** from `f` to `f'`, when the nodes are freed in the order of the walk: each is
live at its turn and gone afterwards, and all others stay. The entries of the nodes are emptied, each
once, and no others. The indices are on the free list in the order of the walk, with the last one on
top. So the handles that are given out next, up to the length of the walk, are those of the walk read
backwards, each in its next generation; and only then those from further down the free list. -/
structure Recycles (f f' : Forest) (nodes walk : List Handle) : Prop where
  releases : f.Releases walk f'
  nodup : nodes.Nodup
  perm : walk.Perm nodes
  live : ∀ k, f'.live? k = if k ∈ nodes then none else f.live? k
  entries : ∀ i, f'.entries[i]? =
    if i ∈ nodes.map Handle.index then f.entries[i]?.map Entry.vacate else f.entries[i]?
  free : f'.free = (walk.map Handle.index).reverse ++ f.free
  reused : ∀ {hs g}, f'.Fills hs g →
    hs.take walk.length = (walk.reverse.map Handle.next).take hs.length
  older : ∀ {hs g}, f'.Fills hs g →
    g.free = ((walk.map Handle.index).reverse ++ f.free).drop hs.length

/-- **Freeing a tree recycles its nodes**, in the order of the backward walk. -/
theorem Trees.recycles (ht : f.Trees [h]) : ∃ nodes walk, f.preorder h = .ok nodes ∧
    f.BackwardWalk [h] walk ∧ f.Recycles (f.freeSubtree h) nodes walk := by
  obtain ⟨nodes, walk, hnodes, hwalk, hperm, hr⟩ := ht.exists_order
  refine ⟨nodes, walk, hnodes, hwalk, ?_⟩
  exact
    { releases := hr
      nodup := hperm.nodup_iff.mp hr.nodup
      perm := hperm
      live := fun k => by simp only [hr.live?_eq, hperm.mem_iff]
      entries := fun i => by simp only [hr.entries_eq, (hperm.map Handle.index).mem_iff]
      free := hr.free_eq
      reused := hr.reused
      older := fun hf => by rw [hf.free_eq, hr.free_eq] }

/-- **Freeing ends on every forest, and recycles trees in a fixed order.** Whatever the links are, the
stack is empty after as many turns as the forest weighs, and one more. If what is reached from the
handle is live and forms a tree, the nodes of its preorder are recycled in the order of the backward
walk. In every forest that a run reaches, operations and conversions free such trees only: they do
the same with every procedure that does the same on these.

`runBy` and `convertBy` take the procedure that is called wherever nodes are freed. With `freeSubtree`
they are the operations and conversions as they are, on every forest (`Operation.runBy_freeSubtree`,
`SourceTree.convertBy_freeSubtree`). -/
theorem freeing_ends_and_recycles :
    (∀ (f : Forest) (h : Handle),
      freeingTurn^[f.weight + 1] (f, [h]) = (f.freeSubtree h, [])) ∧
    (∀ (f : Forest) (h : Handle), f.Trees [h] → ∃ nodes walk, f.preorder h = .ok nodes ∧
      f.BackwardWalk [h] walk ∧ f.Recycles (f.freeSubtree h) nodes walk) ∧
    ∀ (free : Forest → Handle → Forest), FreesTrees free → ∀ steps : List Step,
      (∀ op : Operation, op.runBy free (empty.run steps) = op.run (empty.run steps)) ∧
      ∀ (source : SourceTree) (options : ConversionOptions) (types : TypeTable),
        source.convertBy free options ⟨empty.run steps, types⟩ =
          source.convert options ⟨empty.run steps, types⟩ := by
  refine ⟨fun f h => iterate_freeingTurn f [h] le_rfl, fun f h => Trees.recycles,
    fun free hfree steps => ?_⟩
  have hf : (empty.run steps).WellFormed := wellFormed_run steps wellFormed_empty
  exact ⟨Operation.runBy_eq hfree hf,
    fun source options types => source.convertBy_eq hfree hf options⟩

/-- The sum `a * b + c`, where `c` was made first: what is stored next gets the entries of `a`, `b`,
the product, `c` and the sum, in this order. -/
theorem freeing_ends_and_recycles_sum : ∃ f : Forest, f = empty.run [.operate (.name "c"),
      .operate (.name "a"), .operate (.name "b"), .operate (.chain none .times ⟨1, 0⟩ ⟨2, 0⟩),
      .operate (.chain none .plus ⟨3, 0⟩ ⟨0, 0⟩)] ∧
    freeingTurn^[f.weight + 1] (f, [⟨4, 0⟩]) = (f.freeSubtree ⟨4, 0⟩, []) ∧
    f.preorder ⟨4, 0⟩ = .ok [⟨4, 0⟩, ⟨3, 0⟩, ⟨1, 0⟩, ⟨2, 0⟩, ⟨0, 0⟩] ∧
    f.Recycles (f.freeSubtree ⟨4, 0⟩) [⟨4, 0⟩, ⟨3, 0⟩, ⟨1, 0⟩, ⟨2, 0⟩, ⟨0, 0⟩]
      [⟨4, 0⟩, ⟨0, 0⟩, ⟨3, 0⟩, ⟨2, 0⟩, ⟨1, 0⟩] ∧
    (∀ {hs g}, (f.freeSubtree ⟨4, 0⟩).Fills hs g →
      hs.take 5 = [⟨1, 1⟩, ⟨2, 1⟩, ⟨3, 1⟩, ⟨0, 1⟩, ⟨4, 1⟩].take hs.length) ∧
    (Operation.discard ⟨4, 0⟩).runBy (fun f h => if f.contains h then f.freeSubtree h else empty) f =
      (Operation.discard ⟨4, 0⟩).run f := by
  obtain ⟨hends, hrecycles, hcalls⟩ := freeing_ends_and_recycles
  have hfree : FreesTrees fun f h => if f.contains h then f.freeSubtree h else empty :=
    fun ht => if_pos (ht.live (reached_root List.mem_cons_self))
  obtain ⟨steps, hsteps⟩ : ∃ steps : List Step, steps = [.operate (.name "c"),
      .operate (.name "a"), .operate (.name "b"), .operate (.chain none .times ⟨1, 0⟩ ⟨2, 0⟩),
      .operate (.chain none .plus ⟨3, 0⟩ ⟨0, 0⟩)] := ⟨_, rfl⟩
  have hc : (empty.run steps).live? ⟨0, 0⟩ = some ⟨⟨.name "c", none, none⟩, some ⟨4, 0⟩⟩ := by
    subst hsteps; rfl
  have ha : (empty.run steps).live? ⟨1, 0⟩ = some ⟨⟨.name "a", none, none⟩, some ⟨3, 0⟩⟩ := by
    subst hsteps; rfl
  have hb : (empty.run steps).live? ⟨2, 0⟩ = some ⟨⟨.name "b", none, none⟩, some ⟨3, 0⟩⟩ := by
    subst hsteps; rfl
  have hproduct : (empty.run steps).live? ⟨3, 0⟩ =
      some ⟨⟨.chain .times (some ⟨1, 0⟩) (some ⟨2, 0⟩) [], none, none⟩, some ⟨4, 0⟩⟩ := by
    subst hsteps; rfl
  have hsum : (empty.run steps).live? ⟨4, 0⟩ =
      some ⟨⟨.chain .plus (some ⟨3, 0⟩) (some ⟨0, 0⟩) [], none, none⟩, none⟩ := by
    subst hsteps; rfl
  have htree := (wellFormed_run steps wellFormed_empty).tree_of_root hsum
  obtain ⟨nodes, walk, hnodes, hwalk, hrec⟩ := hrecycles _ _ htree
  obtain rfl : [⟨4, 0⟩, ⟨3, 0⟩, ⟨1, 0⟩, ⟨2, 0⟩, ⟨0, 0⟩] = nodes := by
    subst hsteps
    exact Except.ok.inj hnodes
  obtain rfl := hwalk.unique
    (.cons hsum (.cons hc .nil (.cons hproduct (.cons hb .nil (.cons ha .nil .nil)) .nil)) .nil)
  exact ⟨_, congrArg _ hsteps, hends _ _, hnodes, hrec, hrec.reused, (hcalls _ hfree steps).1 _⟩

end Forest

end SyntaxForest
