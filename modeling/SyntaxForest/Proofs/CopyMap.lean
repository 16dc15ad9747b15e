import SyntaxForest.Proofs.Run

/-! # Copying with a map

A copy can be made with a map from originals to their copies, in which each child is looked up, and in
the end the node itself (`copyByMap`); if it is refused, the copies without an owner are freed. `copy`
has no map: it takes the copies of the children off a stack.

What comes off the stack is what the map holds (`copyNodesByMap_listing`). So the two are the same on
every well-formed forest (`copyByMap_eq`), and on every forest of a run (`copyByMap_run`). -/

namespace SyntaxForest

open Forest

/-- The copies of nodes, the last one made in front. -/
abbrev CopyMap := List (Handle × Handle)

namespace CopyMap

/-- The copy of a node. -/
def find (copies : CopyMap) (original : Handle) : Except TreeError Handle :=
  match copies.lookup original with
  | some copy => .ok copy
  | none => .error (.staleNode original)

/-- The copy of a node over the copies of its children. -/
def copyNode (f : Forest) (h : Handle) (copies : CopyMap) : Except TreeError Node := do
  let node ← f.node h
  let payload ← node.payload.traverseChildren copies.find
  return { node with payload }

/-- The forest without the copies that have no owner, and without what is below them. -/
def freeUnowned (copies : CopyMap) (f : Forest) : Forest :=
  copies.foldl (fun f (_, copy) => if f.owner? copy = .ok none then f.freeSubtree copy else f) f

end CopyMap

namespace Edit

/-- `copyNodes` with a map. -/
def copyNodesByMap (copies : CopyMap) : List Handle → Edit CopyMap
  | [] => pure copies
  | h :: rest => do
    let node ← onRefusal (ask fun f => copies.copyNode f h) copies.freeUnowned
    let copy ← store node
    copyNodesByMap ((h, copy) :: copies) rest

/-- `copy` with a map. -/
def copyByMap (h : Handle) : Edit Handle := do
  let order ← ask fun f => f.preorder h
  let copies ← copyNodesByMap [] order.reverse
  onRefusal (ask fun _ => copies.find h) copies.freeUnowned

end Edit

/-! ### The map and the stack -/

namespace CopyMap

/-- The map holds the copies of several nodes. -/
def Holds (copies : CopyMap) (originals cs : List Handle) : Prop :=
  originals.map (fun h => copies.lookup h) = cs.map some

variable {copies : CopyMap} {hs cs stack : List Handle} {f : Forest} {h k : Handle} {l : LiveNode}

theorem Holds.length_eq (hc : copies.Holds hs cs) : cs.length = hs.length := by
  simpa using (congrArg List.length hc).symm

theorem Holds.split {ks : List Handle} (hc : copies.Holds (hs ++ ks) stack) :
    ∃ cs ds, stack = cs ++ ds ∧ copies.Holds hs cs ∧ copies.Holds ks ds := by
  rw [Holds, List.map_append, eq_comm, List.map_eq_append_iff] at hc
  obtain ⟨cs, ds, rfl, hcs, hds⟩ := hc
  exact ⟨cs, ds, rfl, hcs.symm, hds.symm⟩

theorem Holds.append {ks ds : List Handle} (hc : copies.Holds hs cs) (kc : copies.Holds ks ds) :
    copies.Holds (hs ++ ks) (cs ++ ds) := by
  rw [Holds, List.map_append, List.map_append, hc, kc]

theorem lookup_cons_of_ne (hk : k ≠ h) (c : Handle) (copies : CopyMap) :
    List.lookup k ((h, c) :: copies) = copies.lookup k := by
  rw [List.lookup_cons, beq_false_of_ne hk]

theorem Holds.congr {copies' : CopyMap} (hc : copies.Holds hs cs)
    (hsame : ∀ k ∈ hs, copies'.lookup k = copies.lookup k) : copies'.Holds hs cs :=
  (List.map_congr_left hsame).trans hc

theorem mapM_find : ∀ {hs cs : List Handle}, copies.Holds hs cs → hs.mapM copies.find = .ok cs
  | [], [], _ => rfl
  | h :: hs, c :: cs, hc => by
    obtain ⟨hh, hrest⟩ := List.cons.inj hc
    have hfind : copies.find h = .ok c := by simp only [find, hh]
    simp only [List.mapM_cons, hfind, mapM_find hrest, bind, Except.bind]
    rfl

theorem copyNode_eq_ok (hl : f.live? h = some l) (hc : copies.Holds l.node.children cs) :
    copies.copyNode f h = .ok (l.node.withChildren cs) := by
  have hrun : l.node.payload.traverseChildren copies.find =
      .ok (l.node.payload.withChildren cs) := by
    have hfind : l.node.payload.children.mapM copies.find = .ok cs := mapM_find hc
    rw [Payload.traverseChildren_eq, hfind]
    rfl
  simp only [copyNode, Forest.node, Forest.live, hl, hrun, bind, Except.bind, pure, Except.pure]
  rfl

end CopyMap

namespace Forest

variable {f g : Forest} {h : Handle} {l : LiveNode} {hs xs cs stack pending : List Handle}
  {copies : CopyMap}

theorem copyNodesByMap_cons (hl : g.live? h = some l) (hc : copies.Holds l.node.children cs)
    (more : List Handle) : Edit.copyNodesByMap copies (h :: more) g =
      Edit.copyNodesByMap ((h, g.nextHandle) :: copies) more (g.store (l.node.withChildren cs)) := by
  have hcopy := CopyMap.copyNode_eq_ok hl hc
  simp only [Edit.copyNodesByMap, bind, EStateM.bind, Edit.onRefusal, Edit.ask, hcopy, Edit.store]

theorem Listing.subset {hs xs : List Handle} (hl : f.Listing hs xs) : hs ⊆ xs := by
  induction hl with
  | nil => exact List.Subset.refl _
  | cons _ _ _ _ ih =>
    exact List.cons_subset_cons _ (List.Subset.trans ih (List.subset_append_right _ _))

/-- **The stack is what the map holds.** The stack machine and the map copy a listing in step: the
copies of the first handles are on the stack, over those of the nodes that are still waiting for
their parent, and are what the map holds for them. -/
theorem copyNodesByMap_listing (hl : f.Listing hs xs) : ∀ {g : Forest} {copies : CopyMap}
    {pending stack : List Handle} (more : List Handle), xs.Nodup → (∀ k ∈ pending, k ∉ xs) →
    g.Bookkept → f.KeepsNodes g → copies.Holds pending stack →
      ∃ g' stack', ∃ copies' : CopyMap,
        Edit.copyNodes stack (xs.reverse ++ more) g = Edit.copyNodes stack' more g' ∧
        Edit.copyNodesByMap copies (xs.reverse ++ more) g = Edit.copyNodesByMap copies' more g' ∧
        g'.Bookkept ∧ f.KeepsNodes g' ∧ copies'.Holds (hs ++ pending) stack' ∧
        ∀ k ∉ xs, copies'.lookup k = copies.lookup k := by
  induction hl with
  | nil =>
    intro g copies pending stack more _ _ hg hkeep hholds
    exact ⟨g, stack, copies, rfl, rfl, hg, hkeep, hholds, fun _ _ => rfl⟩
  | @cons h l rest below after hh hbelow hafter ih₁ ih₂ =>
    intro g copies pending stack more hnd hpending hg hkeep hholds
    obtain ⟨hself, hnd⟩ := List.nodup_cons.mp hnd
    obtain ⟨hndBelow, hndAfter, hdisjoint⟩ := List.nodup_append.mp hnd
    -- the nodes that wait for their parent are not copied again
    have hwaiting : ∀ k ∈ rest ++ pending, k ≠ h ∧ k ∉ below := by
      intro k hk
      rcases List.mem_append.mp hk with hk | hk
      · have hk := hafter.subset hk
        exact ⟨fun he => hself (he ▸ List.mem_append_right below hk),
          fun hb => hdisjoint k hb k hk rfl⟩
      · have hk := hpending k hk
        simp only [List.mem_cons, List.mem_append, not_or] at hk
        exact ⟨hk.1, hk.2.1⟩
    -- the trees after this one, then the children, then the node itself
    obtain ⟨g₂, stack₂, copies₂, hrun₂, hmap₂, hg₂, hkeep₂, hholds₂, hsame₂⟩ :=
      ih₂ (below.reverse ++ h :: more) hndAfter (fun k hk hk' => hpending k hk (by simp [hk'])) hg
        hkeep hholds
    obtain ⟨g₁, stack₁, copies₁, hrun₁, hmap₁, hg₁, hkeep₁, hholds₁, hsame₁⟩ :=
      ih₁ (h :: more) hndBelow (fun k hk => (hwaiting k hk).2) hg₂ hkeep₂ hholds₂
    obtain ⟨cs, stack', rfl, hcs, hstack⟩ := hholds₁.split
    obtain ⟨m, hm, hnode⟩ := hkeep₁ h l hh
    rw [← hnode] at hcs
    have horder : (h :: (below ++ after)).reverse ++ more =
        after.reverse ++ (below.reverse ++ h :: more) := by simp
    refine ⟨g₁.store (m.node.withChildren cs), g₁.nextHandle :: stack',
      (h, g₁.nextHandle) :: copies₁, ?_, ?_, hg₁.store _,
      hkeep₁.trans (hg₁.keepsNodes_store _), ?_, ?_⟩
    · rw [horder, hrun₂, hrun₁]
      exact copyNodes_cons hm hcs.length_eq _ more
    · rw [horder, hmap₂, hmap₁]
      exact copyNodesByMap_cons hm hcs more
    · have hnew : CopyMap.Holds ((h, g₁.nextHandle) :: copies₁) [h] [g₁.nextHandle] := by
        simp [CopyMap.Holds]
      exact hnew.append (hstack.congr fun k hk => CopyMap.lookup_cons_of_ne (hwaiting k hk).1 _ _)
    · intro k hk
      simp only [List.mem_cons, List.mem_append, not_or] at hk
      rw [CopyMap.lookup_cons_of_ne hk.1, hsame₁ k hk.2.1, hsame₂ k hk.2.2]

/-- **Copying with a map is copying**, on every well-formed forest. -/
theorem copyByMap_eq (hf : f.WellFormed) (h : Handle) : Edit.copyByMap h f = Edit.copy h f := by
  rcases hh : f.live? h with _ | l
  · rw [copy_eq_error hh]
    simp only [Edit.copyByMap, bind, EStateM.bind, Edit.ask, preorder_eq_error hh]
  · obtain ⟨xs, hl⟩ := exists_listing_of_contains hf (contains_iff.mpr ⟨l, hh⟩)
    obtain ⟨g, stack, copies, hrun, hmap, -, -, hholds, -⟩ :=
      copyNodesByMap_listing hl [] (nodup_preorder hf hl) (by simp) hf.books (.refl f)
        (show CopyMap.Holds [] [] [] from rfl)
    obtain ⟨c, rfl⟩ := List.length_eq_one_iff.mp hholds.length_eq
    have hfind : copies.find h = .ok c := by
      simp only [CopyMap.find, (List.cons.inj hholds).1]
    rw [List.append_nil] at hrun hmap
    replace hmap : Edit.copyNodesByMap [] xs.reverse f = .ok copies g := hmap
    simp only [Edit.copyByMap, Edit.copy, bind, EStateM.bind, Edit.ask, preorder_eq_ok hf hl, hrun,
      hmap, Edit.onRefusal, hfind]
    rfl

theorem copyByMap_run (steps : List Step) (h : Handle) :
    Edit.copyByMap h (empty.run steps) = Edit.copy h (empty.run steps) :=
  copyByMap_eq (wellFormed_run steps wellFormed_empty) h

end Forest

end SyntaxForest
