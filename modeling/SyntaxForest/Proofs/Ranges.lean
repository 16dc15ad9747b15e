import SyntaxForest.Proofs.Freeing
import SyntaxForest.Proofs.Alike
import SyntaxForest.Forest.Build

/-! # Forests without the ranges of their new nodes

`old.dropSpans f` is the forest `f` without the source ranges of the nodes that are not in `old`. Only
the answer to what range a new node has tells the two apart (`live?_dropSpans`). The operations that a
conversion is made of do not look at ranges: to drop the ranges before the operation or after it comes
to the same. -/

namespace SyntaxForest

/-- The node without its source range. -/
def LiveNode.dropSpan (l : LiveNode) : LiveNode := { l with node := { l.node with span? := none } }

namespace Entry

/-- The entry without the source range of its node. -/
def dropSpan (e : Entry) : Entry := { e with live? := e.live?.map .dropSpan }

variable (e : Entry) {g : UInt32} {change : LiveNode → LiveNode}

theorem generation_update : (e.update g change).generation = e.generation := by
  unfold update; split_ifs <;> rfl

theorem dropSpan_update (hc : ∀ l, (change l).dropSpan = change l.dropSpan) :
    (e.update g change).dropSpan = e.dropSpan.update g change := by
  have hmap : ∀ o : Option LiveNode,
      (o.map change).map LiveNode.dropSpan = (o.map .dropSpan).map change := by
    rintro (_ | l)
    · rfl
    · exact congrArg some (hc l)
  unfold update
  split_ifs with hg hd hd
  · exact congrArg (Entry.mk e.emptied) (hmap e.live?)
  · exact absurd hg hd
  · exact absurd hd hg
  · rfl

theorem dropSpan_update_span (hc : ∀ l, (change l).dropSpan = l.dropSpan) :
    (e.update g change).dropSpan = e.dropSpan := by
  have hmap : ∀ o : Option LiveNode,
      (o.map change).map LiveNode.dropSpan = o.map .dropSpan := by
    rintro (_ | l)
    · rfl
    · exact congrArg some (hc l)
  unfold update
  split_ifs
  · exact congrArg (Entry.mk e.emptied) (hmap e.live?)
  · rfl

end Entry

namespace Forest

variable (old f : Forest)

/-- An entry without the range of its node, unless that is a node of `old`. -/
def dropSpanAt (index : Nat) (e : Entry) : Entry :=
  if old.contains ⟨index, e.generation⟩ then e else e.dropSpan

/-- The forest without the ranges of the nodes that are not in `old`. -/
def dropSpans : Forest := { f with entries := f.entries.mapIdx old.dropSpanAt }

variable {old f}

theorem generation_dropSpanAt (i : Nat) (e : Entry) :
    (old.dropSpanAt i e).generation = e.generation := by
  unfold dropSpanAt; split_ifs <;> rfl

theorem dropSpanAt_vacate (i : Nat) (e : Entry) :
    old.dropSpanAt i e.vacate = (old.dropSpanAt i e).vacate := by
  unfold dropSpanAt; split_ifs <;> rfl

theorem live?_dropSpans (k : Handle) : (old.dropSpans f).live? k =
    if old.contains k then f.live? k else (f.live? k).map .dropSpan := by
  simp only [live?, dropSpans, Array.getElem?_mapIdx]
  rcases f.entries[k.index]? with _ | e
  · simp
  · rw [Option.map_some, Option.bind_some, Option.bind_some, Entry.at?, Entry.at?,
      generation_dropSpanAt]
    split_ifs with hg hk hk
    · rw [dropSpanAt, hg, if_pos hk]
    · rw [dropSpanAt, hg, if_neg hk]; rfl
    · rfl
    · rfl

theorem mapIdx_modify {entries : Array Entry} {i : Nat} {g k : Entry → Entry}
    (hc : ∀ e, old.dropSpanAt i (g e) = k (old.dropSpanAt i e)) :
    (entries.modify i g).mapIdx old.dropSpanAt = (entries.mapIdx old.dropSpanAt).modify i k := by
  refine Array.ext_getElem? fun j => ?_
  simp only [Array.getElem?_mapIdx, Array.getElem?_modify]
  split_ifs with hi
  · subst hi
    rw [Option.map_map, Option.map_map]
    exact congrArg (fun g => Option.map g _) (funext hc)
  · rfl

theorem dropSpans_of_alike (h : old.Alike f) : old.dropSpans f = f := by
  refine congrArg (fun entries => (⟨entries, f.free, f.liveCount⟩ : Forest)) ?_
  refine Array.ext_getElem? fun i => ?_
  rw [Array.getElem?_mapIdx]
  rcases he : f.entries[i]? with _ | e
  · rfl
  · rw [Option.map_some, dropSpanAt]
    split_ifs with hk
    · rfl
    · have hlive : f.live? ⟨i, e.generation⟩ = e.live? := by simp [live?, he, Entry.at?]
      rw [h, not_contains_iff.mp hk] at hlive
      rw [Entry.dropSpan, ← hlive, Option.map_none]
      exact congrArg (fun o => some (Entry.mk e.emptied o)) hlive

/-! ### Operations that do not look at ranges -/

theorem dropSpans_update {h : Handle} {change : LiveNode → LiveNode}
    (hc : ∀ l, (change l).dropSpan = change l.dropSpan) :
    old.dropSpans (f.update h change) = (old.dropSpans f).update h change := by
  refine congrArg (fun entries => (⟨entries, f.free, f.liveCount⟩ : Forest))
    (mapIdx_modify (i := h.index) (g := fun e => e.update h.generation change)
      (k := fun e => e.update h.generation change) fun e => ?_)
  simp only [dropSpanAt, Entry.generation_update]
  split_ifs
  · rfl
  · exact e.dropSpan_update hc

theorem dropSpans_update_span {h : Handle} {change : LiveNode → LiveNode}
    (hh : ¬ old.contains h) (hc : ∀ l, (change l).dropSpan = l.dropSpan) :
    old.dropSpans (f.update h change) = old.dropSpans f := by
  refine congrArg (fun entries => (⟨entries, f.free, f.liveCount⟩ : Forest)) ?_
  refine Array.ext_getElem? fun i => ?_
  simp only [update, Array.getElem?_mapIdx, Array.getElem?_modify]
  split_ifs with hi
  · subst hi
    rw [Option.map_map]
    refine congrArg (fun g => Option.map g _) (funext fun e => ?_)
    simp only [Function.comp_apply, dropSpanAt, Entry.generation_update]
    split_ifs with hold
    -- an old node in the entry is another one than the node that is changed
    · have hg : e.generation ≠ h.generation := fun hg => hh (by rw [hg] at hold; exact hold)
      rw [Entry.update, if_neg hg]
    · exact e.dropSpan_update_span hc
  · rfl

theorem dropSpans_release (h : Handle) :
    old.dropSpans (f.release h) = (old.dropSpans f).release h :=
  congrArg (fun entries => (⟨entries, h.index :: f.free, f.liveCount - 1⟩ : Forest))
    (mapIdx_modify fun e => dropSpanAt_vacate h.index e)

theorem dropSpans_freeAll (stack : List Handle) :
    old.dropSpans (f.freeAll stack) = (old.dropSpans f).freeAll stack := by
  fun_induction freeAll f stack with
  | case1 f => rw [freeAll_nil]
  | case2 f h stack hs ih =>
    have hs' : (old.dropSpans f).live? h = none := by rw [live?_dropSpans, hs]; simp
    rw [freeAll_cons_of_stale hs', ih]
  | case3 f h stack l hl ih =>
    -- the nodes differ in their ranges only, not in their children
    obtain ⟨l', hl', hcs⟩ : ∃ l', (old.dropSpans f).live? h = some l' ∧
        l'.node.children = l.node.children := by
      rw [live?_dropSpans, hl]
      split_ifs
      · exact ⟨l, rfl, rfl⟩
      · exact ⟨_, rfl, rfl⟩
    rw [freeAll_cons_of_live hl', hcs, ← dropSpans_release, ih]

theorem dropSpans_freeSubtrees (hs : List Handle) :
    old.dropSpans (f.freeSubtrees hs) = (old.dropSpans f).freeSubtrees hs := by
  rw [freeSubtrees_eq, freeSubtrees_eq, dropSpans_freeAll]

theorem nextHandle_dropSpans : (old.dropSpans f).nextHandle = f.nextHandle := by
  obtain ⟨entries, free, liveCount⟩ := f
  cases free with
  | nil => simp [nextHandle, dropSpans]
  | cons index free =>
    simp only [nextHandle, dropSpans, Array.getElem?_mapIdx, Option.map_map]
    have hg : Entry.generation ∘ old.dropSpanAt index = Entry.generation :=
      funext fun e => generation_dropSpanAt index e
    rw [hg]

theorem dropSpans_place {l : LiveNode} (hl : l.dropSpan = l) :
    old.dropSpans (f.place l) = (old.dropSpans f).place l := by
  have hstored : ∀ (i : Nat) (n : Nat), old.dropSpanAt i ⟨n, some l⟩ = ⟨n, some l⟩ := by
    intro i n
    unfold dropSpanAt
    split_ifs
    · rfl
    · rw [Entry.dropSpan, Option.map_some, hl]
  obtain ⟨entries, free, liveCount⟩ := f
  cases free with
  | nil =>
    refine congrArg (fun entries => (⟨entries, [], liveCount + 1⟩ : Forest)) ?_
    exact Array.mapIdx_push.trans (congrArg (Array.push _) (hstored entries.size 0))
  | cons index free =>
    refine congrArg (fun entries => (⟨entries, free, liveCount + 1⟩ : Forest)) ?_
    refine mapIdx_modify fun e => (hstored index e.emptied).trans ?_
    unfold dropSpanAt; split_ifs <;> rfl

theorem dropSpans_claim (owner : Handle) (children : List Handle) :
    old.dropSpans (f.claim owner children) = (old.dropSpans f).claim owner children := by
  unfold claim
  induction children generalizing f with
  | nil => rfl
  | cons c children ih =>
    have hc : old.dropSpans (f.setOwner c (some owner)) =
        (old.dropSpans f).setOwner c (some owner) := dropSpans_update fun _ => rfl
    rw [List.foldl_cons, List.foldl_cons, ih, hc]

theorem dropSpans_store {node : Node} (hn : node.span? = none) :
    old.dropSpans (f.store node) = (old.dropSpans f).store node := by
  have hl : LiveNode.dropSpan ⟨node, none⟩ = ⟨node, none⟩ := by
    simp [LiveNode.dropSpan, ← hn]
  rw [store, store, dropSpans_claim, dropSpans_place hl, nextHandle_dropSpans]

theorem checkAttachable_dropSpans (field : Field) (child : Handle) :
    (old.dropSpans f).checkAttachable field child = f.checkAttachable field child := by
  unfold checkAttachable
  rw [live?_dropSpans]
  split_ifs
  · rfl
  · rcases f.live? child with _ | ⟨n, _ | _⟩ <;> rfl

theorem checkChildren_dropSpans (seen : List Handle) (cs : List (Field × Handle)) :
    (old.dropSpans f).checkChildren seen cs = f.checkChildren seen cs := by
  induction cs generalizing seen with
  | nil => rfl
  | cons c cs ih => simp only [checkChildren, checkAttachable_dropSpans, ih]

end Forest

end SyntaxForest
