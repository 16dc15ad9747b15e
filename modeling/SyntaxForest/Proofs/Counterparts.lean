import SyntaxForest.Proofs.Copying
import SyntaxForest.Proofs.Run

/-! # Counterparts

Every node of a tree that is copied has a counterpart in the copy: a node with the same payload over
the counterparts of its children, and with the same type and source range (`Counterparts`). The
preorder of the copy has the counterparts in the order of the originals
(`Copies.exists_counterparts`).

A forest that has grown by a tree has as many more nodes as the tree (`Grows.size_eq`). So in every
forest that a run reaches, a live node is copied with all that is below it into new nodes, and no
other node is touched (`copy_faithful`). -/

namespace SyntaxForest

/-! ### Children replaced one by one -/

/-- The payload with every child replaced, each in its place. -/
def Payload.mapChildren (g : Handle → Handle) : Payload → Payload
  | parenthesized e => parenthesized (e.map g)
  | chain o l r xs => chain o (l.map g) (r.map g) (xs.map g)
  | conditional c t e => conditional (c.map g) (t.map g) (e.map g)
  | expressionStatement e => expressionStatement (e.map g)
  | returnStatement e => returnStatement (e.map g)
  | block xs => block (xs.map g)
  | ifStatement c t e => ifStatement (c.map g) (t.map g) (e.map g)
  | p => p

theorem Payload.withChildren_map (g : Handle → Handle) (p : Payload) :
    p.withChildren (p.children.map g) = p.mapChildren g := by
  cases p with
  | parenthesized e | expressionStatement e | returnStatement e => cases e <;> rfl
  | chain o l r xs =>
    cases l <;> cases r <;>
      simp [withChildren, mapChildren, children, childFields, refillSlot]
  | conditional c t e | ifStatement c t e => cases c <;> cases t <;> cases e <;> rfl
  | block xs => simp [withChildren, mapChildren, children, childFields]
  | _ => rfl

/-- The node with every child replaced. -/
def Node.mapChildren (g : Handle → Handle) (n : Node) : Node :=
  { n with payload := n.payload.mapChildren g }

theorem Node.withChildren_map (g : Handle → Handle) (n : Node) :
    n.withChildren (n.children.map g) = n.mapChildren g := by
  rw [withChildren, children, Payload.withChildren_map]
  rfl

namespace Forest

variable {f f' : Forest} {hs cs xs : List Handle}

/-! ### The counterparts of a copy -/

/-- The nodes listed in `f` have counterparts in `f'`: nodes that differ in the children alone,
which are the counterparts of the children. -/
def Counterparts (f f' : Forest) (xs : List Handle) (g : Handle → Handle) : Prop :=
  ∀ x ∈ xs, ∃ l m, f.live? x = some l ∧ f'.live? (g x) = some m ∧ m.node = l.node.mapChildren g

/-- **The copies of trees are listed in the order of the trees**, and the place in the list of a
node is that of its counterpart. -/
theorem Copies.listing (hc : f.Copies f' hs cs) : ∀ {xs : List Handle}, f.Listing hs xs →
    ∃ ys, f'.Listing cs ys ∧ ys.length = xs.length ∧
      ∀ g, xs.map g = ys → hs.map g = cs ∧ f.Counterparts f' xs g := by
  induction hc with
  | nil =>
    intro xs hl
    cases hl
    exact ⟨[], .nil, rfl, fun g _ => ⟨rfl, by simp [Counterparts]⟩⟩
  | @cons h c l m hs cs below hh hc he hbelow _ ih₁ ih₂ =>
    intro xs hl
    -- the trees below the node and those after it are listed apart, in lists of the same lengths
    obtain _ | ⟨hh', hl₁, hl₂⟩ := hl
    cases hh.symm.trans hh'
    obtain ⟨ys₁, hys₁, hlen₁, hg₁⟩ := ih₁ hl₁
    obtain ⟨ys₂, hys₂, hlen₂, hg₂⟩ := ih₂ hl₂
    have hchildren : m.node.children = below := by
      rw [he]
      exact Node.children_withChildren hbelow.length_eq
    refine ⟨c :: (ys₁ ++ ys₂), .cons hc (hchildren ▸ hys₁) hys₂, by simp [hlen₁, hlen₂], ?_⟩
    intro g hg
    rw [List.map_cons, List.map_append, List.cons.injEq] at hg
    obtain ⟨rfl, hg⟩ := hg
    obtain ⟨heq₁, heq₂⟩ := List.append_inj hg (by simp [hlen₁])
    obtain ⟨hroots₁, hnodes₁⟩ := hg₁ g heq₁
    obtain ⟨hroots₂, hnodes₂⟩ := hg₂ g heq₂
    refine ⟨by rw [List.map_cons, hroots₂], fun x hx => ?_⟩
    rcases List.mem_cons.mp hx with rfl | hx
    · refine ⟨l, m, hh, hc, ?_⟩
      rw [he, ← hroots₁, Node.withChildren_map]
    · exact (List.mem_append.mp hx).elim (hnodes₁ x) (hnodes₂ x)

theorem exists_map_eq {ys : List Handle} (hnd : xs.Nodup) (hlen : ys.length = xs.length) :
    ∃ g : Handle → Handle, xs.map g = ys := by
  refine ⟨fun x => ys.getD (xs.idxOf x) x, List.ext_getElem (by simp [hlen]) fun i hi hi' => ?_⟩
  rw [List.getElem_map, hnd.idxOf_getElem, List.getD_eq_getElem?_getD,
    List.getElem?_eq_getElem hi', Option.getD_some]

/-- **The preorder of a copy has the counterparts in the order of the originals.** -/
theorem Copies.exists_counterparts (hf : f.WellFormed) {h c : Handle} (hc : f.Copies f' [h] [c])
    (hl : f.Listing [h] xs) : ∃ g, f'.Listing [c] (xs.map g) ∧ f.Counterparts f' xs g := by
  obtain ⟨ys, hys, hlen, hcounter⟩ := hc.listing hl
  obtain ⟨g, rfl⟩ := exists_map_eq (nodup_preorder hf hl) hlen
  exact ⟨g, hys, (hcounter g rfl).2⟩

/-! ### The size of a grown forest -/

theorem Grows.size_eq {r : Handle} {ys : List Handle} (hg : f.Grows f' [r]) (hf : f.WellFormed)
    (hf' : f'.WellFormed) (hl : f'.Listing [r] ys) : f'.size = f.size + ys.length := by
  have hnew : ∀ y ∈ ys, ¬ f.contains y := fun y hy => by
    obtain ⟨k, hk, hu⟩ := (mem_listing hf' hl).mp hy
    exact hg.not_contains_of_under hf hk hu
  have hdisjoint : ∀ a ∈ f.handlesWhere fun _ => true, ∀ y ∈ ys, a ≠ y := by
    rintro a ha y hy rfl
    exact hnew a hy (mem_handlesWhere_true.mp ha)
  have hnodup : ((f.handlesWhere fun _ => true) ++ ys).Nodup :=
    List.nodup_append.mpr ⟨f.nodup_handlesWhere _, nodup_preorder hf' hl, hdisjoint⟩
  have hmem : ∀ k, k ∈ (f.handlesWhere fun _ => true) ++ ys ↔ f'.contains k := by
    intro k
    rw [List.mem_append, mem_handlesWhere_true, mem_listing hf' hl]
    refine ⟨fun h => h.elim hg.contains ?_, hg.under⟩
    rintro ⟨r, hr, hu⟩
    exact hl.live k ((mem_listing hf' hl).mpr ⟨r, hr, hu⟩)
  rw [← hf'.books.length_eq_size hnodup hmem, List.length_append, hf.books.size_eq]

/-! ### Copying in a run -/

/-- **A copy is faithful, new, and leaves the rest alone**, in every forest that a run reaches.
Copying a live node succeeds with a detached root. With `g` from the originals to their
counterparts, the preorder of the copy is that of the original under `g`; the counterpart of a node
has its payload, its type and its source range, and the counterparts of its children, field by
field; no two counterparts are the same, and none was live before. All nodes that were live keep
their contents and their owners, and the number of nodes grows by that of the nodes copied. -/
theorem copy_faithful (steps : List Step) {h : Handle} (hh : (empty.run steps).contains h) :
    ∃ c f' xs g, Edit.copy h (empty.run steps) = .ok c f' ∧ f'.isDetached c = .ok true ∧
      (empty.run steps).preorder h = .ok xs ∧ f'.preorder c = .ok (xs.map g) ∧
      (∀ x ∈ xs, ∃ n, (empty.run steps).node x = .ok n ∧ (∀ k ∈ n.children, k ∈ xs) ∧
        f'.node (g x) = .ok (n.mapChildren g)) ∧
      (xs.map g).Nodup ∧ (∀ y ∈ xs.map g, ¬ (empty.run steps).contains y) ∧
      (∀ k, (empty.run steps).contains k → f'.live? k = (empty.run steps).live? k) ∧
      f'.size = (empty.run steps).size + xs.length := by
  have hf := wellFormed_run steps wellFormed_empty
  obtain ⟨c, f', hcopy, hf', hgrow, hcopies⟩ := copy_eq_ok hf hh
  obtain ⟨xs, hl⟩ := exists_listing_of_contains hf hh
  obtain ⟨g, hl', hcounter⟩ := hcopies.exists_counterparts hf hl
  obtain ⟨n, hn⟩ := hgrow.root (List.mem_singleton_self c)
  have hdetached : f'.isDetached c = .ok true := by
    have howner : f'.owner? c = .ok none := owner?_eq_ok.mpr ⟨_, hn, rfl⟩
    rw [isDetached, howner]
    rfl
  have hsize := hgrow.size_eq hf hf' hl'
  rw [List.length_map] at hsize
  refine ⟨c, f', xs, g, hcopy, hdetached, preorder_eq_ok hf hl, preorder_eq_ok hf' hl', ?_,
    nodup_preorder hf' hl', fun y hy => ?_, fun k hk => hgrow.kept hk, hsize⟩
  · intro x hx
    obtain ⟨l, m, hx', hm, he⟩ := hcounter x hx
    exact ⟨l.node, node_eq_ok.mpr ⟨l, hx', rfl⟩, fun k hk => hl.child_mem hf hx hx' hk,
      node_eq_ok.mpr ⟨m, hm, he⟩⟩
  · obtain ⟨r, hr, hu⟩ := (mem_listing hf' hl').mp hy
    exact hgrow.not_contains_of_under hf hr hu

/-- The copy of a name in parentheses is one of a name in parentheses, with two new nodes. -/
theorem copy_faithful_parenthesized : ∃ (f' : Forest) (g : Handle → Handle),
    Edit.copy ⟨1, 0⟩ (empty.run [.operate (.name "a"), .operate (.parenthesized ⟨0, 0⟩)]) =
      .ok ⟨3, 0⟩ f' ∧ g ⟨1, 0⟩ = ⟨3, 0⟩ ∧ g ⟨0, 0⟩ = ⟨2, 0⟩ ∧
    f'.node ⟨3, 0⟩ = .ok ⟨.parenthesized (some (g ⟨0, 0⟩)), none, none⟩ ∧ f'.size = 4 := by
  obtain ⟨c, f', xs, g, hcopy, -, hxs, hys, hnode, -, -, -, hsize⟩ := copy_faithful
    [.operate (.name "a"), .operate (.parenthesized ⟨0, 0⟩)] (h := ⟨1, 0⟩) rfl
  obtain rfl : [⟨1, 0⟩, ⟨0, 0⟩] = xs := Except.ok.inj hxs
  obtain ⟨f₁, hrun, hlist⟩ : ∃ f₁, Edit.copy ⟨1, 0⟩
      (empty.run [.operate (.name "a"), .operate (.parenthesized ⟨0, 0⟩)]) = .ok ⟨3, 0⟩ f₁ ∧
        f₁.preorder ⟨3, 0⟩ = .ok [⟨3, 0⟩, ⟨2, 0⟩] := ⟨_, rfl, rfl⟩
  cases hcopy.symm.trans hrun
  have hmap : [g ⟨1, 0⟩, g ⟨0, 0⟩] = [⟨3, 0⟩, ⟨2, 0⟩] := Except.ok.inj (hys.symm.trans hlist)
  simp only [List.cons.injEq, and_true] at hmap
  obtain ⟨n, hn, -, hcopied⟩ := hnode ⟨1, 0⟩ List.mem_cons_self
  obtain rfl : ⟨.parenthesized (some ⟨0, 0⟩), none, none⟩ = n := Except.ok.inj hn
  rw [hmap.1] at hcopied
  exact ⟨f', g, hcopy, hmap.1, hmap.2, hcopied, hsize⟩

end Forest

end SyntaxForest
