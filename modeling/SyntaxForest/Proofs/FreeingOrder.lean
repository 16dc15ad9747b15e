import SyntaxForest.Proofs.Preorder
import SyntaxForest.Proofs.Releasing
import Mathlib.Logic.Function.Iterate

/-! # The freeing loop, and the order in which it frees

The loop of `freeAll` goes in turns: a handle is taken off the stack, and the children of its node are
put on. On every forest, whatever its links are, the turns come to an end: each makes the weight of
the forest and the length of the stack smaller by one together (`iterate_freeingTurn`).

Where what is reached from the stack is live and forms trees (`Trees`), one turn leaves trees to free
(`Trees.release`). So the loop frees the nodes in the order of a walk from the last child to the first
(`Trees.exists_walk`), and they are the nodes in preorder (`Trees.exists_order`). -/

namespace SyntaxForest.Forest

variable {f g : Forest} {h k p q c r : Handle} {l : LiveNode}
  {stack roots rest hs ks xs ys walk : List Handle}

/-! ### Turns -/

/-- One turn of the freeing loop: the handle on top of the stack is taken off; if it names a node, the
node is released and its children are put on the stack, the last one on top. -/
def freeingTurn : Forest × List Handle → Forest × List Handle
  | (f, []) => (f, [])
  | (f, h :: stack) =>
    match f.live? h with
    | none => (f, stack)
    | some l => (f.release h, l.node.children.reverse ++ stack)

/-- **The freeing loop ends on every forest**, after no more turns than the forest weighs and the
stack is high, and leaves the forest of `freeAll`. -/
theorem iterate_freeingTurn (f : Forest) (stack : List Handle) : ∀ {n : Nat},
    f.weight + stack.length ≤ n → freeingTurn^[n] (f, stack) = (f.freeAll stack, []) := by
  fun_induction freeAll f stack with
  | case1 f => exact fun _ => Function.iterate_fixed rfl _
  | case2 f h stack hh ih =>
    intro n hn
    rw [List.length_cons] at hn
    obtain ⟨m, rfl⟩ : ∃ m, n = m + 1 := ⟨n - 1, by omega⟩
    have hturn : freeingTurn (f, h :: stack) = (f, stack) := by simp only [freeingTurn, hh]
    rw [Function.iterate_succ_apply, hturn]
    exact ih (by omega)
  | case3 f h stack l hl ih =>
    intro n hn
    rw [List.length_cons] at hn
    obtain ⟨m, rfl⟩ : ∃ m, n = m + 1 := ⟨n - 1, by omega⟩
    have hturn : freeingTurn (f, h :: stack) =
        (f.release h, l.node.children.reverse ++ stack) := by simp only [freeingTurn, hl]
    -- the node weighs itself and its children, which are on the stack now
    have hweight := weight_release hl
    rw [Function.iterate_succ_apply, hturn]
    refine ih ?_
    rw [List.length_append, List.length_reverse]
    omega

/-- A node that is its own child is freed once: it is stale at the second turn. -/
example : freeingTurn^[2] (⟨#[⟨0, some ⟨{ payload := .parenthesized (some ⟨0, 0⟩) }, none⟩⟩], [], 1⟩,
    [⟨0, 0⟩]) = (⟨#[⟨1, none⟩], [0], 0⟩, []) := rfl

/-! ### Trees -/

/-- `c` is a child of the live node `p`. -/
def HasChild (f : Forest) (p c : Handle) : Prop := ∃ l, f.live? p = some l ∧ c ∈ l.node.children

/-- `k` is reached from one of the roots through links from nodes to their children. -/
def Reached (f : Forest) (roots : List Handle) (k : Handle) : Prop :=
  ∃ r ∈ roots, Relation.ReflTransGen f.HasChild r k

/-- **Trees below the roots**: what is reached from the roots is live; each node is listed once among
the children of one node, and the roots among those of none. Nothing is said of owners. -/
structure Trees (f : Forest) (roots : List Handle) : Prop where
  live : ∀ {k}, f.Reached roots k → f.contains k
  nodup : roots.Nodup
  root : ∀ {p r}, f.Reached roots p → r ∈ roots → ¬ f.HasChild p r
  children : ∀ {p l}, f.Reached roots p → f.live? p = some l → l.node.children.Nodup
  parent : ∀ {p q c}, f.Reached roots p → f.Reached roots q → f.HasChild p c → f.HasChild q c → p = q

theorem reached_root (hr : r ∈ roots) : f.Reached roots r := ⟨r, hr, .refl⟩

theorem Reached.cases (hk : f.Reached roots k) :
    k ∈ roots ∨ ∃ p, f.Reached roots p ∧ f.HasChild p k := by
  obtain ⟨r, hr, hrk⟩ := hk
  rcases hrk.cases_tail with rfl | ⟨p, hrp, hpk⟩
  · exact .inl hr
  · exact .inr ⟨p, ⟨r, hr, hrp⟩, hpk⟩

theorem hasChild_release_iff (hh : f.contains h) :
    (f.release h).HasChild p c ↔ p ≠ h ∧ f.HasChild p c := by
  simp only [HasChild, live?_release_of_live hh]
  split_ifs with hp <;> simp [hp]

theorem Reached.of_release (hl : f.live? h = some l)
    (hk : (f.release h).Reached (l.node.children.reverse ++ rest) k) : f.Reached (h :: rest) k := by
  obtain ⟨r, hr, hrk⟩ := hk
  have hmono : Relation.ReflTransGen f.HasChild r k :=
    Relation.ReflTransGen.mono
      (fun _ _ hc => ((hasChild_release_iff (contains_iff.mpr ⟨l, hl⟩)).mp hc).2) _ _ hrk
  rcases List.mem_append.mp hr with hr | hr
  · exact ⟨h, List.mem_cons_self, hmono.head ⟨l, hl, List.mem_reverse.mp hr⟩⟩
  · exact ⟨r, List.mem_cons_of_mem h hr, hmono⟩

namespace Trees

theorem ne_of_reached_release (ht : f.Trees (h :: rest)) (hl : f.live? h = some l)
    (hk : (f.release h).Reached (l.node.children.reverse ++ rest) k) : k ≠ h := by
  rintro rfl
  have hh : f.contains k := contains_iff.mpr ⟨l, hl⟩
  have hroot : ∀ {p}, f.Reached (k :: rest) p → ¬ f.HasChild p k := fun hp =>
    ht.root hp List.mem_cons_self
  rcases hk.cases with hk | ⟨p, hp, hpk⟩
  · rcases List.mem_append.mp hk with hk | hk
    · exact hroot (reached_root List.mem_cons_self) ⟨l, hl, List.mem_reverse.mp hk⟩
    · exact (List.nodup_cons.mp ht.nodup).1 hk
  · exact hroot (hp.of_release hl) ((hasChild_release_iff hh).mp hpk).2

/-- **One turn leaves trees**: those of the children of the node that was released, and the others. -/
theorem release (ht : f.Trees (h :: rest)) (hl : f.live? h = some l) :
    (f.release h).Trees (l.node.children.reverse ++ rest) := by
  have hh : f.contains h := contains_iff.mpr ⟨l, hl⟩
  have htop : f.Reached (h :: rest) h := reached_root List.mem_cons_self
  have hchild : ∀ {c}, c ∈ l.node.children → f.HasChild h c := fun hc => ⟨l, hl, hc⟩
  constructor
  case live =>
    intro k hk
    rw [contains, live?_release_of_live hh, if_neg (ht.ne_of_reached_release hl hk)]
    exact ht.live (hk.of_release hl)
  case nodup =>
    refine List.nodup_append.mpr ⟨List.nodup_reverse.mpr (ht.children htop hl),
      (List.nodup_cons.mp ht.nodup).2, ?_⟩
    rintro c hc _ hr rfl
    exact ht.root htop (List.mem_cons_of_mem h hr) (hchild (List.mem_reverse.mp hc))
  case root =>
    intro p r hp hr hpr
    obtain ⟨hph, hpr⟩ := (hasChild_release_iff hh).mp hpr
    rcases List.mem_append.mp hr with hr | hr
    -- a child of the released node is a child of no other one
    · exact hph (ht.parent (hp.of_release hl) htop hpr (hchild (List.mem_reverse.mp hr)))
    · exact ht.root (hp.of_release hl) (List.mem_cons_of_mem h hr) hpr
  case children =>
    intro p m hp hm
    rw [live?_release_of_live hh, if_neg (ht.ne_of_reached_release hl hp)] at hm
    exact ht.children (hp.of_release hl) hm
  case parent =>
    intro p q c hp hq hpc hqc
    exact ht.parent (hp.of_release hl) (hq.of_release hl) ((hasChild_release_iff hh).mp hpc).2
      ((hasChild_release_iff hh).mp hqc).2

theorem live_root (ht : f.Trees (h :: rest)) : ∃ l, f.live? h = some l :=
  contains_iff.mp (ht.live (reached_root List.mem_cons_self))

theorem head (ht : f.Trees (h :: rest)) : f.Trees [h] := by
  have hreached : ∀ {k}, f.Reached [h] k → f.Reached (h :: rest) k := by
    rintro k ⟨r, hr, hrk⟩
    obtain rfl := List.mem_singleton.mp hr
    exact ⟨r, List.mem_cons_self, hrk⟩
  exact
    { live := fun hk => ht.live (hreached hk)
      nodup := List.nodup_singleton h
      root := fun hp hr => ht.root (hreached hp) (List.mem_singleton.mp hr ▸ List.mem_cons_self)
      children := fun hp => ht.children (hreached hp)
      parent := fun hp hq => ht.parent (hreached hp) (hreached hq) }

/-- **Freeing some trees leaves the others**, by induction on the turns. -/
theorem freeAll (ht : f.Trees (xs ++ ys)) : (f.freeAll xs).Trees ys := by
  fun_induction Forest.freeAll f xs with
  | case1 f => exact ht
  | case2 f h stack hh _ =>
    obtain ⟨l, hl⟩ := ht.live_root
    rw [hh] at hl; cases hl
  | case3 f h stack l hl ih =>
    refine ih ?_
    rw [List.append_assoc]
    exact ht.release hl

end Trees

/-- The loose nodes of a forest are the roots of trees, if they are live. -/
theorem Ownership.trees (hf : f.Ownership roots) (hnd : roots.Nodup)
    (hlive : ∀ r ∈ roots, f.contains r) : f.Trees roots where
  live hk := by
    rcases hk.cases with hk | ⟨p, -, l, hl, hc⟩
    · exact hlive _ hk
    · exact contains_of_owns (hf.child hl hc).1
  nodup := hnd
  root := fun _ hr ⟨_, hl, hc⟩ => (hf.child hl hc).2 hr
  children _ hl := hf.nodup hl
  parent := fun _ _ ⟨_, hl, hc⟩ ⟨_, hm, hd⟩ => hf.child_unique hl hm hc hd

/-! ### Walks from the last child to the first -/

/-- **A backward walk**: the trees below the first handles, one after another, have the second handles
in the order in which each node comes before what is below it, and its children are taken from the
last to the first. -/
inductive BackwardWalk (f : Forest) : List Handle → List Handle → Prop where
  | nil : BackwardWalk f [] []
  | cons {h : Handle} {l : LiveNode} {rest below after : List Handle} :
    f.live? h = some l → BackwardWalk f l.node.children.reverse below → BackwardWalk f rest after →
    BackwardWalk f (h :: rest) (h :: (below ++ after))

namespace BackwardWalk

theorem mono (hw : g.BackwardWalk hs walk)
    (hg : ∀ {k l}, g.live? k = some l → f.live? k = some l) : f.BackwardWalk hs walk := by
  induction hw with
  | nil => exact .nil
  | cons hh _ _ ih₁ ih₂ => exact .cons (hg hh) ih₁ ih₂

theorem split : ∀ {hs walk : List Handle}, f.BackwardWalk (hs ++ ks) walk →
    ∃ below after, walk = below ++ after ∧ f.BackwardWalk hs below ∧ f.BackwardWalk ks after
  | [], walk, hw => ⟨[], walk, rfl, .nil, hw⟩
  | h :: hs, _, .cons hh hbelow hrest => by
    obtain ⟨below', after, rfl, hw₁, hw₂⟩ := split hrest
    exact ⟨_, after, by rw [List.cons_append, List.append_assoc], .cons hh hbelow hw₁, hw₂⟩

theorem unique (hw : f.BackwardWalk hs xs) : ∀ {ys : List Handle}, f.BackwardWalk hs ys →
    xs = ys := by
  induction hw with
  | nil => rintro _ ⟨⟩; rfl
  | cons hh _ _ ih₁ ih₂ =>
    rintro _ (_ | ⟨hh', hbelow, hrest⟩)
    cases hh.symm.trans hh'
    rw [ih₁ hbelow, ih₂ hrest]

end BackwardWalk

theorem Listing.reverse (hl : f.Listing hs xs) : ∃ ys, f.Listing hs.reverse ys ∧ ys.Perm xs := by
  induction hl with
  | nil => exact ⟨[], .nil, .nil⟩
  | @cons h l rest below after hh hbelow _ _ ih =>
    obtain ⟨ys, hys, hp⟩ := ih
    rw [List.reverse_cons]
    refine ⟨_, hys.append (.cons hh hbelow .nil), ?_⟩
    rw [List.append_nil]
    exact List.perm_append_comm.trans (List.Perm.cons h (hp.append_left below))

theorem BackwardWalk.exists_listing (hw : f.BackwardWalk hs walk) :
    ∃ xs, f.Listing hs xs ∧ walk.Perm xs := by
  induction hw with
  | nil => exact ⟨[], .nil, .nil⟩
  | @cons h l rest below after hh _ _ ih₁ ih₂ =>
    obtain ⟨xs, hxs, hp₁⟩ := ih₁
    obtain ⟨ys, hys, hp₂⟩ := ih₂
    obtain ⟨zs, hzs, hp⟩ := hxs.reverse
    rw [List.reverse_reverse] at hzs
    exact ⟨_, .cons hh hzs hys, ((hp₁.trans hp.symm).append hp₂).cons h⟩

/-! ### The order of the loop -/

/-- **The loop frees trees in the order of a backward walk**, by induction on the turns. -/
theorem Trees.exists_walk (ht : f.Trees stack) :
    ∃ walk, f.BackwardWalk stack walk ∧ f.Releases walk (f.freeAll stack) := by
  fun_induction Forest.freeAll f stack with
  | case1 f => exact ⟨[], .nil, .nil f⟩
  | case2 f h stack hh _ =>
    obtain ⟨l, hl⟩ := ht.live_root
    rw [hh] at hl; cases hl
  | case3 f h stack l hl ih =>
    have hh : f.contains h := contains_iff.mpr ⟨l, hl⟩
    obtain ⟨walk, hwalk, hreleases⟩ := ih (ht.release hl)
    -- what is live after the turn was live before
    have hwalk' : f.BackwardWalk (l.node.children.reverse ++ stack) walk := hwalk.mono fun hk => by
      rw [live?_release_of_live hh] at hk
      split_ifs at hk
      exact hk
    obtain ⟨below, after, rfl, hbelow, hafter⟩ := hwalk'.split
    exact ⟨_, .cons hl hbelow hafter, .cons hh hreleases⟩

/-- **The nodes that the loop frees are those of the preorder**, in the order of the backward walk. -/
theorem Trees.exists_order (ht : f.Trees [h]) : ∃ nodes walk, f.preorder h = .ok nodes ∧
    f.BackwardWalk [h] walk ∧ walk.Perm nodes ∧ f.Releases walk (f.freeSubtree h) := by
  obtain ⟨walk, hwalk, hreleases⟩ := ht.exists_walk
  obtain ⟨nodes, hnodes, hperm⟩ := hwalk.exists_listing
  have hnd : nodes.Nodup := hperm.nodup_iff.mp hreleases.nodup
  exact ⟨nodes, walk, hnodes.preorder_of_nodup hnd, hwalk, hperm, hreleases⟩

end SyntaxForest.Forest
