import SyntaxForest.Proofs.Preorder
import SyntaxForest.Proofs.Staleness

/-! # Reading walks traverse the tree

The recursive traversal of a tree visits its root, traverses the children one after another if the
visit answered to descend, and ends the visit. `Visitor.Traverses` says which calls that makes of a
visitor, each with the state that it is made in, and in which state it ends; there is at most one
such traversal (`Traverses.unique`), and one of every live node (`Listing.exists_traverses`).

A walk has a stack of frames instead. Its loop goes on until the stack is empty (`Visitor.Loop`), in
as many steps as the traversal makes calls (`Traverses.walks`, `Walks.loop`). So in every forest that
a run reaches, a walk comes to an end and makes the calls of the traversal: `accept_traverses`. -/

namespace SyntaxForest

namespace Visitor

variable {σ : Type} {v : Visitor σ} {f : Forest} {hs : List Handle} {s s' s'' : σ}

/-! ### The recursive traversal -/

/-- **A call of a visitor** with the state it is made in; a visit also with its answer. -/
inductive Event (σ : Type) where
  | visit (node : Handle) (state : σ) (descend : Bool)
  | endVisit (node : Handle) (state : σ)
deriving DecidableEq, Repr

/-- The visitor that also lists its calls. -/
def logged (v : Visitor σ) : Visitor (σ × List (Event σ)) where
  visit f h s :=
    let (descend, s') := v.visit f h s.1
    (descend, s', s.2 ++ [.visit h s.1 descend])
  endVisit f h s := (v.endVisit f h s.1, s.2 ++ [.endVisit h s.1])

/-- **The recursive traversal** of the trees below the listed nodes: the state before, the calls,
and the state after. -/
inductive Traverses (v : Visitor σ) (f : Forest) : List Handle → σ → List (Event σ) → σ → Prop
  | nil {s : σ} : Traverses v f [] s [] s
  | decline {h : Handle} {rest : List Handle} {s s₁ s' : σ} {later : List (Event σ)} :
    v.visit f h s = (false, s₁) → Traverses v f rest (v.endVisit f h s₁) later s' →
    Traverses v f (h :: rest) s (.visit h s false :: .endVisit h s₁ :: later) s'
  | descend {h : Handle} {children rest : List Handle} {s s₁ s₂ s' : σ}
    {inner later : List (Event σ)} :
    v.visit f h s = (true, s₁) → f.children h = .ok children →
    Traverses v f children s₁ inner s₂ → Traverses v f rest (v.endVisit f h s₂) later s' →
    Traverses v f (h :: rest) s (.visit h s true :: (inner ++ .endVisit h s₂ :: later)) s'

/-- **There is one traversal at most**, by induction on it: each visit has one answer. -/
theorem Traverses.unique {calls calls' : List (Event σ)} (ht : v.Traverses f hs s calls s')
    (ht' : v.Traverses f hs s calls' s'') : calls = calls' ∧ s' = s'' := by
  induction ht generalizing calls' s'' with
  | nil => cases ht'; exact ⟨rfl, rfl⟩
  | decline hv _ ih =>
    cases ht' with
    | decline hv' hrest' =>
      cases hv.symm.trans hv'
      obtain ⟨rfl, rfl⟩ := ih hrest'
      exact ⟨rfl, rfl⟩
    | descend hv' => cases hv.symm.trans hv'
  | descend hv hc _ _ ih₁ ih₂ =>
    cases ht' with
    | decline hv' => cases hv.symm.trans hv'
    | descend hv' hc' hinner' hrest' =>
      cases hv.symm.trans hv'
      cases hc.symm.trans hc'
      obtain ⟨rfl, rfl⟩ := ih₁ hinner'
      obtain ⟨rfl, rfl⟩ := ih₂ hrest'
      exact ⟨rfl, rfl⟩

/-! ### From the traversal to the stack -/

theorem below_true {h : Handle} {children : List Handle} (hc : f.children h = .ok children) :
    f.below h true = children := by
  obtain ⟨l, hl, rfl⟩ := Forest.children_eq_ok.mp hc
  simp [Forest.below, hl]

theorem logged_visit {h : Handle} {d : Bool} (hv : v.visit f h s = (d, s'))
    (log : List (Event σ)) : v.logged.visit f h (s, log) = (d, s', log ++ [.visit h s d]) := by
  simp only [logged, hv]

theorem Traverses.walks {calls : List (Event σ)} (ht : v.Traverses f hs s calls s') :
    v.Walks f hs s s' calls.length := by
  induction ht with
  | nil => exact .nil
  | @decline h rest s s₁ s' later hv _ ih =>
    have hw := Walks.cons hv .nil ih
    rwa [Nat.zero_add] at hw
  | @descend h children rest s s₁ s₂ s' inner later hv hc _ _ ih₁ ih₂ =>
    rw [← below_true hc] at ih₁
    have hw := Walks.cons hv ih₁ ih₂
    have hlength : (Event.visit h s true :: (inner ++ .endVisit h s₂ :: later)).length =
        inner.length + later.length + 2 := by simp; omega
    rwa [hlength]

theorem Traverses.logged {calls : List (Event σ)} (ht : v.Traverses f hs s calls s') :
    ∀ log : List (Event σ), ∃ more, v.logged.Traverses f hs (s, log) more (s', log ++ calls) ∧
      more.length = calls.length := by
  induction ht with
  | nil =>
    intro log
    rw [List.append_nil]
    exact ⟨[], .nil, rfl⟩
  | @decline h rest s s₁ s' later hv _ ih =>
    intro log
    obtain ⟨more, hmore, hlength⟩ := ih (log ++ [.visit h s false] ++ [.endVisit h s₁])
    have hlog : log ++ [.visit h s false] ++ [.endVisit h s₁] ++ later =
        log ++ .visit h s false :: .endVisit h s₁ :: later := by simp
    rw [hlog] at hmore
    exact ⟨_, .decline (logged_visit hv log) hmore, by simp [hlength]⟩
  | @descend h children rest s s₁ s₂ s' inner later hv hc _ _ ih₁ ih₂ =>
    intro log
    obtain ⟨more₁, hmore₁, hlength₁⟩ := ih₁ (log ++ [.visit h s true])
    obtain ⟨more₂, hmore₂, hlength₂⟩ := ih₂ (log ++ [.visit h s true] ++ inner ++ [.endVisit h s₂])
    have hlog : log ++ [.visit h s true] ++ inner ++ [.endVisit h s₂] ++ later =
        log ++ .visit h s true :: (inner ++ .endVisit h s₂ :: later) := by simp
    rw [hlog] at hmore₂
    exact ⟨_, .descend (logged_visit hv log) hc hmore₁ hmore₂, by simp [hlength₁, hlength₂]⟩

/-- **The loop of a walk**, which goes on as long as there are frames: from the state `s` it comes
to an end in `s'`. -/
inductive Loop (v : Visitor σ) (f : Forest) : List Frame → σ → σ → Prop
  | finished {s : σ} : Loop v f [] s s
  | step {frame : Frame} {frames frames' : List Frame} {s s₁ s' : σ} :
    v.step f frame frames s = (frames', s₁) → Loop v f frames' s₁ s' →
    Loop v f (frame :: frames) s s'

theorem Walks.loop {n : Nat} (hw : v.Walks f hs s s' n) : ∀ {h : Handle} {frames : List Frame},
    v.Loop f (⟨h, []⟩ :: frames) s' s'' → v.Loop f (⟨h, hs⟩ :: frames) s s'' := by
  induction hw with
  | nil => exact id
  | @cons k rest s s₁ s₂ s₃ d m n hv _ _ ih₁ ih₂ =>
    intro h frames hloop
    have hvisit : v.step f ⟨h, k :: rest⟩ frames s =
        (⟨k, f.below k d⟩ :: ⟨h, rest⟩ :: frames, s₁) := by simp only [step, enter, hv]
    have hend : v.step f ⟨k, []⟩ (⟨h, rest⟩ :: frames) s₂ =
        (⟨h, rest⟩ :: frames, v.endVisit f k s₂) := rfl
    exact .step hvisit (ih₁ (.step hend (ih₂ hloop)))

theorem Walks.loop_enter {root : Handle} {n : Nat} (hw : v.Walks f [root] s s' n) :
    v.Loop f [(v.enter f root s).1] (v.enter f root s).2 s' := by
  cases hw with
  | @cons _ _ _ s₁ s₂ _ d a b hv hbelow hrest =>
    cases hrest
    have hend : v.step f ⟨root, []⟩ [] s₂ = ([], v.endVisit f root s₂) := rfl
    simp only [enter, hv]
    exact hbelow.loop (.step hend .finished)

end Visitor

namespace Forest

variable {σ : Type} {f : Forest} {hs xs : List Handle}

/-- **Every listing can be traversed**, with two calls at most for each node of it. -/
theorem Listing.exists_traverses (hl : f.Listing hs xs) (v : Visitor σ) : ∀ s : σ,
    ∃ calls s', v.Traverses f hs s calls s' ∧ calls.length ≤ 2 * xs.length := by
  induction hl with
  | nil => exact fun s => ⟨[], s, .nil, Nat.le_refl 0⟩
  | @cons h l rest below after hlive _ _ ih₁ ih₂ =>
    intro s
    have hlength : (h :: (below ++ after)).length = below.length + after.length + 1 := by simp
    rcases hv : v.visit f h s with ⟨d, s₁⟩
    cases d with
    | false =>
      obtain ⟨later, s', hlater, hlen⟩ := ih₂ (v.endVisit f h s₁)
      refine ⟨_, s', .decline hv hlater, ?_⟩
      simp only [List.length_cons] at hlength ⊢
      omega
    | true =>
      have hchildren : f.children h = .ok l.node.children := children_eq_ok.mpr ⟨l, hlive, rfl⟩
      obtain ⟨inner, s₂, hinner, hlen₁⟩ := ih₁ s₁
      obtain ⟨later, s', hlater, hlen₂⟩ := ih₂ (v.endVisit f h s₂)
      refine ⟨_, s', .descend hv hchildren hinner hlater, ?_⟩
      simp only [List.length_cons, List.length_append] at hlength ⊢
      omega

/-- **A walk that only reads traverses the tree**, in every forest that a run reaches. Of a live node
there is exactly one traversal; the loop of the walk comes to an end in the state that the traversal
ends in, which is what the walk answers, and a visitor that lists its calls lists those of the
traversal. A walk of a stale handle is refused, whatever the visitor. -/
theorem accept_traverses (steps : List Step) (root : Handle) (v : Visitor σ) (s : σ) :
    ((empty.run steps).contains root → ∃ calls s',
      (∀ calls₁ s₁, v.Traverses (empty.run steps) [root] s calls₁ s₁ ↔ calls₁ = calls ∧ s₁ = s') ∧
      v.Loop (empty.run steps) [(v.enter (empty.run steps) root s).1]
        (v.enter (empty.run steps) root s).2 s' ∧
      (empty.run steps).accept root v s = .ok s' ∧
      (empty.run steps).accept root v.logged (s, []) = .ok (s', calls)) ∧
    (¬ (empty.run steps).contains root →
      (empty.run steps).accept root v s = .error (.staleNode root)) := by
  have hf := wellFormed_run steps wellFormed_empty
  refine ⟨fun hroot => ?_, fun hroot => accept_of_stale (not_contains_iff.mp hroot) v s⟩
  obtain ⟨xs, hlisting⟩ := exists_listing_of_contains hf hroot
  obtain ⟨calls, s', htraverses, hcalls⟩ := hlisting.exists_traverses v s
  obtain ⟨more, hmore, hlength⟩ := htraverses.logged []
  -- a traversal makes two calls at each node, and there are no more nodes than entries
  have hsize := length_le_size (nodup_preorder hf hlisting) hlisting.live
  have hbound : calls.length ≤ 2 * (empty.run steps).entries.size := by omega
  refine ⟨calls, s', fun calls₁ s₁ => ⟨fun h => h.unique htraverses, ?_⟩,
    htraverses.walks.loop_enter, htraverses.walks.accept_eq hroot hbound, ?_⟩
  · rintro ⟨rfl, rfl⟩
    exact htraverses
  · exact hmore.walks.accept_eq hroot (hlength ▸ hbound)

/-- In `(1 + 2) * (3 + 4)` a visitor that counts its visits descends at every second one: into the
product and into the second sum, but not into the first one. -/
theorem accept_traverses_every_second : ∃ v : Visitor Nat,
    v = .ofVisit (fun _ _ n => (n % 2 = 0, n + 1)) ∧
    v.Traverses (empty.run [.operate (.number "1"), .operate (.number "2"),
      .operate (.chain none .plus ⟨0, 0⟩ ⟨1, 0⟩), .operate (.number "3"), .operate (.number "4"),
      .operate (.chain none .plus ⟨3, 0⟩ ⟨4, 0⟩), .operate (.chain none .times ⟨2, 0⟩ ⟨5, 0⟩)])
      [⟨6, 0⟩] 0
      [.visit ⟨6, 0⟩ 0 true, .visit ⟨2, 0⟩ 1 false, .endVisit ⟨2, 0⟩ 2, .visit ⟨5, 0⟩ 2 true,
        .visit ⟨3, 0⟩ 3 false, .endVisit ⟨3, 0⟩ 4, .visit ⟨4, 0⟩ 4 true, .endVisit ⟨4, 0⟩ 5,
        .endVisit ⟨5, 0⟩ 5, .endVisit ⟨6, 0⟩ 5] 5 := by
  obtain ⟨steps, hsteps⟩ : ∃ steps : List Step, steps = [.operate (.number "1"),
    .operate (.number "2"), .operate (.chain none .plus ⟨0, 0⟩ ⟨1, 0⟩), .operate (.number "3"),
    .operate (.number "4"), .operate (.chain none .plus ⟨3, 0⟩ ⟨4, 0⟩),
    .operate (.chain none .times ⟨2, 0⟩ ⟨5, 0⟩)] := ⟨_, rfl⟩
  rw [← hsteps]
  refine ⟨_, rfl, ?_⟩
  obtain ⟨calls, s', htraverses, -, -, hlogged⟩ := (accept_traverses steps ⟨6, 0⟩
    (.ofVisit fun _ _ n => (n % 2 = 0, n + 1)) 0).1 (by rw [hsteps]; rfl)
  refine (htraverses _ _).mpr ?_
  rw [hsteps] at hlogged
  cases hlogged
  exact ⟨rfl, rfl⟩

end Forest

end SyntaxForest
