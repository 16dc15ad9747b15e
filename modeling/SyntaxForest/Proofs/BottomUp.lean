import SyntaxForest.Proofs.Preorder
import SyntaxForest.Proofs.Respecting

/-! # Bottom-up rewriting walks

If all calls of a walk respect the tree below its root, what was changed before is behind the walk:
the nodes that are still to be visited, and those whose visits have not ended, have the owners they
had, and the nodes still to be visited have the children they had (`Keeps.visit`, `Keeps.endVisit`).

So the walk follows the recursive traversal of the tree as it was before the walk (`Follows`), by
induction on the listing of that tree (`follows_of_listing`), and makes the calls that a walk which
only reads the tree makes: `bottom_up_walk_traverses`. -/

namespace SyntaxForest

open Forest

namespace Forest

variable {f₀ f f' f'' : Forest} {root p h x : Handle} {A B C D : Handle → Prop}

/-- Nodes that have their owners among them, up to the root. -/
def Rooted (f₀ : Forest) (root : Handle) (A : Handle → Prop) : Prop :=
  ∀ x, A x → x = root ∨ ∃ y, A y ∧ f₀.owns y x

/-- **What a walk still needs** of the forest `f₀`: the nodes `A` have their owners, and the nodes
`B` their children. -/
structure Keeps (f₀ f : Forest) (A B : Handle → Prop) : Prop where
  owner : ∀ x, A x → f₀.KeepsOwner f x
  children : ∀ x, B x → f₀.KeepsChildren f x

theorem Keeps.mono (hk : f₀.Keeps f A B) (hA : ∀ x, C x → A x) (hB : ∀ x, D x → B x) :
    f₀.Keeps f C D :=
  ⟨fun x hx => hk.owner x (hA x hx), fun x hx => hk.children x (hB x hx)⟩

theorem Keeps.under_root (hk : f₀.Keeps f A B) (hf₀ : f₀.WellFormed) (hr : f₀.Rooted root A) :
    ∀ x, A x → f.Under x root := by
  intro x
  induction x using hf₀.ownership.grounded.induction with
  | _ x ih =>
    intro hx
    rcases hr x hx with rfl | ⟨y, hy, ho⟩
    · exact under_refl f x
    · exact (under_of_owns ((hk.owner x hx).owns_iff.mpr ho)).trans (ih y ho hy)

theorem Keeps.under_before (hk : f₀.Keeps f A B) (hf₀ : f₀.WellFormed) (hf : f.WellFormed)
    (hr : f₀.Rooted root A) (hh : A h) (hx : A x) (hu : f.Under x h) : f₀.Under x h := by
  induction hu using Relation.ReflTransGen.head_induction_on with
  | refl => exact under_refl f₀ h
  | @head x y ho hu ih =>
    have hroot := hu.trans (hk.under_root hf₀ hr h hh)
    rcases hr x hx with rfl | ⟨z, hz, hoz⟩
    -- the root would be under itself
    · exact absurd hroot (hf.ownership.not_under ho)
    · obtain rfl := owner_unique ho ((hk.owner x hx).owns_iff.mpr hoz)
      exact (under_of_owns hoz).trans (ih hz)

/-- **A visit that respects the tree** takes nothing away that the walk needs. -/
theorem Keeps.visit {descend : Bool} (hk : f₀.Keeps f A B) (hf₀ : f₀.WellFormed)
    (hr : f₀.Rooted root A) (hBA : ∀ x, B x → A x)
    (hc : (Call.visit h f descend f').Respects root) : f₀.Keeps f' A B := by
  have hkeeps := fun x hx =>
    hc x (hk.owner x hx).contains (hk.under_root hf₀ hr x hx)
  exact ⟨fun x hx => (hk.owner x hx).trans (hkeeps x hx).1,
    fun x hx => (hk.children x hx).trans (hkeeps x (hBA x hx)).2⟩

/-- **The end of a visit that respects the tree** takes nothing away that the walk needs of the
nodes outside of the tree of the node, but for the children of its owner. -/
theorem Keeps.endVisit (hk : f₀.Keeps f A B) (hf₀ : f₀.WellFormed) (hf : f.WellFormed)
    (hr : f₀.Rooted root A) (hh : A h) (hC : ∀ x, C x → A x ∧ ¬ f₀.Under x h)
    (hD : ∀ x, D x → B x ∧ C x ∧ ¬ f₀.owns x h)
    (hc : (Call.endVisit h f f').Respects root) : f₀.Keeps f' C D := by
  have hkeeps : ∀ x, C x → f.KeepsOwner f' x ∧ (¬ f.owns x h → f.KeepsChildren f' x) := by
    intro x hx
    obtain ⟨hA, hu⟩ := hC x hx
    exact hc x (hk.owner x hA).contains (hk.under_root hf₀ hr x hA)
      fun h => hu (hk.under_before hf₀ hf hr hh hA h)
  refine ⟨fun x hx => (hk.owner x (hC x hx).1).trans (hkeeps x hx).1, fun x hx => ?_⟩
  obtain ⟨hB, hCx, ho⟩ := hD x hx
  have ho' : ¬ f.owns x h := fun hox => ho ((hk.owner h hh).owns_iff.mp hox)
  exact (hk.children x hB).trans ((hkeeps x hCx).2 ho')

/-! ### Nodes around pending children -/

/-- **The nodes around pending children** `hs` of `p`: the nodes `A` reach from `p` up to the root,
and none of them is under a pending child; the nodes `B` are among them, without `p`. -/
structure Around (f₀ : Forest) (root p : Handle) (hs : List Handle) (A B : Handle → Prop) :
    Prop where
  top : A p
  rooted : f₀.Rooted root A
  apart : ∀ x, A x → ∀ h ∈ hs, ¬ f₀.Under x h
  owned : ∀ h ∈ hs, f₀.owns p h
  inner : ∀ x, B x → A x ∧ x ≠ p

namespace Around
variable {hs rest xs below after : List Handle} {l : LiveNode}

theorem tail (ha : f₀.Around root p (h :: rest) A B) : f₀.Around root p rest A B :=
  { ha with
    apart := fun x hx r hr => ha.apart x hx r (List.mem_cons_of_mem _ hr)
    owned := fun r hr => ha.owned r (List.mem_cons_of_mem _ hr) }

/-- With the trees of the pending children the nodes still reach up to the root. -/
theorem rooted_listing (ha : f₀.Around root p hs A B) (hf₀ : f₀.WellFormed)
    (hl : f₀.Listing hs xs) : f₀.Rooted root fun x => A x ∨ x ∈ xs := by
  rintro x (hx | hx)
  · rcases ha.rooted x hx with rfl | ⟨y, hy, ho⟩
    · exact Or.inl rfl
    · exact Or.inr ⟨y, Or.inl hy, ho⟩
  · obtain ⟨h, hh, hu⟩ := (mem_listing hf₀ hl).mp hx
    rcases Relation.ReflTransGen.cases_head hu with rfl | ⟨y, ho, hu⟩
    · exact Or.inr ⟨p, Or.inl ha.top, ha.owned x hh⟩
    · exact Or.inr ⟨y, Or.inr ((mem_listing hf₀ hl).mpr ⟨h, hh, hu⟩), ho⟩

/-- The nodes around, and the trees of the other pending children, are outside of the tree of the
first one. -/
theorem not_under_first (ha : f₀.Around root p (h :: rest) A B) (hf₀ : f₀.WellFormed)
    (hlive : f₀.live? h = some l) (hbelow : f₀.Listing l.node.children below)
    (hnd : (h :: (below ++ after)).Nodup) (x : Handle) (hx : A x ∨ x ∈ after) :
    (A x ∨ x = h ∨ x ∈ after) ∧ ¬ f₀.Under x h := by
  refine ⟨hx.imp_right Or.inr, fun hu => ?_⟩
  obtain ⟨hh, hnd⟩ := List.nodup_cons.mp hnd
  rcases hx with hx | hx
  · exact ha.apart x hx h List.mem_cons_self hu
  · rcases (hf₀.ownership.under_iff hlive (by simp)).mp hu with rfl | hu
    · exact hh (List.mem_append_right below hx)
    · exact (List.nodup_append.mp hnd).2.2 x ((mem_listing hf₀ hbelow).mpr hu) x hx rfl

theorem not_owns_first (ha : f₀.Around root p (h :: rest) A B) (hf₀ : f₀.WellFormed)
    (hafter : f₀.Listing rest after) (x : Handle) (hx : B x ∨ x ∈ after) :
    (B x ∨ x ∈ after) ∧ (A x ∨ x ∈ after) ∧ ¬ f₀.owns x h := by
  refine ⟨hx, hx.imp_left fun hB => (ha.inner x hB).1, fun ho => ?_⟩
  obtain rfl := owner_unique ho (ha.owned h List.mem_cons_self)
  rcases hx with hx | hx
  · exact (ha.inner x hx).2 rfl
  · obtain ⟨r, hr, hu⟩ := (mem_listing hf₀ hafter).mp hx
    exact ha.apart x ha.top r (List.mem_cons_of_mem h hr) hu

/-- **Below the first pending child** the other ones belong to the nodes around. -/
theorem children (ha : f₀.Around root p (h :: rest) A B) (hf₀ : f₀.WellFormed)
    (hlive : f₀.live? h = some l) (hbelow : f₀.Listing l.node.children below)
    (hafter : f₀.Listing rest after) (hnd : (h :: (below ++ after)).Nodup) :
    f₀.Around root h l.node.children (fun x => A x ∨ x = h ∨ x ∈ after)
      (fun x => B x ∨ x ∈ after) := by
  obtain ⟨hh, hnd⟩ := List.nodup_cons.mp hnd
  have hdisjoint := (List.nodup_append.mp hnd).2.2
  have howned := fun c hc => (hf₀.ownership.child (c := c) hlive hc).1
  constructor
  case top => exact Or.inr (Or.inl rfl)
  case rooted =>
    have hrest : ∀ x, A x ∨ x ∈ after → x = root ∨ ∃ y, (A y ∨ y = h ∨ y ∈ after) ∧ f₀.owns y x :=
      fun x hx => (ha.tail.rooted_listing hf₀ hafter x hx).imp_right
        fun ⟨y, hy, ho⟩ => ⟨y, hy.imp_right Or.inr, ho⟩
    rintro x (hx | rfl | hx)
    · exact hrest x (Or.inl hx)
    · exact Or.inr ⟨p, Or.inl ha.top, ha.owned x List.mem_cons_self⟩
    · exact hrest x (Or.inr hx)
  case apart =>
    rintro x (hx | rfl | hx) c hc hu
    · exact ha.apart x hx h List.mem_cons_self (hu.trans (under_of_owns (howned c hc)))
    · exact hf₀.ownership.not_under (howned c hc) hu
    · exact hdisjoint x ((mem_listing hf₀ hbelow).mpr ⟨c, hc, hu⟩) x hx rfl
  case owned => exact howned
  case inner =>
    rintro x (hx | hx)
    · obtain ⟨hA, -⟩ := ha.inner x hx
      refine ⟨Or.inl hA, ?_⟩
      rintro rfl
      exact ha.apart x hA x List.mem_cons_self (under_refl f₀ x)
    · refine ⟨Or.inr (Or.inr hx), ?_⟩
      rintro rfl
      exact hh (List.mem_append_right below hx)

end Around

/-- **The recursive traversal** of the trees below the listed nodes: each is visited, then the
children are walked if the visit says so, and then the visit ends. -/
inductive Traversal (f : Forest) : List Handle → List Mark → Prop
  | nil : Traversal f [] []
  | cons {h : Handle} {descend : Bool} {rest : List Handle} {inner later : List Mark} :
    Traversal f (f.below h descend) inner → Traversal f rest later →
    Traversal f (h :: rest) (.visit h descend :: inner ++ .endVisit h :: later)

end Forest

/-! ### Following the recursion -/

variable {σ : Type} {e : Editor σ} {root p h : Handle} {rest hs xs : List Handle}

namespace Editor

/-- The editor as a visitor: the forest that it changes belongs to its state, and the walk reads
another one. -/
def asVisitor (e : Editor σ) : Visitor (Forest × σ) where
  visit _ h s := e.visit s.1 h s.2
  endVisit _ h s := e.endVisit s.1 h s.2

variable {f₀ f f' : Forest} {s s' : σ} {log : List Call} {descend : Bool}

theorem asVisitor_visit (hv : e.visit f h s = (descend, f', s')) :
    e.logged.asVisitor.visit f₀ h (f, s, log) =
      (descend, f', s', log ++ [.visit h f descend f']) := by
  simp only [asVisitor, logged, hv]

theorem asVisitor_endVisit (hv : e.endVisit f h s = (f', s')) :
    e.logged.asVisitor.endVisit f₀ h (f, s, log) = (f', s', log ++ [.endVisit h f f']) := by
  simp only [asVisitor, logged, hv]

end Editor

/-- **The walk follows the recursion** at the pending children `hs` of `p`: from the forest `f` and
the state `s` it comes to their end with `f'` and `s'`, has made the calls of the recursive
traversal in `f₀`, and has done what the editor as a visitor does there. -/
structure Follows (e : Editor σ) (f₀ : Forest) (p : Handle) (hs : List Handle) (f : Forest)
    (s : σ × List Call) (f' : Forest) (s' : σ × List Call) (k : Nat) : Prop where
  reaches : ∀ frames, ∃ n, EditingWalk.run e.logged n ⟨⟨p, hs⟩ :: frames, f, s⟩ =
    ⟨⟨p, []⟩ :: frames, f', s'⟩
  traverses : ∃ marks, f₀.Traversal hs marks ∧ s'.2.map Call.mark = s.2.map Call.mark ++ marks
  walks : ∃ n ≤ 2 * k, e.logged.asVisitor.Walks f₀ hs (f, s) (f', s') n

namespace Follows

variable {f₀ f f₁ f₂ f₃ f₄ : Forest} {s s₁ s₂ s₃ : σ} {s₄ : σ × List Call} {log log₂ : List Call}
  {descend : Bool} {k k' : Nat}

theorem nil (e : Editor σ) (f₀ : Forest) (p : Handle) (f : Forest) (s : σ × List Call) (k : Nat) :
    Follows e f₀ p [] f s f s k where
  reaches _ := ⟨0, rfl⟩
  traverses := ⟨[], .nil, by simp⟩
  walks := ⟨0, Nat.zero_le _, .nil⟩

/-- **One child after another**: a visit, the children below, the end of the visit, the rest. -/
theorem cons (ho : f.owns p h) (hv : e.visit f h s = (descend, f₁, s₁))
    (hb : f₁.below h descend = f₀.below h descend)
    (hin : Follows e f₀ h (f₀.below h descend) f₁ (s₁, log ++ [.visit h f descend f₁]) f₂
      (s₂, log₂) k)
    (hend : e.endVisit f₂ h s₂ = (f₃, s₃))
    (hrest : Follows e f₀ p rest f₃ (s₃, log₂ ++ [.endVisit h f₂ f₃]) f₄ s₄ k') :
    Follows e f₀ p (h :: rest) f (s, log) f₄ s₄ (k + k' + 1) where
  reaches frames := by
    obtain ⟨m, hm⟩ := hin.reaches (⟨p, rest⟩ :: frames)
    obtain ⟨n, hn⟩ := hrest.reaches frames
    have hfirst : EditingWalk.run e.logged 1 ⟨⟨p, h :: rest⟩ :: frames, f, s, log⟩ =
        ⟨⟨h, f₀.below h descend⟩ :: ⟨p, rest⟩ :: frames, f₁, s₁,
          log ++ [.visit h f descend f₁]⟩ := by
      rw [← hb]; exact EditingWalk.step_visit ho hv
    have hlast : EditingWalk.run e.logged 1 ⟨⟨h, []⟩ :: ⟨p, rest⟩ :: frames, f₂, s₂, log₂⟩ =
        ⟨⟨p, rest⟩ :: frames, f₃, s₃, log₂ ++ [.endVisit h f₂ f₃]⟩ :=
      EditingWalk.step_endVisit hend
    refine ⟨1 + m + 1 + n, ?_⟩
    rw [EditingWalk.run_add, EditingWalk.run_add, EditingWalk.run_add, hfirst, hm, hlast, hn]
  traverses := by
    obtain ⟨inner, hinner, he⟩ := hin.traverses
    obtain ⟨later, hlater, he'⟩ := hrest.traverses
    refine ⟨_, .cons hinner hlater, ?_⟩
    simp only [List.map_append, List.map_cons, List.map_nil, Call.mark] at he he'
    simp [he', he]
  walks := by
    obtain ⟨m, hm, hw⟩ := hin.walks
    obtain ⟨n, hn, hw'⟩ := hrest.walks
    rw [← Editor.asVisitor_endVisit hend] at hw'
    exact ⟨m + n + 2, by omega, .cons (Editor.asVisitor_visit hv) hw hw'⟩

end Follows

/-- All calls from a walk on respect the tree below the root. -/
def RespectsFrom (e : Editor σ) (root : Handle) (w : EditingWalk (σ × List Call)) : Prop :=
  ∀ n, ∀ call ∈ (w.run e.logged n).state.2, call.Respects root

theorem RespectsFrom.after {w : EditingWalk (σ × List Call)} (hr : RespectsFrom e root w) {n : Nat}
    {w' : EditingWalk (σ × List Call)} (hw : w.run e.logged n = w') : RespectsFrom e root w' :=
  fun m => by rw [← hw, ← EditingWalk.run_add]; exact hr (n + m)

/-- Below a node the walk follows the recursion if it does so when the visit answers to descend. -/
theorem follows_below {f₀ f : Forest} {s : σ × List Call} {A B : Handle → Prop} {l : LiveNode}
    {k : Nat} (descend : Bool) (hlive : f₀.live? h = some l) (hf : f.WellFormed)
    (hk : f₀.Keeps f A B) (hin : f₀.below h descend = l.node.children → ∃ f' s',
      Follows e f₀ h l.node.children f s f' s' k ∧ f'.WellFormed ∧ f₀.Keeps f' A B) :
    ∃ f' s', Follows e f₀ h (f₀.below h descend) f s f' s' k ∧ f'.WellFormed ∧ f₀.Keeps f' A B := by
  cases descend with
  | false => exact ⟨f, s, .nil e f₀ h f s k, hf, hk⟩
  | true =>
    have hchildren : f₀.below h true = l.node.children := by simp [below, hlive]
    rw [hchildren] at hin ⊢
    exact hin rfl

/-- **A walk whose calls respect the tree follows the recursion**, by induction on the listing of
the trees of the pending children. -/
theorem follows_of_listing (he : e.Operates) {f₀ : Forest} (hf₀ : f₀.WellFormed)
    (hl : f₀.Listing hs xs) : ∀ {p : Handle} {A B : Handle → Prop} {frames : List Frame}
      {f : Forest} {s : σ} {log : List Call}, xs.Nodup → f₀.Around root p hs A B → f.WellFormed →
      f₀.Keeps f (fun x => A x ∨ x ∈ xs) (fun x => B x ∨ x ∈ xs) →
      RespectsFrom e root ⟨⟨p, hs⟩ :: frames, f, s, log⟩ →
      ∃ f' s', Follows e f₀ p hs f (s, log) f' s' xs.length ∧ f'.WellFormed ∧ f₀.Keeps f' A B := by
  induction hl with
  | nil =>
    intro p A B frames f s log _ _ hf hk _
    exact ⟨f, (s, log), .nil e f₀ p f (s, log) 0, hf, hk.mono (fun _ => Or.inl) fun _ => Or.inl⟩
  | @cons h l rest below after hlive hbelow hafter ih₁ ih₂ =>
    intro p A B frames f s log hnd ha hf hk hresp
    have hlisting := Forest.Listing.cons hlive hbelow hafter
    have hchildren := ha.children hf₀ hlive hbelow hafter hnd
    obtain ⟨hndb, hnda, -⟩ := List.nodup_append.mp (List.nodup_cons.mp hnd).2
    -- the visit of `h`
    have ho : f.owns p h :=
      (hk.owner h (Or.inr List.mem_cons_self)).owns_iff.mpr (ha.owned h List.mem_cons_self)
    rcases hv : e.visit f h s with ⟨descend, f₁, s₁⟩
    have hfirst : EditingWalk.run e.logged 1 ⟨⟨p, h :: rest⟩ :: frames, f, s, log⟩ = _ :=
      EditingWalk.step_visit ho hv
    have hresp₁ := hresp.after hfirst
    obtain ⟨steps, hsteps⟩ := he.run_of_visit hv
    have hf₁ : f₁.WellFormed := hsteps ▸ wellFormed_run steps hf
    have hk₁ := hk.visit hf₀ (ha.rooted_listing hf₀ hlisting)
      (fun x hx => hx.imp_left fun hB => (ha.inner x hB).1)
      (hresp₁ 0 (.visit h f descend f₁) (by simp [EditingWalk.run]))
    have hb := (hk₁.children h (Or.inr List.mem_cons_self)).below_eq descend
    rw [hb] at hresp₁
    -- the children of `h`
    obtain ⟨f₂, ⟨s₂, log₂⟩, hfollow, hf₂, hk₂⟩ := follows_below (e := e)
      (A := fun x => A x ∨ x = h ∨ x ∈ after) (B := fun x => B x ∨ x ∈ after) descend hlive hf₁
      (hk₁.mono (fun x hx => by rcases hx with hx | rfl | hx <;> simp [*])
        fun x hx => by rcases hx with hx | hx <;> simp [*])
      fun heq => ih₁ hndb hchildren hf₁
        (hk₁.mono (fun x hx => by rcases hx with (hx | rfl | hx) | hx <;> simp [*])
          fun x hx => by rcases hx with (hx | hx) | hx <;> simp [*])
        (heq ▸ hresp₁)
    obtain ⟨m, hm⟩ := hfollow.reaches (⟨p, rest⟩ :: frames)
    -- the end of the visit of `h`
    rcases hend : e.endVisit f₂ h s₂ with ⟨f₃, s₃⟩
    have hlast : EditingWalk.run e.logged 1 ⟨⟨h, []⟩ :: ⟨p, rest⟩ :: frames, f₂, s₂, log₂⟩ = _ :=
      EditingWalk.step_endVisit hend
    have hresp₃ := (hresp₁.after hm).after hlast
    obtain ⟨steps', hsteps'⟩ := he.run_of_endVisit hend
    have hf₃ : f₃.WellFormed := hsteps' ▸ wellFormed_run steps' hf₂
    have hk₃ := hk₂.endVisit hf₀ hf₂ hchildren.rooted (Or.inr (Or.inl rfl))
      (ha.not_under_first hf₀ hlive hbelow hnd) (ha.not_owns_first hf₀ hafter)
      (hresp₃ 0 (.endVisit h f₂ f₃) (by simp [EditingWalk.run]))
    -- the other children of `p`
    obtain ⟨f₄, s₄, hfollow', hf₄, hk₄⟩ := ih₂ hnda ha.tail hf₃ hk₃ hresp₃
    have hlength : (h :: (below ++ after)).length = below.length + after.length + 1 := by simp
    exact ⟨f₄, s₄, hlength ▸ .cons ho hv hb hfollow hend hfollow', hf₄, hk₄⟩

/-! ### Walks in a run -/

namespace Forest

/-- **Bottom-up rewriting walks see the tree as it was**, in every forest that a run reaches. If all
calls of an editor that operates respect the tree below the root, the walk comes to an end, and the
calls made are those of the recursive traversal of the tree before the walk, with the same answers:
walking that tree with the editor as a visitor leads to the same forest, state and calls. -/
theorem bottom_up_walk_traverses (steps : List Step) {root : Handle}
    (hr : (empty.run steps).contains root) {e : Editor σ} (he : e.Operates) (s : σ)
    (hcalls : ∀ w, EditingWalk.start e.logged root (empty.run steps) (s, []) = .ok w →
      ∀ n, ∀ call ∈ (w.run e.logged n).state.2, call.Respects root) :
    ∃ w n, EditingWalk.start e.logged root (empty.run steps) (s, []) = .ok w ∧
      (w.run e.logged n).isFinished ∧
      (empty.run steps).Traversal [root] ((w.run e.logged n).state.2.map Call.mark) ∧
      (empty.run steps).accept root e.logged.asVisitor (empty.run steps, s, []) =
        .ok ((w.run e.logged n).forest, (w.run e.logged n).state) := by
  have hf₀ := wellFormed_run steps wellFormed_empty
  generalize empty.run steps = f₀ at *
  obtain ⟨l, hlive⟩ := contains_iff.mp hr
  have howned := fun c hc => (hf₀.ownership.child (c := c) hlive hc).1
  obtain ⟨below, hbelow⟩ : ∃ below, f₀.Listing l.node.children below :=
    exists_listing hf₀ fun c hc => contains_of_owns (howned c hc)
  have hlisting : f₀.Listing [root] (root :: (below ++ [])) := .cons hlive hbelow .nil
  rw [List.append_nil] at hlisting
  have hnd := nodup_preorder hf₀ hlisting
  -- around the children of the root there is the root alone
  have ha : f₀.Around root root l.node.children (fun x => x = root) fun _ => False :=
    ⟨rfl, fun _ => Or.inl, fun x hx c hc => hx ▸ hf₀.ownership.not_under (howned c hc), howned,
      fun _ => False.elim⟩
  have hk : f₀.Keeps f₀ (fun x => x = root ∨ x ∈ below) fun x => x = root ∨ x ∈ below :=
    ⟨fun x hx => keepsOwner_of_eq (hlisting.live x (List.mem_cons.mpr hx)) rfl,
      fun x hx => keepsChildren_of_eq (hlisting.live x (List.mem_cons.mpr hx)) rfl⟩
  -- the visit of the root
  have hstart := EditingWalk.start_eq_ok e.logged hr (s, [])
  rcases hv : e.visit f₀ root s with ⟨descend, f₁, s₁⟩
  rw [EditingWalk.enter_logged hv, List.nil_append] at hstart
  have hresp : RespectsFrom e root _ := hcalls _ hstart
  obtain ⟨steps', hsteps'⟩ := he.run_of_visit hv
  have hf₁ : f₁.WellFormed := hsteps' ▸ wellFormed_run steps' hf₀
  have hk₁ := hk.visit hf₀ (ha.rooted_listing hf₀ hbelow) (fun _ => id)
    (hresp 0 (.visit root f₀ descend f₁) (by simp [EditingWalk.run]))
  rw [(hk₁.children root (Or.inl rfl)).below_eq descend] at hresp hstart
  -- the children of the root
  obtain ⟨f₂, ⟨s₂, log₂⟩, hfollow, hf₂, -⟩ := follows_below (e := e) (A := fun x => x = root)
    (B := fun _ => False) descend hlive hf₁ (hk₁.mono (fun _ => Or.inl) fun _ => False.elim)
    fun heq => follows_of_listing he hf₀ hbelow (List.nodup_cons.mp hnd).2 ha hf₁
      (hk₁.mono (fun _ => id) fun x hx => hx.elim False.elim Or.inr) (heq ▸ hresp)
  obtain ⟨m, hm⟩ := hfollow.reaches []
  obtain ⟨marks, hmarks, he⟩ := hfollow.traverses
  obtain ⟨n, hn, hwalks⟩ := hfollow.walks
  -- the end of the visit of the root
  rcases hend : e.endVisit f₂ root s₂ with ⟨f₃, s₃⟩
  have hlast : EditingWalk.run e.logged 1 ⟨[⟨root, []⟩], f₂, s₂, log₂⟩ =
      ⟨[], f₃, s₃, log₂ ++ [.endVisit root f₂ f₃]⟩ := EditingWalk.step_endVisit hend
  refine ⟨_, m + 1, hstart, ?_⟩
  rw [EditingWalk.run_add, hm, hlast]
  refine ⟨rfl, ?_, ?_⟩
  · have hmap : (log₂ ++ [Call.endVisit root f₂ f₃]).map Call.mark =
        .visit root descend :: marks ++ .endVisit root :: [] := by
      simp only [List.map_append, he]
      rfl
    rw [hmap]
    exact .cons hmarks .nil
  · have hsize := length_le_size hnd hlisting.live
    rw [List.length_cons] at hsize
    have hvisit : e.logged.asVisitor.visit f₀ root (f₀, s, []) =
        (descend, f₁, s₁, [.visit root f₀ descend f₁]) := Editor.asVisitor_visit hv
    have hall := Visitor.Walks.cons hvisit hwalks .nil
    rw [Editor.asVisitor_endVisit hend] at hall
    exact hall.accept_eq hr (by omega)

/-- In `(1 + 2)` an editor puts the number `3` for the sum when the visit of the sum ends, and
discards the sum: the walk goes through all nodes that were there, and not through the new one. -/
theorem bottom_up_walk_traverses_fold : ∃ (e : Editor Unit) (w : EditingWalk (Unit × List Call)),
    (e = .stepping (fun _ => []) fun h => if h = ⟨2, 0⟩ then [.operate (.number "3"),
      .operate (.replace ⟨2, 0⟩ ⟨4, 0⟩), .operate (.discard ⟨2, 0⟩)] else []) ∧
    EditingWalk.start e.logged ⟨3, 0⟩ (empty.run [.operate (.number "1"), .operate (.number "2"),
      .operate (.chain none .plus ⟨0, 0⟩ ⟨1, 0⟩), .operate (.parenthesized ⟨2, 0⟩)])
      ((), []) = .ok w ∧
    (w.run e.logged 7).isFinished ∧ (w.run e.logged 7).forest.children ⟨3, 0⟩ = .ok [⟨4, 0⟩] ∧
    (w.run e.logged 7).state.2.map Call.mark =
      [.visit ⟨3, 0⟩ true, .visit ⟨2, 0⟩ true, .visit ⟨0, 0⟩ true, .endVisit ⟨0, 0⟩,
        .visit ⟨1, 0⟩ true, .endVisit ⟨1, 0⟩, .endVisit ⟨2, 0⟩, .endVisit ⟨3, 0⟩] ∧
    (empty.run [.operate (.number "1"), .operate (.number "2"),
      .operate (.chain none .plus ⟨0, 0⟩ ⟨1, 0⟩), .operate (.parenthesized ⟨2, 0⟩)]).Traversal
      [⟨3, 0⟩] ((w.run e.logged 7).state.2.map Call.mark) := by
  obtain ⟨e, he⟩ : ∃ e : Editor Unit, e = .stepping (fun _ => []) fun h => if h = ⟨2, 0⟩ then
    [.operate (.number "3"), .operate (.replace ⟨2, 0⟩ ⟨4, 0⟩), .operate (.discard ⟨2, 0⟩)]
    else [] := ⟨_, rfl⟩
  obtain ⟨steps, hsteps⟩ : ∃ steps : List Step, steps = [.operate (.number "1"),
    .operate (.number "2"), .operate (.chain none .plus ⟨0, 0⟩ ⟨1, 0⟩),
    .operate (.parenthesized ⟨2, 0⟩)] := ⟨_, rfl⟩
  rw [← hsteps]
  have hf := wellFormed_run steps wellFormed_empty
  have hroot : (empty.run steps).contains ⟨3, 0⟩ := by rw [hsteps]; rfl
  have hstart := EditingWalk.start_eq_ok e.logged hroot ((), [])
  have hfinished : ((EditingWalk.enter e.logged ⟨3, 0⟩ [] (empty.run steps) ((), [])).run
      e.logged 7).isFinished := by rw [he, hsteps]; decide +kernel
  -- the forests after the new number, after the replacement and after the discarding
  obtain ⟨f₁, hf₁⟩ : ∃ f₁, f₁ = (empty.run steps).store { payload := .number "3" } := ⟨_, rfl⟩
  obtain ⟨f₂, hreplace, hf₂⟩ : ∃ f₂, Edit.replace ⟨2, 0⟩ ⟨4, 0⟩ f₁ = .ok () f₂ ∧
      f₂ = (empty.run steps).run [.operate (.number "3"), .operate (.replace ⟨2, 0⟩ ⟨4, 0⟩)] := by
    rw [hf₁, hsteps]; exact ⟨_, rfl, rfl⟩
  have hcalls : ((EditingWalk.enter e.logged ⟨3, 0⟩ [] (empty.run steps) ((), [])).run
      e.logged 7).state.2 =
      [.visit ⟨3, 0⟩ (empty.run steps) true (empty.run steps),
        .visit ⟨2, 0⟩ (empty.run steps) true (empty.run steps),
        .visit ⟨0, 0⟩ (empty.run steps) true (empty.run steps),
        .endVisit ⟨0, 0⟩ (empty.run steps) (empty.run steps),
        .visit ⟨1, 0⟩ (empty.run steps) true (empty.run steps),
        .endVisit ⟨1, 0⟩ (empty.run steps) (empty.run steps),
        .endVisit ⟨2, 0⟩ (empty.run steps) (f₂.freeSubtrees [⟨2, 0⟩]),
        .endVisit ⟨3, 0⟩ (f₂.freeSubtrees [⟨2, 0⟩]) (f₂.freeSubtrees [⟨2, 0⟩])] := by
    rw [hf₂, he, hsteps]; decide +kernel
  have hfold : (Call.endVisit ⟨2, 0⟩ (empty.run steps) (f₂.freeSubtrees [⟨2, 0⟩])).Respects
      ⟨3, 0⟩ := by
    have hs : (empty.run steps).Storable { payload := .number "3" } :=
      storable_leaf rfl fun _ => rfl
    have hgrow : (empty.run steps).Grows f₁ [(empty.run steps).nextHandle] := by
      rw [hf₁]; exact Grows.store (.refl (empty.run steps)) hf hs
    obtain ⟨m, hm⟩ : ∃ m, (empty.run steps).live? ⟨3, 0⟩ = some ⟨m, none⟩ := by
      rw [hsteps]; exact ⟨_, rfl⟩
    exact Call.respects_fold hf hgrow (hf₁ ▸ hf.store hs) hm (under_of_owns (by rw [hsteps]; rfl))
      (by decide) hreplace
  obtain ⟨w, n, hw, hn, htraversal, -⟩ := bottom_up_walk_traverses steps hroot
    (he ▸ Editor.operates_stepping _ _) () fun w hw n call hc => by
      cases hstart.symm.trans hw
      have hmem := EditingWalk.mem_calls_of_finished hfinished hc
      rw [hcalls] at hmem
      simp only [List.mem_cons, List.not_mem_nil, or_false] at hmem
      rcases hmem with rfl | rfl | rfl | rfl | rfl | rfl | rfl | rfl
      · exact Call.respects_visit_of_idle _ _ _
      · exact Call.respects_visit_of_idle _ _ _
      · exact Call.respects_visit_of_idle _ _ _
      · exact Call.respects_endVisit_of_idle _ _
      · exact Call.respects_visit_of_idle _ _ _
      · exact Call.respects_endVisit_of_idle _ _
      · exact hfold
      · exact Call.respects_endVisit_of_idle _ _
  cases hstart.symm.trans hw
  rw [EditingWalk.run_eq_of_finished e.logged hn hfinished] at htraversal
  refine ⟨e, _, he, hstart, hfinished, ?_, by rw [hcalls]; rfl, htraversal⟩
  rw [he, hsteps]; decide +kernel

end Forest

end SyntaxForest
