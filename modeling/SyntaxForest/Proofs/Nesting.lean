import SyntaxForest.Proofs.Calls

/-! # Rewriting walks are nested

What the calls of one visit of a node are, is a grammar (`Visits`): the visit itself, then the turns
of the children that the node has when its visit answers, and at last the end of the visit. At the
turn of a child the child is either skipped or visited (`Turns`): it is skipped if it is not owned
by the node at that time, and visited if it is, and then it is still the node that was a child, and
not a later one in the same entry (`SameNode`).

The stack of a walk says how its calls can go on (`Unwinds`). A step makes a call, or skips a child,
in such a way that what goes on after the step goes on before it (`Nested.step`). So at every time
the calls made are the beginning of one visit of the root, and all of one when the walk is finished:
`rewriting_walk_nested`. -/

namespace SyntaxForest

open Forest

/-- **The same node at two times**: its handle is live at both, and its entry was not emptied
between. -/
def SameNode (g f : Forest) (h : Handle) : Prop :=
  g.contains h ∧ f.contains h ∧ ∃ e e', g.entries[h.index]? = some e ∧
    f.entries[h.index]? = some e' ∧ e.emptied = e'.emptied

mutual

/-- **The calls of one visit**, from the forest before the visit to the one after its end. -/
inductive Visits : Handle → Forest → List Call → Forest → Prop
  | intro {h : Handle} {f g k f' : Forest} {descend : Bool} {inner : List Call} :
    (g.below h descend).Nodup → Turns h g (g.below h descend) g inner k →
    Visits h f (.visit h f descend g :: (inner ++ [.endVisit h k f'])) f'

/-- **The turns of children** of a node, which it had in the forest `g` when its visit answered:
from the forest before the first turn to the one after the last. -/
inductive Turns : Handle → Forest → List Handle → Forest → List Call → Forest → Prop
  | nil {p : Handle} {g f : Forest} : Turns p g [] f [] f
  | skip {p c : Handle} {g f f' : Forest} {rest : List Handle} {calls : List Call} :
    ¬ f.owns p c → Turns p g rest f calls f' → Turns p g (c :: rest) f calls f'
  | visit {p c : Handle} {g f k f' : Forest} {rest : List Handle} {inner calls : List Call} :
    f.owns p c → SameNode g f c → Visits c f inner k → Turns p g rest k calls f' →
    Turns p g (c :: rest) f (inner ++ calls) f'

end

/-- **How a walk goes on** from its stack: the turns of the children that are pending in the top
frame, the end of its visit, and so on for the frames below. Each frame stands with the forest in
which its visit answered. -/
inductive Unwinds : List (Frame × Forest) → Forest → List Call → Forest → Prop
  | nil {f : Forest} : Unwinds [] f [] f
  | cons {h : Handle} {pending : List Handle} {g f k k' f' : Forest}
    {frames : List (Frame × Forest)} {inner calls : List Call} :
    Turns h g pending f inner k → Unwinds frames k' calls f' →
    Unwinds ((⟨h, pending⟩, g) :: frames) f (inner ++ .endVisit h k k' :: calls) f'

namespace Forest

variable {f g : Forest}

instance (f : Forest) : Decidable f.Unwrapped :=
  inferInstanceAs (Decidable (∀ e ∈ f.entries, e.emptied < UInt32.size))

theorem sameNode_of_older (ho : g.Older f) (hu : f.Unwrapped) {c : Handle} (hg : g.contains c)
    (hf : f.contains c) : SameNode g f c := by
  obtain ⟨e, he, hcount, -⟩ := (ho.unwrapped hu).entry hg
  obtain ⟨e', he', hcount', -⟩ := hu.entry hf
  exact ⟨hg, hf, e, e', he, he', hcount.trans hcount'.symm⟩

theorem nodup_below (hf : f.WellFormed) (h : Handle) (descend : Bool) :
    (f.below h descend).Nodup := by
  unfold below
  split_ifs
  · cases hl : f.live? h with
    | none => exact List.nodup_nil
    | some l => exact hf.ownership.nodup hl
  · exact List.nodup_nil

theorem contains_of_mem_below (hf : f.WellFormed) {h c : Handle} {descend : Bool}
    (hc : c ∈ f.below h descend) : f.contains c := by
  unfold below at hc
  split_ifs at hc
  · cases hl : f.live? h with
    | none => simp [hl] at hc
    | some l =>
      rw [hl] at hc
      exact contains_of_owns (hf.ownership.child hl hc).1
  · simp at hc

end Forest

/-! ### Going on to the end -/

/-- Pending children that were live once can all have their turns. -/
theorem exists_turns {p : Handle} {g f : Forest} (ho : g.Older f) (hu : f.Unwrapped) :
    ∀ {pending : List Handle}, (∀ c ∈ pending, g.contains c) →
      ∃ calls, Turns p g pending f calls f
  | [], _ => ⟨[], .nil⟩
  | c :: pending, hg => by
    obtain ⟨calls, hcalls⟩ := exists_turns ho hu (List.forall_mem_cons.mp hg).2
    by_cases hc : f.owns p c
    -- a visit that changes nothing and does not descend
    · have hvisit : Visits c f (.visit c f false f :: ([] ++ [.endVisit c f f])) f :=
        .intro List.nodup_nil .nil
      have hsame := sameNode_of_older ho hu (hg c List.mem_cons_self) (contains_of_owns hc)
      exact ⟨_, .visit hc hsame hvisit hcalls⟩
    · exact ⟨calls, .skip hc hcalls⟩

/-- **A stack of frames whose pending children were live when their visits answered.** -/
def Pended (frames : List (Frame × Forest)) (f : Forest) : Prop :=
  ∀ t ∈ frames, t.2.Older f ∧ ∀ c ∈ t.1.pending, t.2.contains c

theorem Pended.mono {frames : List (Frame × Forest)} {f f' : Forest} (hp : Pended frames f)
    (ho : f.Older f') : Pended frames f' := fun t ht => ⟨(hp t ht).1.trans ho, (hp t ht).2⟩

theorem exists_unwinds {f : Forest} (hu : f.Unwrapped) : ∀ {frames : List (Frame × Forest)},
    Pended frames f → ∃ calls, Unwinds frames f calls f
  | [], _ => ⟨[], .nil⟩
  | (⟨h, pending⟩, g) :: frames, hp => by
    obtain ⟨⟨ho, hg⟩, hrest⟩ := List.forall_mem_cons.mp hp
    obtain ⟨inner, hinner⟩ := exists_turns (p := h) ho hu hg
    obtain ⟨calls, hcalls⟩ := exists_unwinds hu hrest
    exact ⟨_, .cons hinner hcalls⟩

/-! ### Steps -/

/-- **A walk is nested** in the visit of its root that began on `f₀`: whatever its stack goes on
with makes, after the calls that are listed, the calls of that visit. -/
structure Nested {σ : Type} (root : Handle) (f₀ : Forest) (w : EditingWalk (σ × List Call))
    (stack : List (Frame × Forest)) : Prop where
  frames : w.frames = stack.map Prod.fst
  wellFormed : w.forest.WellFormed
  pended : Pended stack w.forest
  goesOn : ∀ {calls f'}, Unwinds stack w.forest calls f' → Visits root f₀ (w.state.2 ++ calls) f'

variable {σ : Type} {e : Editor σ} {root : Handle} {f₀ : Forest}

theorem Pended.enter {f : Forest} {stack : List (Frame × Forest)} (hp : Pended stack f)
    (hf : f.WellFormed) (h : Handle) (descend : Bool) :
    Pended ((⟨h, f.below h descend⟩, f) :: stack) f :=
  List.forall_mem_cons.mpr ⟨⟨.refl f, fun _ hc => contains_of_mem_below hf hc⟩, hp⟩

theorem nested_enter (root : Handle) (he : e.Operates) (hf : f₀.WellFormed) (s : σ) :
    ∃ stack, Nested root f₀ (EditingWalk.enter e.logged root [] f₀ (s, [])) stack := by
  rcases hv : e.visit f₀ root s with ⟨d, f₁, s₁⟩
  obtain ⟨steps, hsteps⟩ := he.run_of_visit hv
  have hf₁ : f₁.WellFormed := hsteps ▸ wellFormed_run steps hf
  have hempty : Pended [] f₁ := by simp [Pended]
  rw [EditingWalk.enter_logged hv]
  refine ⟨[(⟨root, f₁.below root d⟩, f₁)], rfl, hf₁, hempty.enter hf₁ root d, fun hc => ?_⟩
  cases hc with
  | cons hturns hnil =>
    cases hnil
    exact .intro (nodup_below hf₁ root d) hturns

/-- **A step of a nested walk**: what its stack goes on with after the step, it goes on with before,
with the call of the step in front. -/
theorem Nested.step {w : EditingWalk (σ × List Call)} {stack : List (Frame × Forest)}
    (hn : Nested root f₀ w stack) (he : e.Operates) (hu : w.forest.Unwrapped) :
    ∃ stack', Nested root f₀ (EditingWalk.step e.logged w) stack' := by
  obtain ⟨frames, f, s, log⟩ := w
  obtain ⟨rfl : frames = stack.map Prod.fst, hf, hp, hgo⟩ := hn
  match stack with
  | [] => exact ⟨[], rfl, hf, hp, hgo⟩
  | (⟨h, []⟩, g) :: stack =>
    rcases hv : e.endVisit f h s with ⟨f₁, s₁⟩
    obtain ⟨steps, rfl⟩ := he.run_of_endVisit hv
    have hrest := (List.forall_mem_cons.mp hp).2
    rw [List.map_cons, EditingWalk.step_endVisit hv]
    refine ⟨stack, rfl, wellFormed_run steps hf, .mono hrest (older_run steps f), fun hc => ?_⟩
    rw [List.append_assoc]
    exact hgo (.cons .nil hc)
  | (⟨h, c :: pending⟩, g) :: stack =>
    obtain ⟨⟨ho, hg⟩, hrest⟩ := List.forall_mem_cons.mp hp
    have hpended : Pended ((⟨h, pending⟩, g) :: stack) f :=
      List.forall_mem_cons.mpr ⟨⟨ho, fun k hk => hg k (List.mem_cons_of_mem _ hk)⟩, hrest⟩
    by_cases hc : f.owns h c
    · rcases hv : e.visit f c s with ⟨d, f₁, s₁⟩
      obtain ⟨steps, hsteps⟩ := he.run_of_visit hv
      have hf₁ : f₁.WellFormed := hsteps ▸ wellFormed_run steps hf
      have holder : f.Older f₁ := hsteps ▸ older_run steps f
      have hsame := sameNode_of_older ho hu (hg c List.mem_cons_self) (contains_of_owns hc)
      rw [List.map_cons, EditingWalk.step_visit hc hv]
      refine ⟨(⟨c, f₁.below c d⟩, f₁) :: (⟨h, pending⟩, g) :: stack, rfl, hf₁,
        (hpended.mono holder).enter hf₁ c d, fun hcalls => ?_⟩
      -- the end of the visit of `c`, and then the other turns below `h`, come later
      cases hcalls with
      | @cons _ _ _ _ _ k' _ _ inner _ hinner hcalls =>
        cases hcalls with
        | cons hturns hcalls =>
          have hvisit : Visits c f _ k' := .intro (nodup_below hf₁ c d) hinner
          have hunwinds := hgo (.cons (.visit hc hsame hvisit hturns) hcalls)
          simpa using hunwinds
    · rw [List.map_cons, EditingWalk.step_skip hc]
      refine ⟨(⟨h, pending⟩, g) :: stack, rfl, hf, hpended, fun hcalls => ?_⟩
      cases hcalls with
      | cons hturns hcalls => exact hgo (.cons (.skip hc hturns) hcalls)

theorem Nested.run (he : e.Operates) : ∀ (n : Nat) {w : EditingWalk (σ × List Call)}
    {stack : List (Frame × Forest)}, Nested root f₀ w stack →
    (EditingWalk.run e.logged n w).forest.Unwrapped →
    ∃ stack', Nested root f₀ (EditingWalk.run e.logged n w) stack'
  | 0, _, stack, hn, _ => ⟨stack, hn⟩
  | n + 1, w, stack, hn, hu => by
    have holder := EditingWalk.older_of_run he.logged (n + 1) w
    obtain ⟨stack', hn'⟩ := hn.step he (holder.unwrapped hu)
    rw [EditingWalk.run] at hu ⊢
    split_ifs at hu ⊢
    · exact ⟨stack, hn⟩
    · exact Nested.run he n hn' hu

/-! ### Walks in a run -/

namespace Forest

/-- **Rewriting walks are nested**, in every forest that a run reaches, and for every editor that
makes of each call any operations. After any number of steps, the calls made so far are the
beginning of those of one visit of the root, and all of them when the walk is finished. (No index
was freed `2 ^ 32` times.) -/
theorem rewriting_walk_nested (steps : List Step) {root : Handle}
    (hr : (empty.run steps).contains root) {e : Editor σ} (he : e.Operates) (s : σ) :
    ∃ w, EditingWalk.start e.logged root (empty.run steps) (s, []) = .ok w ∧
      EditingWalk.start e root (empty.run steps) s = .ok w.unlogged ∧
      ∀ n, (w.run e.logged n).unlogged = w.unlogged.run e n ∧
        ((w.run e.logged n).forest.Unwrapped →
          (∃ more f', Visits root (empty.run steps) ((w.run e.logged n).state.2 ++ more) f') ∧
          ((w.run e.logged n).isFinished → Visits root (empty.run steps)
            (w.run e.logged n).state.2 (w.run e.logged n).forest)) := by
  have hf := wellFormed_run steps wellFormed_empty
  refine ⟨_, EditingWalk.start_eq_ok e.logged hr (s, []), EditingWalk.start_eq_ok e hr s,
    fun n => ⟨EditingWalk.unlogged_run e n _, fun hu => ?_⟩⟩
  obtain ⟨stack, hn⟩ := nested_enter root he hf s
  obtain ⟨stack, hn⟩ := hn.run he n hu
  refine ⟨?_, fun hfinished => ?_⟩
  · obtain ⟨calls, hcalls⟩ := exists_unwinds hu hn.pended
    exact ⟨calls, _, hn.goesOn hcalls⟩
  · have hframes := hn.frames
    rw [List.isEmpty_iff.mp hfinished] at hframes
    obtain rfl := List.map_eq_nil_iff.mp hframes.symm
    simpa using hn.goesOn .nil

/-- In `1 + 2 + 3` an editor discards the last operand when it visits the first one, and makes a new
node in its entry: the last operand is skipped, and the new node is not visited. -/
theorem rewriting_walk_nested_discard : ∃ (e : Editor Unit) (w : EditingWalk (Unit × List Call)),
    (e = .stepping (fun h => if h = ⟨0, 0⟩ then [.operate (.remove ⟨2, 0⟩ .extendedOperands 0),
      .operate (.discard ⟨3, 0⟩), .operate (.number "4")] else []) fun _ => []) ∧
    EditingWalk.start e.logged ⟨2, 0⟩ (empty.run [.operate (.number "1"), .operate (.number "2"),
      .operate (.chain none .plus ⟨0, 0⟩ ⟨1, 0⟩), .operate (.number "3"),
      .operate (.push ⟨2, 0⟩ .extendedOperands ⟨3, 0⟩)]) ((), []) = .ok w ∧
    (w.run e.logged 6).state.2.map Call.mark =
      [.visit ⟨2, 0⟩ true, .visit ⟨0, 0⟩ true, .endVisit ⟨0, 0⟩, .visit ⟨1, 0⟩ true,
        .endVisit ⟨1, 0⟩, .endVisit ⟨2, 0⟩] ∧
    (w.run e.logged 6).forest.contains ⟨3, 1⟩ ∧
    Visits ⟨2, 0⟩ (empty.run [.operate (.number "1"), .operate (.number "2"),
      .operate (.chain none .plus ⟨0, 0⟩ ⟨1, 0⟩), .operate (.number "3"),
      .operate (.push ⟨2, 0⟩ .extendedOperands ⟨3, 0⟩)])
      (w.run e.logged 6).state.2 (w.run e.logged 6).forest := by
  have hroot : (empty.run [.operate (.number "1"), .operate (.number "2"),
      .operate (.chain none .plus ⟨0, 0⟩ ⟨1, 0⟩), .operate (.number "3"),
      .operate (.push ⟨2, 0⟩ .extendedOperands ⟨3, 0⟩)]).contains ⟨2, 0⟩ := rfl
  obtain ⟨w, hw, -, hrun⟩ := rewriting_walk_nested _ hroot (Editor.operates_stepping (fun h =>
    if h = ⟨0, 0⟩ then [.operate (.remove ⟨2, 0⟩ .extendedOperands 0), .operate (.discard ⟨3, 0⟩),
      .operate (.number "4")] else []) fun _ => []) ()
  cases hw
  exact ⟨_, _, rfl, rfl, by decide +kernel, by decide +kernel,
    ((hrun 6).2 (by decide +kernel)).2 (by decide +kernel)⟩

end Forest

end SyntaxForest
