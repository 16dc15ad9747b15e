import SyntaxForest.Proofs.Aliasing
import SyntaxForest.Walk.Editor

/-! # The calls of an editing walk

An editor that is logged does what it did, and writes down each of its calls with the forest before
and after it (`Editor.logged`, `unlogged_run`). An editor that changes the forest by operations
alone (`Editor.Operates`) makes of a walk a run of operations, so that every forest along the walk
is well-formed and later than those before it. -/

namespace SyntaxForest

/-- **A call of an editor**, with the forest before and after it; a visit also with the answer
whether to descend. -/
inductive Call where
  | visit (node : Handle) (before : Forest) (descend : Bool) (after : Forest)
  | endVisit (node : Handle) (before after : Forest)
deriving DecidableEq, Repr

/-- What a call tells of a tree that does not change: the node, and the answer of a visit. -/
inductive Mark where
  | visit (node : Handle) (descend : Bool)
  | endVisit (node : Handle)
deriving DecidableEq, Repr

/-- The call without the forests. -/
def Call.mark : Call → Mark
  | visit h _ descend _ => .visit h descend
  | endVisit h _ _ => .endVisit h

variable {σ : Type} {e : Editor σ}

namespace Editor

/-- The editor that also lists its calls. -/
def logged (e : Editor σ) : Editor (σ × List Call) where
  visit f h s :=
    let (descend, f', s') := e.visit f h s.1
    (descend, f', s', s.2 ++ [.visit h f descend f'])
  endVisit f h s :=
    let (f', s') := e.endVisit f h s.1
    (f', s', s.2 ++ [.endVisit h f f'])

/-- **An editor that operates**: it changes the forest by steps of a run alone. -/
structure Operates (e : Editor σ) : Prop where
  visit : ∀ f h s, ∃ steps, (e.visit f h s).2.1 = f.run steps
  endVisit : ∀ f h s, ∃ steps, (e.endVisit f h s).1 = f.run steps

namespace Operates

variable {f f' : Forest} {h : Handle} {descend : Bool} {s s' : σ}

theorem logged (he : e.Operates) : e.logged.Operates :=
  ⟨fun f h s => he.visit f h s.1, fun f h s => he.endVisit f h s.1⟩

theorem run_of_visit (he : e.Operates) (hv : e.visit f h s = (descend, f', s')) :
    ∃ steps, f' = f.run steps := by
  obtain ⟨steps, hsteps⟩ := he.visit f h s
  exact ⟨steps, by rw [← hsteps, hv]⟩

theorem run_of_endVisit (he : e.Operates) (hv : e.endVisit f h s = (f', s')) :
    ∃ steps, f' = f.run steps := by
  obtain ⟨steps, hsteps⟩ := he.endVisit f h s
  exact ⟨steps, by rw [← hsteps, hv]⟩

end Operates

/-- The editor that takes the steps listed for a node when it visits the node, and those listed for
the end of the visit. -/
def stepping (steps stepsAtEnd : Handle → List Step) : Editor Unit where
  visit f h s := (true, f.run (steps h), s)
  endVisit f h s := (f.run (stepsAtEnd h), s)

theorem operates_stepping (steps stepsAtEnd : Handle → List Step) :
    (stepping steps stepsAtEnd).Operates :=
  ⟨fun _ h _ => ⟨steps h, rfl⟩, fun _ h _ => ⟨stepsAtEnd h, rfl⟩⟩

end Editor

namespace EditingWalk

variable {w : EditingWalk σ}

/-- A walk without the list of calls. -/
def unlogged (w : EditingWalk (σ × List Call)) : EditingWalk σ := ⟨w.frames, w.forest, w.state.1⟩

theorem unlogged_step (e : Editor σ) (w : EditingWalk (σ × List Call)) :
    (step e.logged w).unlogged = step e w.unlogged := by
  rcases w with ⟨_ | ⟨⟨h, _ | ⟨c, pending⟩⟩, frames⟩, f, s⟩
  · rfl
  · rfl
  · simp only [unlogged, step]
    split_ifs <;> rfl

/-- **Logging does not change a walk.** -/
theorem unlogged_run (e : Editor σ) : ∀ (n : Nat) (w : EditingWalk (σ × List Call)),
    (run e.logged n w).unlogged = run e n w.unlogged
  | 0, _ => rfl
  | n + 1, w => by
    have hfinished : w.unlogged.isFinished = w.isFinished := rfl
    simp only [run, hfinished]
    split_ifs
    · rfl
    · rw [unlogged_run e n, unlogged_step]

section Logged
variable {f f' : Forest} {h c : Handle} {descend : Bool} {s s' : σ} {calls : List Call}
  {pending : List Handle} {frames : List Frame}

theorem enter_logged (hv : e.visit f h s = (descend, f', s')) :
    enter e.logged h frames f (s, calls) =
      ⟨⟨h, f'.below h descend⟩ :: frames, f', s', calls ++ [.visit h f descend f']⟩ := by
  simp only [enter, Editor.logged, hv]

theorem step_endVisit (hv : e.endVisit f h s = (f', s')) :
    step e.logged ⟨⟨h, []⟩ :: frames, f, s, calls⟩ =
      ⟨frames, f', s', calls ++ [.endVisit h f f']⟩ := by
  simp only [step, Editor.logged, hv]

theorem step_visit (ho : f.owns h c) (hv : e.visit f c s = (descend, f', s')) :
    step e.logged ⟨⟨h, c :: pending⟩ :: frames, f, s, calls⟩ =
      ⟨⟨c, f'.below c descend⟩ :: ⟨h, pending⟩ :: frames, f', s',
        calls ++ [.visit c f descend f']⟩ := by
  simp only [step, if_pos ho, enter_logged hv]

theorem step_skip (ho : ¬ f.owns h c) :
    step e ⟨⟨h, c :: pending⟩ :: frames, f, s⟩ = ⟨⟨h, pending⟩ :: frames, f, s⟩ := by
  simp only [step, if_neg ho]

end Logged

theorem start_eq_ok (e : Editor σ) {root : Handle} {f : Forest} (hr : f.contains root) (s : σ) :
    start e root f s = .ok (enter e root [] f s) := by
  obtain ⟨l, hl⟩ := Forest.contains_iff.mp hr
  simp only [start, Forest.live, hl]
  rfl

theorem run_of_finished (e : Editor σ) {w : EditingWalk σ} (hw : w.isFinished) :
    ∀ n, run e n w = w
  | 0 => rfl
  | n + 1 => by rw [run, if_pos hw]

theorem run_add (e : Editor σ) : ∀ (m n : Nat) (w : EditingWalk σ),
    run e (m + n) w = run e n (run e m w)
  | 0, n, w => by rw [Nat.zero_add]; rfl
  | m + 1, n, w => by
    by_cases hw : w.isFinished
    · rw [run_of_finished e hw, run_of_finished e hw, run_of_finished e hw]
    · rw [Nat.succ_add_eq_add_succ, Nat.add_succ, run, run, if_neg hw, if_neg hw, run_add e m n]

theorem run_eq_of_finished (e : Editor σ) {w : EditingWalk σ} {m n : Nat}
    (hm : (run e m w).isFinished) (hn : (run e n w).isFinished) : run e m w = run e n w := by
  rw [← run_of_finished e hm n, ← run_add, Nat.add_comm, run_add, run_of_finished e hn]

theorem prefix_step (e : Editor σ) (w : EditingWalk (σ × List Call)) :
    w.state.2 <+: (step e.logged w).state.2 := by
  rcases w with ⟨_ | ⟨⟨h, _ | ⟨c, pending⟩⟩, frames⟩, f, s⟩
  · exact List.prefix_rfl
  · exact List.prefix_append _ _
  · simp only [step]
    split_ifs
    · exact List.prefix_append _ _
    · exact List.prefix_rfl

theorem prefix_run (e : Editor σ) : ∀ (n : Nat) (w : EditingWalk (σ × List Call)),
    w.state.2 <+: (run e.logged n w).state.2
  | 0, _ => List.prefix_rfl
  | n + 1, w => by
    rw [run]
    split_ifs
    · exact List.prefix_rfl
    · exact (prefix_step e w).trans (prefix_run e n (step e.logged w))

theorem mem_calls_of_finished {w : EditingWalk (σ × List Call)} {m : Nat}
    (hm : (run e.logged m w).isFinished) {n : Nat} {call : Call}
    (hc : call ∈ (run e.logged n w).state.2) : call ∈ (run e.logged m w).state.2 := by
  have hprefix := prefix_run e m (run e.logged n w)
  rw [← run_add, Nat.add_comm, run_add, run_of_finished e.logged hm] at hprefix
  exact hprefix.subset hc

/-! ### Walks of editors that operate -/

theorem exists_steps_of_step (he : e.Operates) (w : EditingWalk σ) :
    ∃ steps, (step e w).forest = w.forest.run steps := by
  rcases w with ⟨_ | ⟨⟨h, _ | ⟨c, pending⟩⟩, frames⟩, f, s⟩
  · exact ⟨[], rfl⟩
  · exact he.endVisit f h s
  · simp only [step]
    split_ifs
    · exact he.visit f c s
    · exact ⟨[], rfl⟩

/-- **A walk is a run of operations.** -/
theorem exists_steps_of_run (he : e.Operates) : ∀ (n : Nat) (w : EditingWalk σ),
    ∃ steps, (run e n w).forest = w.forest.run steps
  | 0, _ => ⟨[], rfl⟩
  | n + 1, w => by
    rw [run]
    split_ifs
    · exact ⟨[], rfl⟩
    · obtain ⟨xs, hx⟩ := exists_steps_of_step he w
      obtain ⟨ys, hy⟩ := exists_steps_of_run he n (step e w)
      exact ⟨xs ++ ys, by rw [hy, hx, Forest.run_append]⟩

theorem older_of_run (he : e.Operates) (n : Nat) (w : EditingWalk σ) :
    w.forest.Older (run e n w).forest := by
  obtain ⟨steps, h⟩ := exists_steps_of_run he n w
  rw [h]
  exact Forest.older_run steps w.forest

end EditingWalk

end SyntaxForest
