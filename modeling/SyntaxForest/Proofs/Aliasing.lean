import SyntaxForest.Proofs.Aging
import SyntaxForest.Proofs.Staleness

/-! # Handles do not alias

As long as no entry was emptied `2 ^ 32` times, the generation of an entry is its count, and a node
that is gone is left behind by its entry for good: its handle names nothing in any later forest
(`not_contains_later`). A handle that a step answers names a node after the step
(`contains_of_answered`), and the handle of a new node named nothing before (`created_new`). So a new
node has a handle that was never answered before, and the handle of a node that is gone stays stale:
`handles_never_alias`. -/

namespace SyntaxForest

open Forest

namespace Forest

variable {f f' g : Forest}

/-! ### Generations as counts -/

/-- No entry was emptied so often that its generation came back to an earlier one. -/
def Unwrapped (f : Forest) : Prop := ∀ e ∈ f.entries, e.emptied < UInt32.size

theorem Older.unwrapped (h : f.Older f') (hu : f'.Unwrapped) : f.Unwrapped := fun e he => by
  obtain ⟨i, hi⟩ := Array.mem_iff_getElem?.mp he
  obtain ⟨e', he', ho⟩ := h i e hi
  have := hu e' (Array.mem_of_getElem? he')
  have := ho.emptied_le
  omega

theorem Unwrapped.entry (hu : f.Unwrapped) {h : Handle} (hh : f.contains h) :
    ∃ e, f.entries[h.index]? = some e ∧ e.emptied = h.generation.toNat ∧ e.live?.isSome := by
  obtain ⟨l, hl⟩ := contains_iff.mp hh
  obtain ⟨e, he, hg, hlive⟩ := live?_eq_some.mp hl
  have := hu e (Array.mem_of_getElem? he)
  refine ⟨e, he, ?_, by simp [hlive]⟩
  rw [← hg, Entry.generation, UInt32.toNat_ofNat']
  exact (Nat.mod_eq_of_lt this).symm

theorem contains_of_entry {h : Handle} {e : Entry} (he : f.entries[h.index]? = some e)
    (hg : e.emptied = h.generation.toNat) (hl : e.live?.isSome) : f.contains h := by
  obtain ⟨l, hl⟩ := Option.isSome_iff_exists.mp hl
  refine contains_iff.mpr ⟨l, live?_eq_some.mpr ⟨e, he, ?_, hl⟩⟩
  rw [Entry.generation, hg, UInt32.ofNat_toNat]

/-- **A node that is gone is gone for good**: its handle names nothing in any later forest. -/
theorem not_contains_later {h : Handle} (hgf : g.Older f) (hff : f.Older f') (hu : f'.Unwrapped)
    (hg : g.contains h) (hf : ¬ f.contains h) : ¬ f'.contains h := by
  intro hf'
  obtain ⟨e, he, hcount, hlive⟩ := ((hgf.trans hff).unwrapped hu).entry hg
  obtain ⟨e₁, he₁, ho⟩ := hgf _ e he
  obtain ⟨e₂, he₂, ho'⟩ := hff _ e₁ he₁
  obtain ⟨e₃, he₃, hcount', -⟩ := hu.entry hf'
  rw [he₂] at he₃; cases he₃
  -- the count is the same at both ends, so it was between, and the entry was not empty
  have h₁ := ho.emptied_le
  have h₂ := ho'.emptied_le
  refine hf (contains_of_entry he₁ (by omega) ?_)
  rcases ho with hlt | ⟨-, hkeep⟩
  · omega
  · exact hkeep hlive

end Forest

/-! ### What steps answer -/

namespace Edit

variable {α : Type} {f f' : Forest}

theorem answering_eq_ok {x : Edit α} {answer : α → Answer} {a : Answer} :
    answering answer x f = .ok a f' ↔ ∃ b, x f = .ok b f' ∧ answer b = a := by
  unfold answering
  rcases hr : x f with ⟨b, f₁⟩ | ⟨e, f₁⟩
  · rw [bind_of_ok hr]
    constructor
    · intro h; cases h; exact ⟨b, rfl, rfl⟩
    · rintro ⟨_, h, rfl⟩; cases h; rfl
  · rw [bind_of_error hr]; simp

/-- An edit whose answer is the handle of a new node. -/
def Creates (x : Edit Handle) (f : Forest) : Prop :=
  ∀ h f', x f = .ok h f' → f.live? h = none ∧ f'.contains h

theorem creates_store (hf : f.WellFormed) {node : Node} (hs : f.Storable node) :
    (store node).Creates f := fun h f' hr => by
  cases hr
  exact ⟨hf.books.not_contains_nextHandle, contains_iff.mpr ⟨_, hs.live?_nextHandle hf.books⟩⟩

theorem creates_build (hf : f.WellFormed) {node : Node}
    (ho : ∀ field, node.payload.slot? field = some none → node.payload.isOptional field) :
    (build node).Creates f := fun h f' hr => by
  rcases hc : f.checkChildren [] node.payload.childFields with e | _
  · rw [build, bind_of_error (ask_of_error hc)] at hr; cases hr
  · rw [build, bind_of_ok (ask_of_ok hc)] at hr
    exact creates_store hf (storable_of_checkChildren hc ho) h f' hr

theorem creates_copy (hf : f.WellFormed) (h : Handle) : (copy h).Creates f := fun _ _ hr => by
  by_cases hh : f.contains h
  · obtain ⟨c, f', hrun, -, hg, -⟩ := copy_eq_ok hf hh
    rw [hrun] at hr; cases hr
    exact ⟨hg.fresh (by simp), hg.contains_root (by simp)⟩
  · rw [copy_eq_error (not_contains_iff.mp hh)] at hr; cases hr

/-- An edit that answers live handles, and new ones where it says so. -/
def AnswersLive (x : Edit Answer) (f : Forest) : Prop :=
  ∀ a f', x f = .ok a f' → (∀ h ∈ a.new, f.live? h = none) ∧ ∀ h ∈ a.handles, f'.contains h

theorem Creates.answersLive {x : Edit Handle} (hx : x.Creates f) :
    (answering .created x).AnswersLive f := fun _ _ hr => by
  obtain ⟨h, hcreate, rfl⟩ := answering_eq_ok.mp hr
  simpa [Answer.new, Answer.handles] using hx h _ hcreate

theorem answersLive_done (x : Edit α) : (answering (fun _ => .done) x).AnswersLive f := by
  intro _ _ hr
  obtain ⟨_, -, rfl⟩ := answering_eq_ok.mp hr
  simp [Answer.new, Answer.handles]

theorem answersLive_take (hf : f.WellFormed) (p : Handle) (field : Field) :
    (answering .found (take p field)).AnswersLive f := fun _ _ hr => by
  obtain ⟨o, htake, rfl⟩ := answering_eq_ok.mp hr
  obtain ⟨l, hl, hs, -, rfl⟩ := take_eq_ok htake
  refine ⟨by simp [Answer.new], fun c hc => ?_⟩
  rw [contains_refill hl]
  rw [Answer.handles, Option.mem_toList] at hc
  obtain rfl : o = some c := hc
  exact contains_of_slot hf (slot_eq_ok.mpr ⟨l, hl, hs⟩)

theorem answersLive_remove (hf : f.WellFormed) (p : Handle) (field : Field) (i : Nat) :
    (answering (fun h => .found (some h)) (remove p field i)).AnswersLive f := fun _ _ hr => by
  obtain ⟨d, hremove, rfl⟩ := answering_eq_ok.mp hr
  obtain ⟨l, xs, hl, hs, hi, rfl⟩ := remove_eq_ok hremove
  refine ⟨by simp [Answer.new], fun c hc => ?_⟩
  rw [contains_refill hl]
  obtain rfl : c = d := by simpa [Answer.handles] using hc
  exact contains_of_seq hf (seq_eq_ok.mpr ⟨l, hl, hs⟩) c (List.mem_of_getElem? hi)

end Edit

open Edit in
/-- **Every operation answers live handles**, and new ones where it made a node. -/
theorem Operation.answersLive {f : Forest} (hf : f.WellFormed) :
    ∀ op : Operation, op.run.AnswersLive f
  | number _ | boolean _ | string _ | null | name _ =>
    (creates_store hf (storable_leaf rfl fun _ => rfl)).answersLive
  | parenthesized _ | chain .. | conditional .. | expressionStatement _ | block _ =>
    (creates_build hf fun field h => by cases field <;> cases h).answersLive
  | returnStatement _ | ifStatement .. =>
    (creates_build hf fun field h => by cases field <;> first | rfl | cases h).answersLive
  | copy h => (creates_copy hf h).answersLive
  | take p field => answersLive_take hf p field
  | remove p field i => answersLive_remove hf p field i
  | viewRemove v i => answersLive_remove hf v.parent v.field i
  | setType .. | setSpan .. | setSlot .. | setLeftOperand .. | setRightOperand .. | clearSlot ..
  | copySlotFrom .. | insert .. | push .. | clearSeq .. | copySeqFrom .. | replace .. | detach _
  | discard _ | viewInsert .. | viewPush .. => answersLive_done _

namespace Question

variable {f : Forest}

theorem contains_of_children (hf : f.WellFormed) {h : Handle} {l : LiveNode}
    (hl : f.live? h = some l) : ∀ c ∈ l.node.children, f.contains c := fun _ hc =>
  contains_of_owns (hf.ownership.child hl hc).1

/-- **Every question is answered by live handles.** -/
theorem contains_of_answer (hf : f.WellFormed) {hs : List Handle} :
    ∀ {q : Question}, q.answer f = .ok hs → ∀ h ∈ hs, f.contains h := by
  intro q hq
  cases q with
  | node _ | kind _ | type _ | span _ | identifier _ | operator _ | text _ | isDetached _
  | isAncestor _ _ | view _ _ | viewOfChain _ =>
    obtain ⟨_, -, hq⟩ := Except.bind_eq_ok.mp hq
    cases hq; simp
  | owner k =>
    obtain ⟨o, ho, hq⟩ := Except.bind_eq_ok.mp hq
    cases hq
    intro p hp
    obtain rfl : o = some p := by simpa using hp
    obtain ⟨⟨n, _⟩, hl, rfl⟩ := owner?_eq_ok.mp ho
    obtain ⟨m, hm, -⟩ := hf.ownership.owner (owns_of_live? hl) (by simp)
    exact contains_iff.mpr ⟨m, hm⟩
  | rootOf k =>
    obtain ⟨r, hr, hq⟩ := Except.bind_eq_ok.mp hq
    cases hq
    simpa using contains_rootOf hf hr
  | children k =>
    obtain ⟨l, hl, rfl⟩ := children_eq_ok.mp hq
    exact contains_of_children hf hl
  | preorder k =>
    by_cases hk : f.contains k
    · obtain ⟨xs, hl⟩ := exists_listing_of_contains hf hk
      have heq := (preorder_eq_ok hf hl).symm.trans hq
      cases heq; exact hl.live
    · have heq := (preorder_eq_error (not_contains_iff.mp hk)).symm.trans hq
      cases heq
  | postorder k =>
    by_cases hk : f.contains k
    · obtain ⟨xs, hl⟩ := exists_listing_of_contains hf hk
      obtain ⟨ys, hys, hp⟩ := postorder_eq_ok hf hl
      have heq := hys.symm.trans hq
      cases heq
      exact fun h hh => hl.live h (hp.mem_iff.mp hh)
    · have heq := (postorder_eq_error (not_contains_iff.mp hk)).symm.trans hq
      cases heq
  | slot p field =>
    obtain ⟨o, ho, hq⟩ := Except.bind_eq_ok.mp hq
    cases hq
    intro c hc
    obtain rfl : o = some c := by simpa using hc
    exact contains_of_slot hf ho
  | seq p field => exact contains_of_seq hf hq
  | leftOperand k | rightOperand k =>
    obtain ⟨c, hc, hq⟩ := Except.bind_eq_ok.mp hq
    obtain ⟨_, -, hc⟩ := Except.bind_eq_ok.mp hc
    cases hq
    simpa using contains_of_slot hf (slot_of_required hc)
  | extendedOperands k =>
    obtain ⟨_, -, hq⟩ := Except.bind_eq_ok.mp hq
    exact contains_of_seq hf hq
  | operands k =>
    obtain ⟨_, -, hq⟩ := Except.bind_eq_ok.mp hq
    obtain ⟨l, hl, rfl⟩ := children_eq_ok.mp hq
    exact contains_of_children hf hl
  | viewElements v =>
    cases hq
    unfold SequenceView.elements
    split
    · next xs hs => exact contains_of_seq hf hs
    · simp
  | roots =>
    cases hq
    intro h hh
    obtain ⟨n, hn⟩ := mem_roots.mp hh
    exact contains_iff.mpr ⟨_, hn⟩

end Question

/-! ### Steps and runs -/

namespace Forest

variable {f g : Forest}

theorem contains_of_answered (hf : f.WellFormed) :
    ∀ {s : Step}, ∀ h ∈ s.answered f, (s.after f).contains h := by
  intro s h hh
  cases s with
  | operate op =>
    simp only [Step.answered, Step.after, Edit.after] at hh ⊢
    rcases hr : op.run f with ⟨a, f'⟩ | ⟨e, f'⟩ <;> simp only [hr] at hh ⊢
    · exact (op.answersLive hf a f' hr).2 h hh
    · simp at hh
  | extend v cs => simp [Step.answered] at hh
  | convert options source types =>
    have hs := Conversion.sound_convertAt options 0 source hf
    simp only [Step.answered, Step.after, Conversion.after] at hh ⊢
    rcases hr : source.convert options ⟨f, types⟩ with ⟨a, w⟩ | ⟨e, w⟩ <;> simp only [hr] at hh ⊢
    · obtain rfl := List.mem_singleton.mp hh
      exact (hs.accepted hr).2.contains_root hh
    · simp at hh
  | ask q =>
    simp only [Step.answered] at hh
    rcases hr : q.answer f with e | hs <;> simp only [hr] at hh
    · simp at hh
    · exact Question.contains_of_answer hf hr h hh

/-- The handle of a new node named nothing before, and names the node after the step. -/
theorem created_new (hf : f.WellFormed) :
    ∀ {s : Step}, ∀ h ∈ s.created f, ¬ f.contains h ∧ (s.after f).contains h := by
  intro s h hh
  cases s with
  | operate op =>
    simp only [Step.created, Step.after, Edit.after] at hh ⊢
    rcases hr : op.run f with ⟨a, f'⟩ | ⟨e, f'⟩ <;> simp only [hr] at hh ⊢
    · obtain ⟨hnew, hlive⟩ := op.answersLive hf a f' hr
      refine ⟨not_contains_iff.mpr (hnew h hh), hlive h ?_⟩
      cases a with
      | created k => exact hh
      | found o => simp [Answer.new] at hh
      | done => simp [Answer.new] at hh
    · simp at hh
  | extend v cs => simp [Step.created] at hh
  | convert options source types =>
    have hs := Conversion.sound_convertAt options 0 source hf
    simp only [Step.created, Step.after, Conversion.after] at hh ⊢
    rcases hr : source.convert options ⟨f, types⟩ with ⟨a, w⟩ | ⟨e, w⟩ <;> simp only [hr] at hh ⊢
    · obtain rfl := List.mem_singleton.mp hh
      have hg := (hs.accepted hr).2
      exact ⟨not_contains_iff.mpr (hg.fresh hh), hg.contains_root hh⟩
    · simp at hh
  | ask q => simp [Step.created] at hh

/-- The handles that the steps of a run answer. -/
def answered (f : Forest) : List Step → List Handle
  | [] => []
  | s :: steps => s.answered f ++ (s.after f).answered steps

theorem run_append (f : Forest) (steps later : List Step) :
    f.run (steps ++ later) = (f.run steps).run later := List.foldl_append

theorem exists_contains_of_answered {h : Handle} : ∀ {steps : List Step} {f : Forest},
    f.WellFormed → h ∈ f.answered steps →
      ∃ g : Forest, g.contains h ∧ g.Older (f.run steps)
  | s :: steps, f, hf, hh => by
    rcases List.mem_append.mp hh with hh | hh
    · exact ⟨s.after f, contains_of_answered hf h hh, older_run steps _⟩
    · exact exists_contains_of_answered (f := s.after f) (wellFormed_after hf s) hh

/-- **A handle whose node is gone**: it names nothing, and whatever looks it up is refused. -/
structure Gone (f : Forest) (h : Handle) : Prop where
  contains : f.contains h = false
  operation : ∀ op : Operation, op.LooksUp f h → op.run f = .error (.staleNode h) f
  question : ∀ q : Question, q.LooksUp f h → q.answer f = .error (.staleNode h)
  /-- An extension looks up the parent of the view first. -/
  parent : ∀ (v : SequenceView) (c : Handle) (cs : List Handle), v.parent = h →
    v.extend (c :: cs) f = .error (.staleNode h) f
  /-- An extension that has come to `f` with the children before looks up the next one. -/
  extension : ∀ (v : SequenceView) (before after xs : List Handle) (g : Forest),
    v.extend before g = .ok () f → f.seq v.parent v.field = .ok xs →
      v.extend (before ++ h :: after) g = .error (.staleNode h) f
  walk : ∀ {σ : Type} (v : Visitor σ) (s : σ), f.accept h v s = .error (.staleNode h)
  editingWalk : ∀ {σ : Type} (e : Editor σ) (s : σ),
    EditingWalk.start e h f s = .error (.staleNode h)

theorem gone_of_stale (hf : f.WellFormed) {h : Handle} (hs : f.live? h = none) : f.Gone h where
  contains := by rw [Forest.contains, hs]; rfl
  operation _ hl := Operation.run_of_stale hf hs hl
  question _ hl := Question.answer_of_stale hs hl
  parent v c cs hv := by
    subst hv
    exact (Edit.refuses_push (Or.inl rfl) hs : (v.push c).Refuses f v.parent).bind _
  extension _ _ _ _ _ hb hx := Edit.extend_of_stale hs hx hb
  walk := accept_of_stale hs
  editingWalk := start_of_stale hs

/-- **Handles do not alias.** In a run in which no entry was emptied `2 ^ 32` times, a step answers a
new node by a handle that was not answered before; and once a step destroyed the node of a handle, the
node is gone after all later steps. -/
theorem handles_never_alias (before : List Step) (s : Step) (later : List Step)
    (hu : (empty.run (before ++ s :: later)).Unwrapped) :
    (∀ h ∈ s.created (empty.run before), h ∉ empty.answered before) ∧
      ∀ h, (empty.run before).contains h → ¬ (s.after (empty.run before)).contains h →
        (empty.run (before ++ s :: later)).Gone h := by
  have hf := wellFormed_run before wellFormed_empty
  have hold := older_after (empty.run before) s
  have hlater := older_run later (s.after (empty.run before))
  rw [run_append] at hu ⊢
  constructor
  · intro h hh hanswered
    obtain ⟨hnot, hnew⟩ := created_new hf h hh
    obtain ⟨g, hg, hgf⟩ := exists_contains_of_answered wellFormed_empty hanswered
    exact not_contains_later hgf hold (hlater.unwrapped hu) hg hnot hnew
  · intro h hh hnot
    refine gone_of_stale (wellFormed_run (s :: later) hf) (not_contains_iff.mp ?_)
    exact not_contains_later hold hlater hu hh hnot

/-- A number is discarded and its entry used again: the handle of the first number is stale, and the
second number has another one. -/
theorem handles_never_alias_reused :
    (empty.run [.operate (.number "1"), .operate (.discard ⟨0, 0⟩), .operate (.number "2")]).Gone
      ⟨0, 0⟩ ∧
    (empty.run [.operate (.number "1"), .operate (.discard ⟨0, 0⟩), .operate (.number "2")]).contains
      ⟨0, 1⟩ := by
  have hfree : (Step.operate (.discard ⟨0, 0⟩)).after (empty.run [.operate (.number "1")]) =
      ⟨#[⟨1, none⟩], [0], 0⟩ :=
    (freeAll_cons_of_live rfl []).trans (freeAll_nil _)
  have hrun : empty.run
      [.operate (.number "1"), .operate (.discard ⟨0, 0⟩), .operate (.number "2")] =
        ⟨#[⟨1, some ⟨{ payload := .number "2" }, none⟩⟩], [], 1⟩ :=
    congrArg (Step.after · (.operate (.number "2"))) hfree
  have hu : (empty.run ([.operate (.number "1")] ++ .operate (.discard ⟨0, 0⟩) ::
      [.operate (.number "2")])).Unwrapped := by
    change (empty.run [_, _, _]).Unwrapped
    rw [hrun]
    intro e he
    obtain rfl : e = _ := by simpa using he
    decide
  refine ⟨(handles_never_alias [.operate (.number "1")] (.operate (.discard ⟨0, 0⟩))
    [.operate (.number "2")] hu).2 ⟨0, 0⟩ rfl ?_, by rw [hrun]; rfl⟩
  rw [hfree]; decide

end Forest

end SyntaxForest
