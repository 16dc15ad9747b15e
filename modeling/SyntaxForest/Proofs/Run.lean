import SyntaxForest.Proofs.Converting
import SyntaxForest.Tree.Reading

/-! # Runs

A user changes a forest by operations, by extending sequences and by conversions, and asks questions
in between. Handles given to an operation may be live, stale or made up. A run is a list of such steps,
each taken whether or not the one before was refused.

* `wellFormed_run`: every run keeps a well-formed forest well-formed.
* `properlyOwned_run`: what the user sees of it, by the questions about single nodes.
* `refused_unchanged`, `failed_conversion_unchanged`: an operation that is refused, or a conversion
  that fails, leaves the forest as it looked. -/

namespace SyntaxForest

/-! ### Operations -/

/-- An operation that is accepted as a whole or refused as a whole. -/
inductive Operation where
  | number (token : String)
  | boolean (value : Bool)
  | string (text : String)
  | null
  | name (identifier : String)
  | parenthesized (expression : Handle)
  | chain (type? : Option TypeRef) (operator : Operator) (left right : Handle)
  | conditional (type? : Option TypeRef) (condition thenExpression elseExpression : Handle)
  | expressionStatement (expression : Handle)
  | returnStatement (expression : Option Handle)
  | block (statements : List Handle)
  | ifStatement (condition thenStatement : Handle) (elseStatement : Option Handle)
  | setType (h : Handle) (type? : Option TypeRef)
  | setSpan (h : Handle) (span? : Option Span)
  | setSlot (parent : Handle) (field : Field) (child : Handle)
  | setLeftOperand (h operand : Handle)
  | setRightOperand (h operand : Handle)
  | take (parent : Handle) (field : Field)
  | clearSlot (parent : Handle) (field : Field)
  | copySlotFrom (parent : Handle) (field : Field) (source : Handle) (sourceField : Field)
  | insert (parent : Handle) (field : Field) (index : Nat) (child : Handle)
  | push (parent : Handle) (field : Field) (child : Handle)
  | remove (parent : Handle) (field : Field) (index : Nat)
  | clearSeq (parent : Handle) (field : Field)
  | copySeqFrom (parent : Handle) (field : Field) (source : Handle) (sourceField : Field)
  | replace (old new : Handle)
  | detach (h : Handle)
  | discard (h : Handle)
  | copy (h : Handle)
  | viewInsert (v : SequenceView) (index : Nat) (child : Handle)
  | viewPush (v : SequenceView) (child : Handle)
  | viewRemove (v : SequenceView) (index : Nat)

/-- What an operation answers: a new node, a node that it took out, or nothing. -/
inductive Answer where
  | created (h : Handle)
  | found (h? : Option Handle)
  | done
deriving DecidableEq, Repr

namespace Answer

/-- The handles in an answer. -/
def handles : Answer → List Handle
  | created h => [h]
  | found h? => h?.toList
  | done => []

/-- The handle of a new node in an answer. -/
def new : Answer → List Handle
  | created h => [h]
  | _ => []

end Answer

/-- An edit with its answer put into one form. -/
def Edit.answering {α : Type} (answer : α → Answer) (x : Edit α) : Edit Answer :=
  x >>= fun a => pure (answer a)

namespace Operation

open Answer Edit in
/-- Runs an operation. -/
def run : Operation → Edit Answer
  | number token => answering created (Edit.number token)
  | boolean value => answering created (Edit.boolean value)
  | string text => answering created (Edit.string text)
  | null => answering created Edit.null
  | name identifier => answering created (Edit.name identifier)
  | parenthesized e => answering created (Edit.parenthesized e)
  | chain type? o l r => answering created (Edit.chain type? o l r [])
  | conditional type? c t e => answering created (Edit.conditional type? c t e)
  | expressionStatement e => answering created (Edit.expressionStatement e)
  | returnStatement e => answering created (Edit.returnStatement e)
  | block xs => answering created (Edit.block xs)
  | ifStatement c t e => answering created (Edit.ifStatement c t e)
  | setType h type? => answering (fun _ => done) (Edit.setType h type?)
  | setSpan h span? => answering (fun _ => done) (Edit.setSpan h span?)
  | setSlot p field c => answering (fun _ => done) (Edit.setSlot p field c)
  | setLeftOperand h c => answering (fun _ => done) (Edit.setLeftOperand h c)
  | setRightOperand h c => answering (fun _ => done) (Edit.setRightOperand h c)
  | take p field => answering found (Edit.take p field)
  | clearSlot p field => answering (fun _ => done) (Edit.clearSlot p field)
  | copySlotFrom p field s g => answering (fun _ => done) (Edit.copySlotFrom p field s g)
  | insert p field i c => answering (fun _ => done) (Edit.insert p field i c)
  | push p field c => answering (fun _ => done) (Edit.push p field c)
  | remove p field i => answering (fun h => found (some h)) (Edit.remove p field i)
  | clearSeq p field => answering (fun _ => done) (Edit.clearSeq p field)
  | copySeqFrom p field s g => answering (fun _ => done) (Edit.copySeqFrom p field s g)
  | replace old new => answering (fun _ => done) (Edit.replace old new)
  | detach h => answering (fun _ => done) (Edit.detach h)
  | discard h => answering (fun _ => done) (Edit.discard h)
  | copy h => answering created (Edit.copy h)
  | viewInsert v i c => answering (fun _ => done) (v.insert i c)
  | viewPush v c => answering (fun _ => done) (v.push c)
  | viewRemove v i => answering (fun h => found (some h)) (v.remove i)

end Operation

/-! ### Questions -/

/-- A question about a forest. -/
inductive Question where
  | node (h : Handle)
  | kind (h : Handle)
  | type (h : Handle)
  | span (h : Handle)
  | identifier (h : Handle)
  | operator (h : Handle)
  | text (h : Handle)
  | owner (h : Handle)
  | isDetached (h : Handle)
  | rootOf (h : Handle)
  | isAncestor (ancestor h : Handle)
  | children (h : Handle)
  | preorder (h : Handle)
  | postorder (h : Handle)
  | slot (parent : Handle) (field : Field)
  | seq (parent : Handle) (field : Field)
  | leftOperand (h : Handle)
  | rightOperand (h : Handle)
  | extendedOperands (h : Handle)
  | operands (h : Handle)
  | view (parent : Handle) (field : Field)
  | viewOfChain (h : Handle)
  | viewElements (v : SequenceView)
  | roots

namespace Question

/-- The handles in the answer to a question. -/
def answer (f : Forest) : Question → Except TreeError (List Handle)
  | node h => do let _ ← f.node h; return []
  | kind h => do let _ ← f.kind h; return []
  | type h => do let _ ← f.type? h; return []
  | span h => do let _ ← f.span? h; return []
  | identifier h => do let _ ← f.identifier h; return []
  | operator h => do let _ ← f.operator h; return []
  | text h => do let _ ← f.sourceText h; return []
  | owner h => do return (← f.owner? h).toList
  | isDetached h => do let _ ← f.isDetached h; return []
  | rootOf h => do return [← f.rootOf h]
  | isAncestor a h => do let _ ← f.isAncestor a h; return []
  | children h => f.children h
  | preorder h => f.preorder h
  | postorder h => f.postorder h
  | slot p field => do return (← f.slot p field).toList
  | seq p field => f.seq p field
  | leftOperand h => do return [← f.leftOperand h]
  | rightOperand h => do return [← f.rightOperand h]
  | extendedOperands h => f.extendedOperands h
  | operands h => f.operands h
  | view p field => do let _ ← SequenceView.of f p field; return []
  | viewOfChain h => do let _ ← SequenceView.ofChain f h; return []
  | viewElements v => return v.elements f
  | roots => return f.roots

end Question

/-! ### Steps -/

/-- A step of a run. A conversion may use any table of types. -/
inductive Step where
  | operate (op : Operation)
  | extend (v : SequenceView) (children : List Handle)
  | convert (options : ConversionOptions) (source : SourceTree) (types : TypeTable)
  | ask (q : Question)

/-- The forest that an edit leaves behind, accepted or refused. -/
def Edit.after {α : Type} (x : Edit α) (f : Forest) : Forest :=
  match x f with
  | .ok _ f' => f'
  | .error _ f' => f'

/-- The forest that a conversion leaves behind, successful or not. -/
def Conversion.after {α : Type} (x : Conversion α) (w : Workspace) : Forest :=
  match x w with
  | .ok _ w' => w'.forest
  | .error _ w' => w'.forest

namespace Step

/-- The forest after a step. -/
def after (f : Forest) : Step → Forest
  | operate op => op.run.after f
  | extend v children => (v.extend children).after f
  | convert options source types => (source.convert options).after ⟨f, types⟩
  | ask _ => f

/-- The handles that a step answers. -/
def answered (f : Forest) : Step → List Handle
  | operate op =>
    match op.run f with
    | .ok answer _ => answer.handles
    | .error .. => []
  | extend .. => []
  | convert options source types =>
    match source.convert options ⟨f, types⟩ with
    | .ok h _ => [h]
    | .error .. => []
  | ask q =>
    match q.answer f with
    | .ok hs => hs
    | .error _ => []

/-- The handle that a step answers for a node that it made. -/
def created (f : Forest) : Step → List Handle
  | operate op =>
    match op.run f with
    | .ok answer _ => answer.new
    | .error .. => []
  | convert options source types =>
    match source.convert options ⟨f, types⟩ with
    | .ok h _ => [h]
    | .error .. => []
  | _ => []

end Step

/-- The forest after several steps. -/
def Forest.run (f : Forest) (steps : List Step) : Forest := steps.foldl Step.after f

/-! ### What runs keep -/

namespace Operation

variable {f : Forest}

/-- **Every operation is safe.** -/
theorem safe (hf : f.WellFormed) : ∀ op : Operation, op.run.Safe f f
  | number _ | boolean _ | string _ | null | name _ =>
    (Edit.safe_store_leaf hf rfl fun _ => rfl).bind_pure _
  | parenthesized _ | chain .. | conditional .. | expressionStatement _ | block _ =>
    (Edit.safe_build hf fun field h => by cases field <;> cases h).bind_pure _
  | returnStatement _ | ifStatement .. =>
    (Edit.safe_build hf fun field h => by cases field <;> first | rfl | cases h).bind_pure _
  | setType h type? => (Edit.safe_setType hf h type?).bind_pure _
  | setSpan h span? => (Edit.safe_setSpan hf h span?).bind_pure _
  | setSlot p field c => (Edit.safe_setSlot hf p field c).bind_pure _
  | setLeftOperand h c => (Edit.safe_setLeftOperand hf h c).bind_pure _
  | setRightOperand h c => (Edit.safe_setRightOperand hf h c).bind_pure _
  | take p field => (Edit.safe_take hf p field).bind_pure _
  | clearSlot p field => (Edit.safe_clearSlot hf p field).bind_pure _
  | copySlotFrom p field s g => (Edit.safe_copySlotFrom hf p field s g).bind_pure _
  | insert p field i c => (Edit.safe_insert hf p field i c).bind_pure _
  | push p field c => (Edit.safe_push hf p field c).bind_pure _
  | remove p field i => (Edit.safe_remove hf p field i).bind_pure _
  | clearSeq p field => (Edit.safe_clearSeq hf p field).bind_pure _
  | copySeqFrom p field s g => (Edit.safe_copySeqFrom hf p field s g).bind_pure _
  | replace old new => (Edit.safe_replace hf old new).bind_pure _
  | detach h => (Edit.safe_detach hf h).bind_pure _
  | discard h => (Edit.safe_discard hf h).bind_pure _
  | copy h => (Edit.safe_copy hf h).bind_pure _
  | viewInsert v i c => (Edit.safe_insert hf v.parent v.field i c).bind_pure _
  | viewPush v c => (Edit.safe_push hf v.parent v.field c).bind_pure _
  | viewRemove v i => (Edit.safe_remove hf v.parent v.field i).bind_pure _

end Operation

namespace Edit

variable {α : Type} {f f₀ : Forest}

theorem Safe.after {x : Edit α} (hx : x.Safe f₀ f) : (x.after f).WellFormed := by
  unfold Edit.after
  rcases hr : x f with ⟨a, f'⟩ | ⟨e, f'⟩
  · exact hx.accepted hr
  · exact (hx.refused hr).1

theorem after_bind (x : Edit α) {β : Type} (k : α → Edit β) (f : Forest) : (x >>= k).after f =
    match x f with
    | .ok a f' => (k a).after f'
    | .error _ f' => f' := by
  unfold Edit.after
  rcases hr : x f with ⟨a, f'⟩ | ⟨e, f'⟩
  · rw [bind_of_ok hr]
  · rw [bind_of_error hr]

end Edit

namespace Forest

variable {f : Forest}

/-- An extension that stops at a refused node keeps the nodes before it. -/
theorem wellFormed_extend (v : SequenceView) : ∀ (cs : List Handle) {f : Forest}, f.WellFormed →
    ((v.extend cs).after f).WellFormed
  | [], _, hf => hf
  | c :: cs, f, hf => by
    have hpush := Edit.safe_push hf v.parent v.field c
    rw [SequenceView.extend, Edit.after_bind]
    rcases hr : v.push c f with ⟨_, f'⟩ | ⟨e, f'⟩
    · exact wellFormed_extend v cs (hpush.accepted hr)
    · exact (hpush.refused hr).1

theorem wellFormed_after (hf : f.WellFormed) : ∀ s : Step, (s.after f).WellFormed
  | .operate op => (op.safe hf).after
  | .extend v cs => wellFormed_extend v cs hf
  | .convert options source types => by
    have hs := Conversion.sound_convertAt options 0 source hf
    rcases hr : source.convert options ⟨f, types⟩ with ⟨h, w⟩ | ⟨e, w⟩ <;>
      simp only [Step.after, Conversion.after, hr]
    · exact (hs.accepted hr).1
    · exact (hs.refused hr).1
  | .ask _ => hf

/-- **Every run keeps a forest well-formed**, by induction on the steps. -/
theorem wellFormed_run : ∀ (steps : List Step) {f : Forest}, f.WellFormed → (f.run steps).WellFormed
  | [], _, hf => hf
  | s :: steps, _, hf => wellFormed_run steps (wellFormed_after hf s)

/-! ### Ownership as users see it -/

/-- **A properly owned forest**, by the questions that users ask about single nodes. -/
structure ProperlyOwned (f : Forest) : Prop where
  /-- A child is live, has its parent as its owner, and stands once in the fields of its parent. -/
  child : ∀ {p q c}, f.payload p = .ok q → c ∈ q.children →
    f.contains c ∧ f.owner? c = .ok (some p) ∧ (Field.all.flatMap q.content).count c = 1
  /-- The owner of a node is live and has it among its children. -/
  owner : ∀ {p c}, f.owner? c = .ok (some p) → ∃ q, f.payload p = .ok q ∧ c ∈ q.children
  /-- Owner links do not come back to a node. -/
  acyclic : ∀ h, ¬ Relation.TransGen f.OwnedBy h h
  /-- Owner links lead to a node without an owner. -/
  grounded : ∀ {h}, f.contains h → ∃ r, f.Under h r ∧ f.owner? r = .ok none
  /-- What stands in a field is of the category of the field. -/
  category : ∀ {p q field c k}, f.payload p = .ok q → c ∈ q.content field → f.kind c = .ok k →
    k.category = field.category
  /-- A slot that has to be occupied is. -/
  occupied : ∀ {p q field o}, f.payload p = .ok q → q.slot? field = some o →
    q.isOptional field = false → o.isSome

theorem WellFormed.properlyOwned (hf : f.WellFormed) : f.ProperlyOwned where
  child hp hc := by
    obtain ⟨l, hl, rfl⟩ := payload_eq_ok.mp hp
    obtain ⟨n, hn⟩ := hf.ownership.child_live hl hc
    refine ⟨contains_iff.mpr ⟨_, hn⟩, owner?_eq_ok.mpr ⟨_, hn, rfl⟩, ?_⟩
    rw [← Payload.children_eq]
    exact List.count_eq_one_of_mem (hf.ownership.nodup hl) hc
  owner ho := by
    obtain ⟨⟨n, _⟩, hn, rfl⟩ := owner?_eq_ok.mp ho
    obtain ⟨l, hl, hc⟩ := hf.ownership.owner (owns_of_live? hn) (by simp)
    exact ⟨_, payload_eq_ok.mpr ⟨l, hl, rfl⟩, hc⟩
  acyclic h hcycle := by
    obtain ⟨p, ho, hu⟩ := Relation.TransGen.head'_iff.mp hcycle
    exact hf.ownership.not_under ho hu
  grounded hh := by
    obtain ⟨r, n, hu, hr⟩ := exists_root hf hh
    exact ⟨r, hu, owner?_eq_ok.mpr ⟨_, hr, rfl⟩⟩
  category hp hc hk := by
    obtain ⟨l, hl, rfl⟩ := payload_eq_ok.mp hp
    obtain ⟨m, hm, rfl⟩ := kind_eq_ok.mp hk
    exact hf.ownership.category hl hc hm
  occupied {p q field o} hp hs hopt := by
    obtain ⟨l, hl, rfl⟩ := payload_eq_ok.mp hp
    cases o with
    | none => rw [hf.ownership.occupied hl hs] at hopt; cases hopt
    | some c => rfl

/-- **Every run from the empty forest leaves a properly owned forest behind.** -/
theorem properlyOwned_run (steps : List Step) : (empty.run steps).ProperlyOwned :=
  (wellFormed_run steps wellFormed_empty).properlyOwned

/-! ### Refusals -/

/-- **A refused operation leaves the forest as it looked**: the same handles name the same nodes with
the same owners, and the number of nodes and the roots are the same. -/
theorem refused_unchanged (steps : List Step) (op : Operation) {e : TreeError} {f' : Forest}
    (h : op.run (empty.run steps) = .error e f') :
    (∀ k, f'.live? k = (empty.run steps).live? k) ∧ f'.size = (empty.run steps).size ∧
      f'.roots = (empty.run steps).roots := by
  have hf := wellFormed_run steps wellFormed_empty
  obtain ⟨hf', ha⟩ := (op.safe hf).refused h
  exact ⟨ha, ha.size_eq hf.books hf'.books, ha.roots_eq⟩

/-- The child of a parenthesized number may not be taken out, and stays in place. -/
theorem refused_take_unchanged : ∃ e f',
    (Operation.take ⟨1, 0⟩ .expression).run
      (empty.run [.operate (.number "1"), .operate (.parenthesized ⟨0, 0⟩)]) = .error e f' ∧
    f'.size = 2 ∧ f'.roots = [⟨1, 0⟩] :=
  ⟨.mandatorySlot .parenthesized .expression, _, rfl,
    (refused_unchanged [.operate (.number "1"), .operate (.parenthesized ⟨0, 0⟩)]
      (.take ⟨1, 0⟩ .expression) rfl).2⟩

/-- **A failed conversion leaves the forest as it looked**, wherever in the source tree the fault is:
no node made before the fault is left, the nodes that were there have the same contents and the same
owners, and the number of nodes and the roots are the same. -/
theorem failed_conversion_unchanged (steps : List Step) (options : ConversionOptions)
    (source : SourceTree) (types : TypeTable) {e : ConversionError} {w : Workspace}
    (h : source.convert options ⟨empty.run steps, types⟩ = .error e w) :
    (∀ k, w.forest.live? k = (empty.run steps).live? k) ∧
      w.forest.size = (empty.run steps).size ∧ w.forest.roots = (empty.run steps).roots := by
  have hf := wellFormed_run steps wellFormed_empty
  obtain ⟨hw, ha⟩ := (Conversion.sound_convertAt options 0 source hf).refused h
  exact ⟨ha, ha.size_eq hf.books hw.books, ha.roots_eq⟩

/-- The second statement of a block has an operator that is not in the vocabulary: the first statement
is not left behind. -/
theorem failed_conversion_unchanged_block : ∃ w,
    (SourceTree.block {} [.expressionStatement {} (.name {} "x"),
      .expressionStatement {} (.chain {} "<=>" (.name {} "y") (.name {} "z") [])]).convert {}
        ⟨empty.run [.operate (.name "a")], .empty 0⟩ = .error (.unmappedOperator ⟨"<=>"⟩ none) w ∧
    w.forest.size = 1 ∧ w.forest.roots = [⟨0, 0⟩] := by
  obtain ⟨w, h⟩ : ∃ w, (SourceTree.block {} [.expressionStatement {} (.name {} "x"),
      .expressionStatement {} (.chain {} "<=>" (.name {} "y") (.name {} "z") [])]).convert {}
        ⟨empty.run [.operate (.name "a")], .empty 0⟩ = .error (.unmappedOperator ⟨"<=>"⟩ none) w :=
    ⟨_, rfl⟩
  exact ⟨w, h, (failed_conversion_unchanged [.operate (.name "a")] {} _ (.empty 0) h).2⟩

end Forest

end SyntaxForest
