import SyntaxForest.Proofs.Run

/-! # Changes, one after another

All that operations and conversions do to a forest is made of three changes: a node is updated, a
node is stored, the entry of a live node is emptied (`Change`). A forest evolves into another one by
such changes (`Evolves`), and every step of a run makes it evolve, refused or not (`evolves_after`).
That holds on every forest, well-formed or not, since no operation empties an entry without looking
for its node first.

What every change keeps is therefore kept by every run, and holds of the forests in the middle of an
operation too. -/

namespace SyntaxForest

namespace Forest

variable {f f' f'' : Forest}

/-- **A change**: a node updated, a node stored, or the entry of a live node emptied. -/
inductive Change (f : Forest) : Forest → Prop
  | update (h : Handle) (change : LiveNode → LiveNode) : Change f (f.update h change)
  | place (l : LiveNode) : Change f (f.place l)
  | release {h : Handle} : f.contains h → Change f (f.release h)

/-- **A forest evolves** into another one by changes, one after another. -/
def Evolves : Forest → Forest → Prop := Relation.ReflTransGen Change

theorem Evolves.refl (f : Forest) : f.Evolves f := Relation.ReflTransGen.refl

theorem Evolves.trans (h : f.Evolves f') (h' : f'.Evolves f'') : f.Evolves f'' :=
  Relation.ReflTransGen.trans h h'

theorem Change.evolves (h : f.Change f') : f.Evolves f' := Relation.ReflTransGen.single h

/-! ### Changes of several nodes -/

theorem evolves_update (f : Forest) (h : Handle) (change : LiveNode → LiveNode) :
    f.Evolves (f.update h change) := (Change.update h change).evolves

theorem evolves_foldl_setOwner (owner : Option Handle) : ∀ (hs : List Handle) (f : Forest),
    f.Evolves (hs.foldl (fun f h => f.setOwner h owner) f)
  | [], f => .refl f
  | h :: hs, f =>
    (f.evolves_update h _).trans (evolves_foldl_setOwner owner hs (f.setOwner h owner))

theorem evolves_refill (f : Forest) (p : Handle) (change : Payload → Payload)
    (ins outs : List Handle) : f.Evolves (f.refill p change ins outs) := by
  have hpayload : f.Evolves (f.updatePayload p change) := f.evolves_update p _
  have hclaim := evolves_foldl_setOwner (some p) ins (f.updatePayload p change)
  have hdisown := evolves_foldl_setOwner none outs ((f.updatePayload p change).claim p ins)
  exact (hpayload.trans hclaim).trans hdisown

theorem evolves_store (f : Forest) (node : Node) : f.Evolves (f.store node) :=
  (Change.place ⟨node, none⟩).evolves.trans (evolves_foldl_setOwner _ _ _)

/-- Freeing empties the entries of live nodes only. -/
theorem evolves_freeAll (f : Forest) (stack : List Handle) : f.Evolves (f.freeAll stack) := by
  fun_induction freeAll f stack with
  | case1 f => exact .refl f
  | case2 f h stack _ ih => exact ih
  | case3 f h stack l hl ih =>
    have hrelease := Change.release (contains_iff.mpr ⟨l, hl⟩)
    exact hrelease.evolves.trans ih

theorem evolves_freeSubtrees (f : Forest) (hs : List Handle) : f.Evolves (f.freeSubtrees hs) := by
  rw [freeSubtrees_eq]
  exact f.evolves_freeAll hs

end Forest

/-! ### Edits -/

open Forest

namespace Edit

variable {α β : Type}

/-- An edit under which every forest evolves, accepted or refused. -/
def Evolving (x : Edit α) : Prop := ∀ f : Forest, f.Evolves (x.after f)

theorem Evolving.bind {x : Edit β} {k : β → Edit α} (hx : x.Evolving) (hk : ∀ b, (k b).Evolving) :
    (x >>= k).Evolving := fun f => by
  rw [after_bind]
  have hf := hx f
  unfold after at hf
  rcases hr : x f with ⟨b, f'⟩ | ⟨e, f'⟩ <;> rw [hr] at hf
  · exact hf.trans (hk b f')
  · exact hf

theorem evolving_pure (a : α) : (pure a : Edit α).Evolving := fun f => .refl f

theorem Evolving.answering {x : Edit α} (hx : x.Evolving) (answer : α → Answer) :
    (x.answering answer).Evolving := hx.bind fun a => evolving_pure (answer a)

theorem evolving_throw (e : TreeError) : (throw e : Edit α).Evolving := fun f => .refl f

theorem evolving_ask (q : Forest → Except TreeError α) : (ask q).Evolving := fun f => by
  unfold after ask
  cases q f <;> exact .refl f

theorem evolving_change {g : Forest → Forest} (hg : ∀ f : Forest, f.Evolves (g f)) :
    (change g).Evolving := hg

theorem Evolving.onRefusal {x : Edit α} {g : Forest → Forest} (hx : x.Evolving)
    (hg : ∀ f : Forest, f.Evolves (g f)) : (onRefusal x g).Evolving := fun f => by
  have hf := hx f
  unfold after at hf ⊢
  rcases hr : x f with ⟨b, f'⟩ | ⟨e, f'⟩ <;> rw [hr] at hf
  · rw [onRefusal_of_ok hr]; exact hf
  · rw [onRefusal_of_error hr]; exact hf.trans (hg f')

theorem evolving_store (node : Node) : (store node).Evolving := fun f => f.evolves_store node

theorem evolving_build (node : Node) : (build node).Evolving :=
  (evolving_ask _).bind fun _ => evolving_store node

theorem evolving_annotate {h : Handle} {change : LiveNode → LiveNode} :
    (ask (fun f => f.live h) >>= fun _ => Edit.change fun f => f.update h change).Evolving :=
  (evolving_ask _).bind fun _ => evolving_change fun f => f.evolves_update h change

/-! ### Operations on nodes and fields -/

theorem evolving_freeSubtrees (hs : List Handle) : (change fun f => f.freeSubtrees hs).Evolving :=
  evolving_change fun f => f.evolves_freeSubtrees hs

theorem evolving_refill (p : Handle) (change : Payload → Payload) (ins outs : List Handle) :
    (Edit.change fun f => f.refill p change ins outs).Evolving :=
  evolving_change fun f => f.evolves_refill p change ins outs

theorem evolving_setSlot (p : Handle) (field : Field) (c : Handle) :
    (setSlot p field c).Evolving := by
  refine (evolving_ask _).bind fun o => (evolving_ask _).bind fun _ => ?_
  have hfill := evolving_refill p (fun q => q.setSlot field (some c)) [c] []
  exact hfill.bind fun _ => evolving_freeSubtrees o.toList

theorem evolving_take (p : Handle) (field : Field) : (take p field).Evolving := by
  refine (evolving_ask _).bind fun o => ?_
  have hfill := evolving_refill p (fun q => q.setSlot field none) [] o.toList
  exact hfill.bind fun _ => evolving_pure o

theorem evolving_clearSlot (p : Handle) (field : Field) : (clearSlot p field).Evolving :=
  (evolving_take p field).bind fun o => evolving_freeSubtrees o.toList

theorem evolving_insert (p : Handle) (field : Field) (i : Nat) (c : Handle) :
    (insert p field i c).Evolving := by
  refine (evolving_ask _).bind fun xs => ?_
  split_ifs
  · exact evolving_throw _
  · exact (evolving_ask _).bind fun _ =>
      evolving_refill p (fun q => q.setSeq field (xs.insertIdx i c)) [c] []

theorem evolving_push (p : Handle) (field : Field) (c : Handle) : (push p field c).Evolving :=
  (evolving_ask _).bind fun xs => evolving_insert p field xs.length c

theorem evolving_remove (p : Handle) (field : Field) (i : Nat) : (remove p field i).Evolving := by
  refine (evolving_ask _).bind fun xs => ?_
  split
  · exact evolving_throw _
  · next c _ =>
    have hfill := evolving_refill p (fun q => q.setSeq field (xs.eraseIdx i)) [] [c]
    exact hfill.bind fun _ => evolving_pure c

theorem evolving_clearSeq (p : Handle) (field : Field) : (clearSeq p field).Evolving :=
  (evolving_ask _).bind fun xs =>
    evolving_change fun f => (f.evolves_update p _).trans (evolves_freeSubtrees _ xs)

theorem evolving_replace (old new : Handle) : (replace old new).Evolving := by
  refine (evolving_ask _).bind fun p => (evolving_ask _).bind fun place => ?_
  refine (evolving_ask _).bind fun _ => ?_
  exact evolving_refill p (fun q => q.putAt place new) [new] [old]

theorem evolving_detach (h : Handle) : (detach h).Evolving := by
  refine (evolving_ask _).bind fun p => (evolving_ask _).bind fun place => ?_
  split
  · exact (evolving_remove p place.field _).bind fun _ => evolving_pure _
  · exact (evolving_take p place.field).bind fun _ => evolving_pure _

theorem evolving_discard (h : Handle) : (discard h).Evolving := by
  refine (evolving_ask _).bind fun o => ?_
  split
  · exact evolving_throw _
  · exact evolving_freeSubtrees [h]

theorem evolving_extend (v : SequenceView) : ∀ cs : List Handle, (v.extend cs).Evolving
  | [] => evolving_pure ()
  | c :: cs => (evolving_push v.parent v.field c).bind fun _ => evolving_extend v cs

/-! ### Copies -/

theorem evolving_copyNodes : ∀ (hs : List Handle) (stack : CopyStack), (copyNodes stack hs).Evolving
  | [], stack => evolving_pure stack
  | _ :: hs, stack =>
    ((evolving_ask _).onRefusal fun f => f.evolves_freeSubtrees stack).bind fun (node, stack) =>
      (evolving_store node).bind fun c => evolving_copyNodes hs (c :: stack)

theorem evolving_copy (h : Handle) : (copy h).Evolving := by
  refine (evolving_ask _).bind fun order => ?_
  refine (evolving_copyNodes order.reverse []).bind fun stack => ?_
  split
  · exact evolving_pure _
  · exact evolving_throw _

theorem evolving_copySlotFrom (p : Handle) (field : Field) (source : Handle) (sourceField : Field) :
    (copySlotFrom p field source sourceField).Evolving := by
  refine (evolving_ask _).bind fun optional => (evolving_ask _).bind fun o => ?_
  split
  · exact (evolving_copy _).bind fun c =>
      (evolving_setSlot p field c).onRefusal fun f => f.evolves_freeAll [c]
  · split_ifs
    · exact evolving_clearSlot p field
    · exact evolving_throw _

theorem evolving_copyAll (field : Field) : ∀ hs done : List Handle, (copyAll field done hs).Evolving
  | [], done => evolving_pure done
  | h :: hs, done =>
    ((evolving_copy h).onRefusal fun f => f.evolves_freeSubtrees done).bind fun c =>
      ((evolving_ask _).onRefusal fun f => f.evolves_freeSubtrees (c :: done)).bind fun _ =>
        evolving_copyAll field hs (done ++ [c])

theorem evolving_copySeqFrom (p : Handle) (field : Field) (source : Handle) (sourceField : Field) :
    (copySeqFrom p field source sourceField).Evolving :=
  (evolving_ask _).bind fun previous => (evolving_ask _).bind fun elements =>
    (evolving_copyAll field elements []).bind fun copies => evolving_change fun f =>
      ((evolves_foldl_setOwner _ copies f).trans (evolves_update _ p _)).trans
        (evolves_freeSubtrees _ previous)

end Edit

/-- **Under every operation forests evolve.** -/
theorem Operation.evolving : ∀ op : Operation, op.run.Evolving
  | number _ | boolean _ | string _ | null | name _ => (Edit.evolving_store _).answering _
  | parenthesized _ | chain .. | conditional .. | expressionStatement _ | returnStatement _
  | block _ | ifStatement .. => (Edit.evolving_build _).answering _
  | setType .. | setSpan .. => Edit.evolving_annotate.answering _
  | setSlot p field c => (Edit.evolving_setSlot p field c).answering _
  | setLeftOperand h c =>
    ((Edit.evolving_ask _).bind fun _ => Edit.evolving_setSlot h .leftOperand c).answering _
  | setRightOperand h c =>
    ((Edit.evolving_ask _).bind fun _ => Edit.evolving_setSlot h .rightOperand c).answering _
  | take p field => (Edit.evolving_take p field).answering _
  | clearSlot p field => (Edit.evolving_clearSlot p field).answering _
  | copySlotFrom p field s g => (Edit.evolving_copySlotFrom p field s g).answering _
  | insert p field i c => (Edit.evolving_insert p field i c).answering _
  | push p field c => (Edit.evolving_push p field c).answering _
  | remove p field i => (Edit.evolving_remove p field i).answering _
  | clearSeq p field => (Edit.evolving_clearSeq p field).answering _
  | copySeqFrom p field s g => (Edit.evolving_copySeqFrom p field s g).answering _
  | replace old new => (Edit.evolving_replace old new).answering _
  | detach h => (Edit.evolving_detach h).answering _
  | discard h => (Edit.evolving_discard h).answering _
  | copy h => (Edit.evolving_copy h).answering _
  | viewInsert v i c => (Edit.evolving_insert v.parent v.field i c).answering _
  | viewPush v c => (Edit.evolving_push v.parent v.field c).answering _
  | viewRemove v i => (Edit.evolving_remove v.parent v.field i).answering _

/-! ### Conversions -/

namespace Conversion

variable {α β : Type}

/-- A step of a conversion under which every forest evolves. -/
def Evolving (x : Conversion α) : Prop := ∀ w : Workspace, w.forest.Evolves (x.after w)

theorem Evolving.bind {x : Conversion β} {k : β → Conversion α} (hx : x.Evolving)
    (hk : ∀ b, (k b).Evolving) : (x >>= k).Evolving := fun w => by
  have hw := hx w
  unfold after at hw ⊢
  rcases hr : x w with ⟨b, w'⟩ | ⟨e, w'⟩ <;> rw [hr] at hw <;>
    simp only [Bind.bind, EStateM.bind, hr]
  · exact hw.trans (hk b w')
  · exact hw

theorem evolving_pure (a : α) : (pure a : Conversion α).Evolving := fun w => .refl w.forest

theorem evolving_throw (e : ConversionError) : (throw e : Conversion α).Evolving :=
  fun w => .refl w.forest

theorem evolving_request (r : TypeTable → α × TypeTable) : (request r).Evolving :=
  fun w => .refl w.forest

theorem evolving_edit {x : Edit α} (hx : x.Evolving) : (edit x).Evolving := fun w => by
  have hw := hx w.forest
  unfold Edit.after at hw
  unfold after
  rcases hr : x w.forest with ⟨a, f'⟩ | ⟨e, f'⟩ <;> rw [hr] at hw
  · rw [edit_of_ok hr]; exact hw
  · rw [edit_of_error hr]; exact hw

theorem Evolving.orFree {x : Conversion α} (hx : x.Evolving) (nodes : List Handle) :
    (orFree nodes x).Evolving := fun w => by
  have hw := hx w
  unfold after at hw ⊢
  rcases hr : x w with ⟨b, w'⟩ | ⟨e, w'⟩ <;> rw [hr] at hw <;> simp only [Conversion.orFree, hr]
  · exact hw
  · exact hw.trans (w'.forest.evolves_freeSubtrees nodes)

theorem evolving_atDepth (options : ConversionOptions) (depth : Nat) (info : SourceInfo)
    {make : Conversion Handle} (hm : make.Evolving) :
    (atDepth options depth info make).Evolving := by
  unfold atDepth giveType giveSpan
  split_ifs
  · exact evolving_throw _
  all_goals
    refine hm.bind fun h => Evolving.bind ?_ fun _ => Evolving.bind ?_ fun _ => evolving_pure h
  · split
    · exact evolving_pure _
    · exact (evolving_request _).bind fun _ => evolving_edit Edit.evolving_annotate
  · exact evolving_edit Edit.evolving_annotate
  · split
    · exact evolving_pure _
    · exact (evolving_request _).bind fun _ => evolving_edit Edit.evolving_annotate
  · exact evolving_pure _

theorem evolving_child (before : List Handle) (expected : Category) (info : SourceInfo)
    {make : Conversion Handle} (hm : make.Evolving) :
    (child before expected info make).Evolving := by
  refine (hm.bind fun h => (evolving_edit (Edit.evolving_ask _)).bind fun found => ?_).orFree before
  split_ifs
  · exact evolving_pure _
  · exact (evolving_edit (Edit.evolving_discard h)).bind fun _ => evolving_throw _

theorem evolving_assemble (children : List Handle) (node : Node) :
    (assemble children (Edit.build node)).Evolving :=
  (evolving_edit (Edit.evolving_build node)).orFree children

theorem evolving_operator (info : SourceInfo) (symbol : String) :
    (operator info symbol).Evolving := by
  unfold operator
  split
  · exact evolving_pure _
  · exact evolving_throw _

mutual

/-- **Under a conversion forests evolve**, by induction on the source tree. -/
theorem evolving_convertAt (options : ConversionOptions) (depth : Nat) :
    ∀ source : SourceTree, (source.convertAt options depth).Evolving
  | .number info _ | .boolean info _ | .string info _ | .null info | .name info _ =>
    evolving_atDepth options depth info (evolving_edit (Edit.evolving_store _))
  | .parenthesized info inner =>
    evolving_atDepth options depth info
      ((evolving_child [] _ _ (evolving_convertAt options (depth + 1) inner)).bind fun _ =>
        evolving_assemble _ _)
  | .chain info symbol left right extended =>
    evolving_atDepth options depth info <|
      (evolving_operator info symbol).bind fun _ =>
      (evolving_child _ _ _ (evolving_convertAt options (depth + 1) left)).bind fun _ =>
      (evolving_child _ _ _ (evolving_convertAt options (depth + 1) right)).bind fun _ =>
      (evolving_convertAll options (depth + 1) .expression extended _).bind fun _ =>
        evolving_assemble _ _
  | .conditional info condition thenExpression elseExpression =>
    evolving_atDepth options depth info <|
      (evolving_child _ _ _ (evolving_convertAt options (depth + 1) condition)).bind fun _ =>
      (evolving_child _ _ _ (evolving_convertAt options (depth + 1) thenExpression)).bind fun _ =>
      (evolving_child _ _ _ (evolving_convertAt options (depth + 1) elseExpression)).bind fun _ =>
        evolving_assemble _ _
  | .expressionStatement info expression =>
    evolving_atDepth options depth info <|
      (evolving_child _ _ _ (evolving_convertAt options (depth + 1) expression)).bind fun _ =>
        evolving_assemble _ _
  | .returnStatement info expression =>
    evolving_atDepth options depth info <|
      (evolving_convertOptional options (depth + 1) .expression expression _).bind fun _ =>
        evolving_assemble _ _
  | .block info statements =>
    evolving_atDepth options depth info <|
      (evolving_convertAll options (depth + 1) .statement statements _).bind fun _ =>
        evolving_assemble _ _
  | .ifStatement info condition thenStatement elseStatement =>
    evolving_atDepth options depth info <|
      (evolving_child _ _ _ (evolving_convertAt options (depth + 1) condition)).bind fun _ =>
      (evolving_child _ _ _ (evolving_convertAt options (depth + 1) thenStatement)).bind fun _ =>
      (evolving_convertOptional options (depth + 1) .statement elseStatement _).bind fun _ =>
        evolving_assemble _ _

theorem evolving_convertAll (options : ConversionOptions) (depth : Nat) (expected : Category) :
    ∀ (sources : List SourceTree) (before : List Handle),
      (convertAll options depth expected before sources).Evolving
  | [], _ => evolving_pure _
  | source :: rest, before =>
    (evolving_child before expected _ (evolving_convertAt options depth source)).bind fun h =>
      (evolving_convertAll options depth expected rest (before ++ [h])).bind fun _ =>
        evolving_pure _

theorem evolving_convertOptional (options : ConversionOptions) (depth : Nat) (expected : Category) :
    ∀ (source : Option SourceTree) (before : List Handle),
      (convertOptional options depth expected before source).Evolving
  | none, _ => evolving_pure _
  | some source, before =>
    (evolving_child before expected _ (evolving_convertAt options depth source)).bind fun _ =>
      evolving_pure _

end

end Conversion

/-! ### Runs -/

namespace Forest

/-- **Every step makes a forest evolve**, refused or not. -/
theorem evolves_after (f : Forest) : ∀ s : Step, f.Evolves (s.after f)
  | .operate op => op.evolving f
  | .extend v cs => Edit.evolving_extend v cs f
  | .convert options source types => Conversion.evolving_convertAt options 0 source ⟨f, types⟩
  | .ask _ => .refl f

theorem evolves_run : ∀ (steps : List Step) (f : Forest), f.Evolves (f.run steps)
  | [], f => .refl f
  | s :: steps, f => (f.evolves_after s).trans (evolves_run steps (s.after f))

end Forest

end SyntaxForest
