import SyntaxForest.Proofs.Accepted

/-! # Effects

All that an accepted operation does is one of six things (`Effect`): new trees grow, a node is
stored over roots, a node is annotated, nodes are moved in and out of one field, the content of a
field is displaced and freed, or a root is freed. Each concerns the nodes that were given to the
operation, the owner of one of them, and nodes that the operation made (`Operation.affects`).

The content of a field is displaced in the same way by all operations that destroy it
(`Displacement`): copies are made first, then the field is given its new content, and then what stood
there is freed. -/

namespace SyntaxForest

/-- The payload with another content of a field, slot or sequence. -/
def Payload.withContent (p : Payload) (field : Field) (ys : List Handle) : Payload :=
  (p.setSlot field ys.head?).setSeq field ys

namespace Payload

variable {p : Payload} {field : Field}

theorem withContent_of_slot? {o : Option Handle} (h : p.slot? field = some o) (ys : List Handle) :
    p.withContent field ys = p.setSlot field ys.head? := by
  cases p <;> cases field <;> first | rfl | cases h

theorem withContent_of_seq? {xs : List Handle} (h : p.seq? field = some xs) (ys : List Handle) :
    p.withContent field ys = p.setSeq field ys := by
  cases p <;> cases field <;> first | rfl | cases h

theorem slot?_withContent {o : Option Handle} (h : p.slot? field = some o) (ys : List Handle) :
    (p.withContent field ys).slot? field = some ys.head? := by
  rw [withContent_of_slot? h, slot?_setSlot, if_pos rfl, h]
  rfl

theorem seq?_withContent {xs : List Handle} (h : p.seq? field = some xs) (ys : List Handle) :
    (p.withContent field ys).seq? field = some ys := by
  rw [withContent_of_seq? h, seq?_setSeq, if_pos rfl, h]
  rfl

end Payload

/-- The handles given to an operation. -/
def Operation.arguments : Operation → List Handle
  | number _ | boolean _ | string _ | null | name _ => []
  | parenthesized e | expressionStatement e => [e]
  | chain _ _ l r => [l, r]
  | conditional _ c t e => [c, t, e]
  | returnStatement e => e.toList
  | block xs => xs
  | ifStatement c t e => [c, t] ++ e.toList
  | setType h _ | setSpan h _ | detach h | discard h | copy h => [h]
  | setLeftOperand h c | setRightOperand h c => [h, c]
  | setSlot p _ c | insert p _ _ c | push p _ c => [p, c]
  | take p _ | clearSlot p _ | remove p _ _ | clearSeq p _ => [p]
  | copySlotFrom p _ source _ | copySeqFrom p _ source _ => [p, source]
  | replace old new => [old, new]
  | viewInsert v _ c | viewPush v c => [v.parent, c]
  | viewRemove v _ => [v.parent]

namespace Forest

variable {f f' g f₁ : Forest} {p h c : Handle} {field : Field} {xs ys outs grown : List Handle}

/-! ### Displacements -/

/-- **A displacement**: from `f` to `g` the trees of `grown` are made, and from `g` to `f₁` the
content `xs` of a field of `p` gives way to `ys`. The nodes `xs` are then free to go. -/
structure Displacement (f g f₁ : Forest) (p : Handle) (field : Field)
    (xs ys outs grown : List Handle) : Prop where
  live : f.contains p
  grows : f.Grows g grown
  wellFormed : g.WellFormed
  exchange : g.Exchange f₁ p field xs ys ys outs xs
  books : f₁.Bookkept
  payload : ∀ {l}, g.live? p = some l → ∀ k,
    f₁.live? k = g.exchanged p (l.node.payload.withContent field ys) ys outs k
  timesEmptied : ∀ i, f₁.timesEmptied i = f.timesEmptied i

theorem sameArena_refill (f : Forest) (p : Handle) (change : Payload → Payload)
    (ins outs : List Handle) : f.SameArena (f.refill p change ins outs) :=
  ((f.sameArena_update p _).trans (sameArena_foldl_setOwner (some p) ins _)).trans
    (sameArena_foldl_setOwner none outs _)

theorem Displacement.of_refill {change : Payload → Payload} {l : LiveNode} (hp : f.contains p)
    (hg : f.Grows g grown) (hwf : g.WellFormed) (hl : g.live? p = some l)
    (hchange : change l.node.payload = l.node.payload.withContent field ys)
    (hx : g.Exchange (g.refill p change ys outs) p field xs ys ys outs xs)
    (ht : ∀ i, g.timesEmptied i = f.timesEmptied i) :
    Displacement f g (g.refill p change ys outs) p field xs ys outs grown where
  live := hp
  grows := hg
  wellFormed := hwf
  exchange := hx
  books := hwf.books.refill p change ys outs
  payload hl' k := by
    cases hl.symm.trans hl'
    rw [live?_refill hl, hchange]
  timesEmptied i := ((g.sameArena_refill p change ys outs).timesEmptied_eq i).trans (ht i)

/-- The payload may be written after the owners are set. -/
theorem Displacement.congr {f₂ : Forest} (hd : Displacement f g f₁ p field xs ys outs grown)
    (ha : f₁.Alike f₂) (hb : f₂.Bookkept) (ht : ∀ i, f₂.timesEmptied i = f.timesEmptied i) :
    Displacement f g f₂ p field xs ys outs grown :=
  { hd with
    exchange := hd.exchange.congr ha
    books := hb
    payload := fun hl k => (ha k).trans (hd.payload hl k)
    timesEmptied := ht }

end Forest

namespace Edit

open Forest

variable {f f' g : Forest} {p h c source : Handle} {field sourceField : Field}
  {grown : List Handle}

theorem displacement_setSlot (hp : f.contains p) (hg : f.Grows g grown) (hwf : g.WellFormed)
    (ht : ∀ i, g.timesEmptied i = f.timesEmptied i) (hr : setSlot p field c g = .ok () f') :
    ∃ f₁ o, f.slot p field = .ok o ∧
      Displacement f g f₁ p field o.toList [c] [] grown ∧ f' = f₁.freeSubtrees o.toList := by
  obtain ⟨l, o, hl, hs, ha, hu, rfl⟩ := setSlot_eq_ok hwf hr
  refine ⟨_, o, slot_eq_ok.mpr ⟨l, (hg.kept hp).symm.trans hl, hs⟩, ?_, rfl⟩
  exact .of_refill hp hg hwf hl (Payload.withContent_of_slot? hs [c]).symm
    (exchange_setSlot hl hs ha hu) ht

theorem displacement_clearSlot (hf : f.WellFormed) (hr : clearSlot p field f = .ok () f') :
    ∃ f₁ o, f.slot p field = .ok o ∧
      Displacement f f f₁ p field o.toList [] o.toList [] ∧ f' = f₁.freeSubtrees o.toList := by
  obtain ⟨l, o, hl, hs, hopt, rfl⟩ := clearSlot_eq_ok hr
  refine ⟨_, o, slot_eq_ok.mpr ⟨l, hl, hs⟩, ?_, rfl⟩
  exact .of_refill (contains_iff.mpr ⟨l, hl⟩) (.refl f) hf hl
    (Payload.withContent_of_slot? hs []).symm (exchange_clearSlot hl hs hopt) fun _ => rfl

theorem displacement_clearSeq (hf : f.WellFormed) (hr : clearSeq p field f = .ok () f') :
    ∃ f₁ xs, f.seq p field = .ok xs ∧
      Displacement f f f₁ p field xs [] [] [] ∧ f' = f₁.freeSubtrees xs := by
  obtain ⟨l, xs, hl, hs, rfl⟩ := clearSeq_eq_ok hr
  refine ⟨_, xs, seq_eq_ok.mpr ⟨l, hl, hs⟩, ?_, rfl⟩
  have hx := exchange_fillSeq hl hs List.nodup_nil fun c hc => by simp at hc
  exact .of_refill (contains_iff.mpr ⟨l, hl⟩) (.refl f) hf hl
    (Payload.withContent_of_seq? hs []).symm hx fun _ => rfl

theorem displacement_copySlotFrom (hf : f.WellFormed)
    (hr : copySlotFrom p field source sourceField f = .ok () f') : ∃ g f₁ o s ys outs,
      f.slot p field = .ok o ∧ f.slot source sourceField = .ok s ∧ f.Copies g s.toList ys ∧
      Displacement f g f₁ p field o.toList ys outs ys ∧ f' = f₁.freeSubtrees o.toList := by
  obtain ⟨l, hl, s, hs, ⟨rfl, hclear⟩ | ⟨c, k, g, rfl, hg, hwf, hcopies, ht, hset⟩⟩ :=
    copySlotFrom_eq_ok hf hr
  · obtain ⟨f₁, o, ho, hd, hfree⟩ := displacement_clearSlot hf hclear
    exact ⟨f, f₁, o, none, [], o.toList, ho, hs, .nil, hd, hfree⟩
  · obtain ⟨f₁, o, ho, hd, hfree⟩ :=
      displacement_setSlot (contains_iff.mpr ⟨l, hl⟩) hg hwf ht hset
    exact ⟨g, f₁, o, some c, [k], [], ho, hs, hcopies, hd, hfree⟩

theorem displacement_copySeqFrom (hf : f.WellFormed)
    (hr : copySeqFrom p field source sourceField f = .ok () f') : ∃ g f₁ xs hs ys,
      f.seq p field = .ok xs ∧ f.seq source sourceField = .ok hs ∧ f.Copies g hs ys ∧
      Displacement f g f₁ p field xs ys [] ys ∧ f' = f₁.freeSubtrees xs := by
  obtain ⟨l, xs, hs, ys, g, hl, hseq, hsource, hg, hwf, hcopies, ht, hatt, rfl⟩ :=
    copySeqFrom_eq_ok hf hr
  refine ⟨g, _, xs, hs, ys, seq_eq_ok.mpr ⟨l, hl, hseq⟩, hsource, hcopies, ?_, rfl⟩
  have hp : f.contains p := contains_iff.mpr ⟨l, hl⟩
  have hl' : g.live? p = some l := hg.live?_of_live? hl
  -- an old node is not under a new root
  have hin : ∀ c ∈ ys, g.Attachable field c ∧ ¬ g.Under p c := fun c hc =>
    ⟨hatt c hc, fun hu => hg.not_contains_of_under hf hc hu hp⟩
  have hd := Displacement.of_refill hp hg hwf hl' (Payload.withContent_of_seq? hseq ys).symm
    (exchange_fillSeq hl' hseq hg.nodup hin) ht
  refine hd.congr (alike_claim_fillSeq g p field ys) ((hwf.books.claim p ys).updatePayload p _)
    fun i => ?_
  have harena : g.SameArena ((g.claim p ys).fillSeq p field ys) :=
    (sameArena_foldl_setOwner (some p) ys g).trans ((g.claim p ys).sameArena_update p _)
  exact (harena.timesEmptied_eq i).trans (ht i)

end Edit

/-! ### Effects -/

namespace Forest

/-- **What an accepted operation does** to a well-formed forest, when the listed handles were given
to it. -/
inductive Effect (f : Forest) (arguments : List Handle) : Forest → Prop
  | grows {f' : Forest} {roots : List Handle} (hg : f.Grows f' roots) : Effect f arguments f'
  | stores {node : Node} (hs : f.Storable node) (hc : ∀ c ∈ node.children, c ∈ arguments) :
      Effect f arguments (f.store node)
  | annotates {h : Handle} (change : Node → Node) (hh : h ∈ arguments) :
      Effect f arguments (f.annotate h change)
  | moves {f' : Forest} {p : Handle} {field : Field} {xs ys ins outs : List Handle}
      (hx : f.Exchange f' p field xs ys ins outs [])
      (hp : p ∈ arguments ∨ ∃ c ∈ arguments, f.owns p c) (hins : ∀ c ∈ ins, c ∈ arguments) :
      Effect f arguments f'
  | displaces {g f₁ : Forest} {p : Handle} {field : Field} {xs ys outs grown : List Handle}
      (hd : Displacement f g f₁ p field xs ys outs grown) (hp : p ∈ arguments)
      (hys : ∀ y ∈ ys, y ∈ arguments ∨ y ∈ grown) : Effect f arguments (f₁.freeSubtrees xs)
  | discards {h : Handle} {n : Node} (hh : h ∈ arguments) (hl : f.live? h = some ⟨n, none⟩) :
      Effect f arguments (f.freeSubtrees [h])

end Forest

namespace Edit

open Forest

variable {α : Type} {f : Forest} {p h c : Handle} {field : Field} {arguments : List Handle}

/-- An edit that has an effect on the listed handles if it is accepted. -/
def Affects (x : Edit α) (arguments : List Handle) (f : Forest) : Prop :=
  ∀ a f', x f = .ok a f' → f.Effect arguments f'

theorem Affects.answering {x : Edit α} (hx : x.Affects arguments f) (answer : α → Answer) :
    (x.answering answer).Affects arguments f := fun _ f' hr => by
  obtain ⟨b, hr, -⟩ := answering_eq_ok.mp hr
  exact hx b f' hr

theorem affects_store_leaf {node : Node} (hc : node.payload.childFields = [])
    (hs : ∀ field, node.payload.slot? field = none) : (store node).Affects arguments f := by
  intro _ _ hr
  cases hr
  refine .stores (storable_leaf hc hs) fun c hmem => ?_
  rw [Node.children, Payload.children, hc] at hmem
  cases hmem

theorem affects_build {node : Node}
    (ho : ∀ field, node.payload.slot? field = some none → node.payload.isOptional field) :
    (build node).Affects node.children f := by
  intro _ _ hr
  obtain ⟨hs, -, rfl⟩ := build_eq_ok ho hr
  exact .stores hs fun _ hc => hc

theorem affects_setType (type? : Option TypeRef) : (setType h type?).Affects [h] f := by
  intro _ _ hr
  rw [setType_eq_ok hr]
  exact .annotates _ List.mem_cons_self

theorem affects_setSpan (span? : Option Span) : (setSpan h span?).Affects [h] f := by
  intro _ _ hr
  rw [setSpan_eq_ok hr]
  exact .annotates _ List.mem_cons_self

theorem affects_setSlot (hf : f.WellFormed) : (setSlot p field c).Affects [p, c] f := by
  intro _ _ hr
  obtain ⟨l, -, hl, -⟩ := setSlot_eq_ok hf hr
  obtain ⟨f₁, o, -, hd, rfl⟩ :=
    displacement_setSlot (contains_iff.mpr ⟨l, hl⟩) (.refl f) hf (fun _ => rfl) hr
  exact .displaces hd List.mem_cons_self fun y hy => .inl (List.mem_cons_of_mem p hy)

theorem affects_setLeftOperand (hf : f.WellFormed) : (setLeftOperand h c).Affects [h, c] f :=
  fun _ f' hr => affects_setSlot hf () f' (setLeftOperand_eq_ok hr)

theorem affects_setRightOperand (hf : f.WellFormed) : (setRightOperand h c).Affects [h, c] f :=
  fun _ f' hr => affects_setSlot hf () f' (setRightOperand_eq_ok hr)

theorem affects_take (hp : p ∈ arguments ∨ ∃ c ∈ arguments, f.owns p c) :
    (take p field).Affects arguments f := by
  intro _ _ hr
  obtain ⟨l, hl, hs, hopt, rfl⟩ := take_eq_ok hr
  exact .moves (exchange_take hl hs hopt) hp (by simp)

theorem affects_clearSlot (hf : f.WellFormed) : (clearSlot p field).Affects [p] f := by
  intro _ _ hr
  obtain ⟨f₁, o, -, hd, rfl⟩ := displacement_clearSlot hf hr
  exact .displaces hd List.mem_cons_self (by simp)

theorem affects_insert (hf : f.WellFormed) {i : Nat} :
    (insert p field i c).Affects [p, c] f := by
  intro _ _ hr
  obtain ⟨l, xs, hl, hs, hi, ha, hu, rfl⟩ := insert_eq_ok hf hr
  exact .moves (exchange_insert hf hl hs hi ha hu) (.inl List.mem_cons_self) (by simp)

theorem affects_push (hf : f.WellFormed) : (push p field c).Affects [p, c] f := by
  intro _ f' hr
  obtain ⟨xs, -, hinsert⟩ := push_eq_ok hr
  exact affects_insert hf () f' hinsert

theorem affects_remove (hf : f.WellFormed) (hp : p ∈ arguments ∨ ∃ c ∈ arguments, f.owns p c)
    {i : Nat} : (remove p field i).Affects arguments f := by
  intro _ _ hr
  obtain ⟨l, xs, hl, hs, hi, rfl⟩ := remove_eq_ok hr
  exact .moves (exchange_remove hf hl hs hi) hp (by simp)

theorem affects_clearSeq (hf : f.WellFormed) : (clearSeq p field).Affects [p] f := by
  intro _ _ hr
  obtain ⟨f₁, xs, -, hd, rfl⟩ := displacement_clearSeq hf hr
  exact .displaces hd List.mem_cons_self (by simp)

theorem affects_detach (hf : f.WellFormed) : (detach h).Affects [h] f := by
  intro _ f' hr
  obtain ⟨p, field, ho, ⟨i, hremove⟩ | htake⟩ := detach_eq_ok hr
  · exact affects_remove hf (.inr ⟨h, List.mem_cons_self, ho⟩) h f' hremove
  · exact affects_take (.inr ⟨h, List.mem_cons_self, ho⟩) (some h) f' htake

theorem affects_replace (hf : f.WellFormed) {old new : Handle} :
    (replace old new).Affects [old, new] f := by
  intro _ _ hr
  obtain ⟨p, field, l₁, l₂, hx⟩ := replace_eq_ok hf hr
  have ho : f.owns p old := hx.owns_of_mem hf.ownership (by simp)
  exact .moves hx (.inr ⟨old, List.mem_cons_self, ho⟩) (by simp)

theorem affects_discard : (discard h).Affects [h] f := by
  intro _ _ hr
  obtain ⟨n, hl, rfl⟩ := discard_eq_ok hr
  exact .discards List.mem_cons_self hl

theorem affects_copy (hf : f.WellFormed) : (copy h).Affects [h] f := by
  intro _ _ hr
  by_cases hh : f.contains h
  · obtain ⟨k, g, hrun, -, hg, -⟩ := copy_eq_ok hf hh
    cases hrun.symm.trans hr
    exact .grows hg
  · rw [copy_eq_error (not_contains_iff.mp hh)] at hr
    cases hr

theorem affects_copySlotFrom (hf : f.WellFormed) {source : Handle} {sourceField : Field} :
    (copySlotFrom p field source sourceField).Affects [p, source] f := by
  intro _ _ hr
  obtain ⟨g, f₁, o, s, ys, outs, -, -, -, hd, rfl⟩ := displacement_copySlotFrom hf hr
  exact .displaces hd List.mem_cons_self fun _ hy => .inr hy

theorem affects_copySeqFrom (hf : f.WellFormed) {source : Handle} {sourceField : Field} :
    (copySeqFrom p field source sourceField).Affects [p, source] f := by
  intro _ _ hr
  obtain ⟨g, f₁, xs, hs, ys, -, -, -, hd, rfl⟩ := displacement_copySeqFrom hf hr
  exact .displaces hd List.mem_cons_self fun _ hy => .inr hy

end Edit

open Edit in
/-- **Every accepted operation has an effect** on the nodes that were given to it. -/
theorem Operation.affects {f : Forest} (hf : f.WellFormed) :
    ∀ op : Operation, op.run.Affects op.arguments f
  | number _ | boolean _ | string _ | null | name _ =>
    (affects_store_leaf rfl fun _ => rfl).answering _
  | parenthesized _ | chain .. | conditional .. | expressionStatement _ =>
    (affects_build fun field h => by cases field <;> cases h).answering _
  | block xs => by
    have hbuild : (build { payload := .block xs }).Affects _ f :=
      affects_build fun field h => by cases field <;> cases h
    have hchildren : Node.children { payload := .block xs } = xs := Payload.map_snd_labelled _ xs
    rw [hchildren] at hbuild
    exact hbuild.answering _
  | returnStatement e => by
    have hbuild : (build { payload := .returnStatement e }).Affects _ f :=
      affects_build fun field h => by cases field <;> first | rfl | cases h
    cases e <;> exact hbuild.answering _
  | ifStatement c t e => by
    have hbuild : (build { payload := .ifStatement (some c) (some t) e }).Affects _ f :=
      affects_build fun field h => by cases field <;> first | rfl | cases h
    cases e <;> exact hbuild.answering _
  | setType _ type? => (affects_setType type?).answering _
  | setSpan _ span? => (affects_setSpan span?).answering _
  | setSlot .. => (affects_setSlot hf).answering _
  | setLeftOperand .. => (affects_setLeftOperand hf).answering _
  | setRightOperand .. => (affects_setRightOperand hf).answering _
  | take .. => (affects_take (.inl List.mem_cons_self)).answering _
  | clearSlot .. => (affects_clearSlot hf).answering _
  | copySlotFrom .. => (affects_copySlotFrom hf).answering _
  | insert .. => (affects_insert hf).answering _
  | push .. => (affects_push hf).answering _
  | remove .. => (affects_remove hf (.inl List.mem_cons_self)).answering _
  | clearSeq .. => (affects_clearSeq hf).answering _
  | copySeqFrom .. => (affects_copySeqFrom hf).answering _
  | replace .. => (affects_replace hf).answering _
  | detach _ => (affects_detach hf).answering _
  | discard _ => affects_discard.answering _
  | copy _ => (affects_copy hf).answering _
  | viewInsert .. => (affects_insert hf).answering _
  | viewPush .. => (affects_push hf).answering _
  | viewRemove .. => (affects_remove hf (.inl List.mem_cons_self)).answering _

end SyntaxForest
