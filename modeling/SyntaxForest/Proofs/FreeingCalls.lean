import SyntaxForest.Proofs.Displacing
import SyntaxForest.Proofs.FreeingBy
import SyntaxForest.Proofs.FreeingOrder
import SyntaxForest.Proofs.Options

/-! # What operations free

A procedure that frees trees as `freeSubtree` does may do anything at all where what is reached from
the handle is not live or not a tree (`FreesTrees`). On well-formed forests operations and conversions
do the same with every such procedure, so that they free nothing but trees (`Operation.runBy_eq`,
`SourceTree.convertBy_eq`).

What is freed is what went out of a field (`Exchange.trees`), new roots (`Grows.trees`) or one root
(`WellFormed.tree_of_root`). -/

namespace SyntaxForest

open Forest

/-! ### Calls on trees -/

namespace Forest

variable {free : Forest → Handle → Forest} {f f' g : Forest} {p : Handle} {field : Field}
  {roots xs ys ins outs : List Handle}

/-- A procedure that does on trees what `freeSubtree` does. -/
def FreesTrees (free : Forest → Handle → Forest) : Prop :=
  ∀ {f : Forest} {h : Handle}, f.Trees [h] → free f h = f.freeSubtree h

theorem Trees.freeBy_eq (hfree : FreesTrees free) : ∀ {roots : List Handle} {f : Forest},
    f.Trees roots → f.freeBy free roots = f.freeSubtrees roots
  | [], _, _ => rfl
  | h :: rest, f, ht => by
    have htrees : f.Trees ([h] ++ rest) := ht
    have hrest : (f.freeSubtree h).Trees rest := htrees.freeAll
    have hstep : f.freeBy free (h :: rest) = (free f h).freeBy free rest := rfl
    rw [hstep, hfree ht.head]
    exact hrest.freeBy_eq hfree

theorem Grows.trees (hg : f.Grows g roots) (hwf : g.WellFormed) : g.Trees roots :=
  (hg.ownership hwf).trees hg.nodup fun _ hr => hg.contains_root hr

theorem WellFormed.tree_of_root (hf : f.WellFormed) {h : Handle} {n : Node}
    (hroot : f.live? h = some ⟨n, none⟩) : f.Trees [h] :=
  (hf.ownership.loosen_root hroot).trees (List.nodup_singleton h)
    (List.forall_mem_singleton.mpr (contains_iff.mpr ⟨_, hroot⟩))

theorem Exchange.trees (hx : f.Exchange f' p field xs ys ins outs xs) (hf : f.Ownership []) :
    f'.Trees xs := by
  refine (hx.ownership hf).trees ?_ fun c hc =>
    hx.contains_iff.mpr (contains_of_owns (hx.owns_of_mem hf hc))
  obtain ⟨l, payload, hl, hrefilled, -⟩ := hx.refilled
  rw [← hrefilled.before]
  exact (Payload.nodup_children.mp (hf.nodup hl)).1 field

end Forest

namespace Edit

variable {α β : Type} {free : Forest → Handle → Forest} {f : Forest} {p h c source : Handle}
  {field sourceField : Field}

theorem bind_congr_at {x y : Edit β} {k l : β → Edit α} (hx : x f = y f)
    (hk : ∀ b f', y f = .ok b f' → k b f' = l b f') : (x >>= k) f = (y >>= l) f := by
  rcases hy : y f with ⟨b, f'⟩ | ⟨e, f'⟩
  · rw [bind_of_ok (hx.trans hy), bind_of_ok hy]
    exact hk b f' hy
  · rw [bind_of_error (hx.trans hy), bind_of_error hy]

theorem ask_bind_congr {q : Forest → Except TreeError β} {k l : β → Edit α}
    (hk : ∀ b, q f = .ok b → k b f = l b f) : (ask q >>= k) f = (ask q >>= l) f :=
  bind_congr_at rfl fun b f' hq => by
    obtain ⟨hq, rfl⟩ := ask_eq_ok.mp hq
    exact hk b hq

theorem onRefusal_congr {x y : Edit α} {g g' : Forest → Forest} (hx : x f = y f)
    (hg : ∀ e f', y f = .error e f' → g f' = g' f') : onRefusal x g f = onRefusal y g' f := by
  rcases hy : y f with ⟨a, f'⟩ | ⟨e, f'⟩
  · rw [onRefusal_of_ok (hx.trans hy), onRefusal_of_ok hy]
  · rw [onRefusal_of_error (hx.trans hy), onRefusal_of_error hy, hg e f' hy]

theorem answering_congr {x y : Edit α} (hx : x f = y f) (answer : α → Answer) :
    answering answer x f = answering answer y f := bind_congr_at hx fun _ _ _ => rfl

variable (hfree : FreesTrees free) (hf : f.WellFormed)
include hfree hf

theorem setSlotBy_eq : setSlotBy free p field c f = setSlot p field c f := by
  refine ask_bind_congr fun o ho => ask_bind_congr fun _ hc => ?_
  obtain ⟨l, hl, hs⟩ := slot_eq_ok.mp ho
  obtain ⟨ha, hu⟩ := (checkInstallable_eq_ok hf (contains_iff.mpr ⟨l, hl⟩)).mp hc
  have ht := (exchange_setSlot hl hs ha hu).trees hf.ownership
  exact congrArg (EStateM.Result.ok ()) (ht.freeBy_eq hfree)

theorem clearSlotBy_eq : clearSlotBy free p field f = clearSlot p field f := by
  refine bind_congr_at rfl fun o f' htake => ?_
  obtain ⟨l, hl, hs, hopt, rfl⟩ := take_eq_ok htake
  have ht := (exchange_clearSlot hl hs hopt).trees hf.ownership
  exact congrArg (EStateM.Result.ok ()) (ht.freeBy_eq hfree)

theorem clearSeqBy_eq : clearSeqBy free p field f = clearSeq p field f := by
  refine ask_bind_congr fun xs hx => ?_
  obtain ⟨l, hl, hs⟩ := seq_eq_ok.mp hx
  have ht := (exchange_fillSeq hl hs List.nodup_nil (by simp)).trees hf.ownership
  exact congrArg (EStateM.Result.ok ()) (ht.freeBy_eq hfree)

theorem discardBy_eq : discardBy free h f = discard h f := by
  refine ask_bind_congr fun o ho => ?_
  obtain ⟨⟨n, owner?⟩, hl, rfl⟩ := owner?_eq_ok.mp ho
  cases owner? with
  | some owner => rfl
  | none => exact congrArg (EStateM.Result.ok ()) (hfree (hf.tree_of_root hl))

omit hfree hf in
theorem copyNodesBy_of_eq_ok : ∀ {hs stack cs : List Handle} {f f' : Forest},
    copyNodes stack hs f = .ok cs f' → copyNodesBy free stack hs f = .ok cs f'
  | [], _, _, _, _, hr => hr
  | h :: hs, stack, _, f, f', hr => by
    obtain ⟨⟨node, rest⟩, f₁, hcopy, hr⟩ := bind_eq_ok.mp hr
    obtain ⟨c, f₂, hstore, hr⟩ := bind_eq_ok.mp hr
    have hcopy' := onRefusal_of_ok (g := fun f => f.freeBy free stack) (onRefusal_eq_ok.mp hcopy)
    rw [copyNodesBy, bind_of_ok hcopy']
    exact (bind_of_ok hstore).trans (copyNodesBy_of_eq_ok hr)

omit hfree in
/-- A copy of a live node is not refused, so that nothing is freed. -/
theorem copyBy_eq : copyBy free h f = copy h f := by
  refine ask_bind_congr fun order horder => ?_
  have hh : f.contains h := by
    by_contra hh
    rw [preorder_eq_error (not_contains_iff.mp hh)] at horder
    cases horder
  obtain ⟨k, f', hcopy, -⟩ := copy_eq_ok hf hh
  obtain ⟨order', horder', hcopy⟩ := ask_bind_eq_ok.mp hcopy
  cases horder.symm.trans horder'
  obtain ⟨cs, f₁, hnodes, -⟩ := bind_eq_ok.mp hcopy
  exact bind_congr_at ((copyNodesBy_of_eq_ok hnodes).trans hnodes.symm) fun _ _ _ => rfl

theorem copySlotFromBy_eq :
    copySlotFromBy free p field source sourceField f = copySlotFrom p field source sourceField f := by
  refine ask_bind_congr fun optional _ => ask_bind_congr fun o ho => ?_
  cases o with
  | none =>
    cases optional with
    | true => exact clearSlotBy_eq hfree hf
    | false => rfl
  | some occupant =>
    obtain ⟨k, g, hrun, hg, hgrow, -⟩ := copy_eq_ok hf (contains_of_slot hf ho)
    refine bind_congr_at (copyBy_eq hf) fun c f' hc => ?_
    cases hrun.symm.trans hc
    refine onRefusal_congr (setSlotBy_eq hfree hg) fun e f'' hr => ?_
    -- the copy is still the only new root
    obtain ⟨hwf, ha⟩ := (safe_setSlot hg p field k).refused hr
    exact hfree ((hgrow.congr ha).trees hwf)

omit hf in
theorem copyAllBy_eq : ∀ (hs done : List Handle) {g : Forest}, (∀ h ∈ hs, f.contains h) →
    g.WellFormed → f.Grows g done →
      copyAllBy free field done hs g = copyAll field done hs g
  | [], _, _, _, _, _ => rfl
  | h :: hs, done, g, hh, hg, hgrow => by
    obtain ⟨c, g₁, hrun, hg₁, hgrow₁, -⟩ := copy_eq_ok hg (hgrow.contains (hh h (by simp)))
    have hall := hgrow.trans hgrow₁
    have hcopy : copyBy free h g = .ok c g₁ := (copyBy_eq hg).trans hrun
    rw [copyAllBy, copyAll, bind_of_ok (onRefusal_of_ok hcopy), bind_of_ok (onRefusal_of_ok hrun)]
    rcases hc : g₁.checkAttachable field c with e | _
    · rw [bind_of_error (onRefusal_of_error (ask_of_error hc)),
        bind_of_error (onRefusal_of_error (ask_of_error hc))]
      exact congrArg (EStateM.Result.error e)
        (((hall.perm List.perm_append_comm).trees hg₁).freeBy_eq hfree)
    · rw [bind_of_ok (onRefusal_of_ok (ask_of_ok hc)), bind_of_ok (onRefusal_of_ok (ask_of_ok hc))]
      exact copyAllBy_eq hs (done ++ [c]) (fun k hk => hh k (by simp [hk])) hg₁ hall

theorem copySeqFromBy_eq :
    copySeqFromBy free p field source sourceField f = copySeqFrom p field source sourceField f := by
  refine ask_bind_congr fun previous hp => ask_bind_congr fun elements he => ?_
  have hlive := contains_of_seq hf he
  refine bind_congr_at (copyAllBy_eq hfree elements [] hlive hf (.refl f)) fun cs g hcopy => ?_
  obtain ⟨l, hl, hs⟩ := seq_eq_ok.mp hp
  rcases copyAll_cases hf field elements [] hlive hf (.refl f) with
    ⟨ds, g', hrun, hg, hgrow, -, hatt, -⟩ | ⟨e, g', hrun, -⟩ <;> cases hcopy.symm.trans hrun
  have ht := (exchange_copies hf hgrow hl hs hatt).trees hg.ownership
  exact congrArg (EStateM.Result.ok ()) (ht.freeBy_eq hfree)

end Edit

/-- **Operations free nothing but trees**: on a well-formed forest an operation does the same with
every procedure that frees trees as `freeSubtree` does. -/
theorem Operation.runBy_eq {free : Forest → Handle → Forest} {f : Forest}
    (hfree : FreesTrees free) (hf : f.WellFormed) (op : Operation) : op.runBy free f = op.run f := by
  cases op with
  | setSlot => exact Edit.answering_congr (Edit.setSlotBy_eq hfree hf) _
  | setLeftOperand | setRightOperand =>
    exact Edit.answering_congr (Edit.ask_bind_congr fun _ _ => Edit.setSlotBy_eq hfree hf) _
  | clearSlot => exact Edit.answering_congr (Edit.clearSlotBy_eq hfree hf) _
  | copySlotFrom => exact Edit.answering_congr (Edit.copySlotFromBy_eq hfree hf) _
  | clearSeq => exact Edit.answering_congr (Edit.clearSeqBy_eq hfree hf) _
  | copySeqFrom => exact Edit.answering_congr (Edit.copySeqFromBy_eq hfree hf) _
  | discard => exact Edit.answering_congr (Edit.discardBy_eq hfree hf) _
  | copy => exact Edit.answering_congr (Edit.copyBy_eq hf) _
  | _ => rfl

namespace Conversion

variable {α β : Type} {free : Forest → Handle → Forest} {w : Workspace}

theorem bind_congr_at {x y : Conversion β} {k l : β → Conversion α} (hx : x w = y w)
    (hk : ∀ b w', y w = .ok b w' → k b w' = l b w') : (x >>= k) w = (y >>= l) w := by
  simp only [Bind.bind, EStateM.bind, hx]
  rcases hy : y w with ⟨b, w'⟩ | ⟨e, w'⟩
  · exact hk b w' hy
  · rfl

theorem edit_congr {x y : Edit α} (hx : x w.forest = y w.forest) : edit x w = edit y w := by
  simp only [edit, hx]

theorem atDepth_congr (options : ConversionOptions) (depth : Nat) (info : SourceInfo)
    {x y : Conversion Handle} (hx : x w = y w) :
    atDepth options depth info x w = atDepth options depth info y w := by
  unfold atDepth
  split_ifs
  · rfl
  all_goals exact bind_congr_at hx fun _ _ _ => rfl

theorem orFreeBy_eq (hfree : FreesTrees free) {before : List Handle} {x y : Conversion α}
    {f₀ : Forest} (hg : f₀.Grows w.forest before) (hx : x w = y w)
    (hy : ∀ e w', y w = .error e w' → w'.forest.WellFormed ∧ w.forest.Alike w'.forest) :
    orFreeBy free before x w = orFree before y w := by
  simp only [orFreeBy, orFree, hx]
  rcases hr : y w with ⟨a, w'⟩ | ⟨e, w'⟩
  · rfl
  · obtain ⟨hwf, ha⟩ := hy e w' hr
    have ht := (hg.congr ha).trees hwf
    exact congrArg (fun f => EStateM.Result.error e (Workspace.mk f w'.types)) (ht.freeBy_eq hfree)

theorem expectBy_eq (hfree : FreesTrees free) (hf : w.forest.WellFormed) (expected : Category)
    (info : SourceInfo) (h : Handle) :
    expectBy free expected info h w = expect expected info h w := by
  refine bind_congr_at rfl fun found w' hfound => ?_
  obtain rfl : w' = w := by
    rcases hk : w.forest.kind h with e | k
    · rw [edit_of_error (Edit.ask_of_error hk)] at hfound; cases hfound
    · rw [edit_of_ok (Edit.ask_of_ok hk)] at hfound; cases hfound; rfl
  split_ifs
  · rfl
  · exact bind_congr_at (edit_congr (Edit.discardBy_eq hfree hf)) fun _ _ _ => rfl

theorem refused_build {node : Node} {e : ConversionError} {w' : Workspace}
    (hf : w.forest.WellFormed) (hr : edit (Edit.build node) w = .error e w') :
    w'.forest.WellFormed ∧ w.forest.Alike w'.forest := by
  obtain ⟨f, types⟩ := w
  rcases hc : f.checkChildren [] node.payload.childFields with e | _
  · have hbuild : Edit.build node f = .error e f := Edit.bind_of_error (Edit.ask_of_error hc)
    rw [edit_of_error hbuild] at hr
    cases hr
    exact ⟨hf, .refl f⟩
  · have hbuild : Edit.build node f = .ok f.nextHandle (f.store node) :=
      Edit.bind_of_ok (Edit.ask_of_ok hc)
    rw [edit_of_ok hbuild] at hr
    cases hr

theorem makeEachBy_eq (hfree : FreesTrees free) (options : ConversionOptions) (depth : Nat)
    {ps : List (Category × SourceTree)}
    (hps : ∀ p ∈ ps, ∀ {w : Workspace}, w.forest.WellFormed →
      p.2.convertAtBy free options depth w = p.2.convertAt options depth w)
    (before : List Handle) {f₀ : Forest} {w : Workspace} (hf₀ : f₀.WellFormed)
    (hf : w.forest.WellFormed) (hg : f₀.Grows w.forest before) :
    makeEachBy free before
      (ps.map fun p => (p.1, p.2.info, p.2.convertAtBy free options depth)) w =
        convertEach options depth before ps w := by
  induction ps generalizing before w with
  | nil => rfl
  | cons p ps ih =>
    obtain ⟨hp, hps⟩ := List.forall_mem_cons.mp hps
    have hs := sound_convertAt options depth p.2 hf
    refine bind_congr_at (orFreeBy_eq hfree hg ?_ fun e w' hr => ?_) fun h w₁ hrun => ?_
    · exact bind_congr_at (hp hf) fun h w' hr =>
        expectBy_eq hfree (hs.accepted hr).1 p.1 p.2.info h
    · exact (hs.bind fun _ _ hf' hg' => sound_expect p.1 p.2.info hf hf' hg').refused hr
    · obtain ⟨hf₁, hg₁⟩ := (sound_child p.1 p.2.info hf₀ hf hg hs).accepted hrun
      exact bind_congr_at (ih hps (before ++ [h]) hf₁ hg₁) fun _ _ _ => rfl

/-- Conversions free nothing but trees, by induction on the source tree. -/
theorem convertAtBy_eq (hfree : FreesTrees free) (options : ConversionOptions) (s : SourceTree) :
    ∀ (depth : Nat) {w : Workspace}, w.forest.WellFormed →
      s.convertAtBy free options depth w = s.convertAt options depth w := by
  induction s using SourceTree.induction with
  | _ s ih =>
    intro depth w hf
    rw [s.convertAtBy_stages, s.convertAt_eq]
    refine atDepth_congr options depth s.info (bind_congr_at rfl fun payload w₁ hprepare => ?_)
    obtain rfl : w₁ = w := ((s.outcome_prepare w).of_ok hprepare).2.1
    have heach := makeEachBy_eq hfree options (depth + 1)
      (fun p hp => ih p.2 (List.mem_map_of_mem hp) (depth + 1)) [] hf hf (.refl _)
    refine bind_congr_at heach fun cs w₂ hrun => ?_
    obtain ⟨hf₂, hg⟩ :=
      (sound_convertEach options (depth + 1) s.positions [] hf hf (.refl _)).accepted hrun
    exact orFreeBy_eq hfree hg rfl fun e w₃ hbuild => refused_build hf₂ hbuild

end Conversion

/-- **Conversions free nothing but trees**: on a well-formed forest a source tree is converted in the
same way with every procedure that frees trees as `freeSubtree` does. -/
theorem SourceTree.convertBy_eq {free : Forest → Handle → Forest} {w : Workspace}
    (hfree : FreesTrees free) (hf : w.forest.WellFormed) (options : ConversionOptions)
    (s : SourceTree) : s.convertBy free options w = s.convert options w :=
  Conversion.convertAtBy_eq hfree options s 0 hf

end SyntaxForest
