import SyntaxForest.Proofs.Outcomes
import SyntaxForest.Proofs.Ranges
import SyntaxForest.Proofs.Run

/-! # What the options of a conversion change

A conversion has two options, and neither shows in what it makes:

* *The level that is too deep.* It is read only to fail. A run that does not end there is, step by
  step, the run with any deeper limit (`settles_convertAt`).
* *Whether ranges are kept.* The run that drops the ranges goes through the forests of the run that
  keeps them, each without the ranges of its new nodes (`tracks_convertAt`). The nodes that were there
  before the conversion keep theirs in both, so the two forests are told apart only by asking a new
  node for its range. -/

namespace SyntaxForest

open Forest

/-! ### A deeper limit -/

namespace Conversion

variable {α β : Type}

/-- Whether a run ended at a node that is too deep. -/
def EndsTooDeep : EStateM.Result ConversionError Workspace α → Prop
  | .error (.tooDeep ..) _ => True
  | _ => False

/-- `x` settles `y`: where `x` does not end at a node that is too deep, `y` runs the same. -/
def Settles (x y : Conversion α) : Prop := ∀ w, ¬ EndsTooDeep (x w) → y w = x w

theorem Settles.refl (x : Conversion α) : x.Settles x := fun _ _ => rfl

theorem Settles.bind {x y : Conversion α} {k l : α → Conversion β} (hx : x.Settles y)
    (hk : ∀ a, (k a).Settles (l a)) : (x >>= k).Settles (y >>= l) := by
  intro w hw
  simp only [Bind.bind, EStateM.bind] at hw ⊢
  rcases hr : x w with ⟨a, w'⟩ | ⟨e, w'⟩
  · rw [hr] at hw
    rw [hx w (by rw [hr]; exact id), hr]
    exact hk a w' hw
  · rw [hr] at hw
    rw [hx w (by rw [hr]; exact fun h => hw (by cases e <;> exact h)), hr]

theorem Settles.orFree {x y : Conversion α} (hx : x.Settles y) (before : List Handle) :
    (orFree before x).Settles (orFree before y) := by
  intro w hw
  simp only [Conversion.orFree] at hw ⊢
  rw [hx w fun h => hw ?_]
  rcases hr : x w with ⟨a, w'⟩ | ⟨e, w'⟩ <;> rw [hr] at h
  · exact h
  · cases e <;> exact h

variable {d d' : Nat} (keepSpans : Bool)

theorem Settles.atDepth (hd : d ≤ d') (depth : Nat) (info : SourceInfo)
    {x y : Conversion Handle} (hx : x.Settles y) :
    (atDepth ⟨d, keepSpans⟩ depth info x).Settles (atDepth ⟨d', keepSpans⟩ depth info y) := by
  unfold Conversion.atDepth
  by_cases hdepth : d ≤ depth
  · intro w hw
    rw [if_pos hdepth] at hw
    exact absurd trivial hw
  · rw [if_neg hdepth, if_neg (show ¬ d' ≤ depth by omega)]
    exact hx.bind fun h => .refl _

theorem settles_convertEach (depth : Nat) {ps : List (Category × SourceTree)}
    (hps : ∀ p ∈ ps, (p.2.convertAt ⟨d, keepSpans⟩ depth).Settles
      (p.2.convertAt ⟨d', keepSpans⟩ depth)) (before : List Handle) :
    (convertEach ⟨d, keepSpans⟩ depth before ps).Settles
      (convertEach ⟨d', keepSpans⟩ depth before ps) := by
  induction ps generalizing before with
  | nil => exact .refl _
  | cons p ps ih =>
    obtain ⟨hp, hps⟩ := List.forall_mem_cons.mp hps
    refine (Settles.orFree (hp.bind fun h => .refl _) before).bind fun h => ?_
    exact (ih hps (before ++ [h])).bind fun _ => .refl _

/-- **A deeper limit changes nothing** in a run that did not end at the limit, by induction on the
source tree. -/
theorem settles_convertAt (hd : d ≤ d') (s : SourceTree) : ∀ depth : Nat,
    (s.convertAt ⟨d, keepSpans⟩ depth).Settles (s.convertAt ⟨d', keepSpans⟩ depth) := by
  induction s using SourceTree.induction with
  | _ s ih =>
    intro depth
    rw [s.convertAt_eq, s.convertAt_eq]
    refine Settles.atDepth keepSpans hd depth s.info ?_
    refine (Settles.refl s.prepare).bind fun payload => ?_
    refine (settles_convertEach keepSpans (depth + 1) (fun p hp => ?_) []).bind fun _ => .refl _
    exact ih p.2 (List.mem_map_of_mem hp) (depth + 1)

end Conversion

/-! ### Dropped ranges -/

/-- How a run ended, with the state it ended in changed by `g`. -/
def onState {ε σ α : Type} (g : σ → σ) : EStateM.Result ε σ α → EStateM.Result ε σ α
  | .ok a s => .ok a (g s)
  | .error e s => .error e (g s)

/-- `y` tracks `x` from `s` through `g`: what `x` does from `s`, `y` does from `g s`, and the states
they end in are related in the same way. -/
def Tracks {ε σ α : Type} (g : σ → σ) (x y : EStateM ε σ α) (s : σ) : Prop :=
  y (g s) = onState g (x s)

section Tracks

variable {ε σ α β : Type} {g : σ → σ} {s : σ}

theorem Tracks.pure (a : α) : Tracks g (pure a : EStateM ε σ α) (pure a) s := rfl

theorem Tracks.throw (e : ε) : Tracks g (throw e : EStateM ε σ α) (throw e) s := rfl

theorem Tracks.bind {x y : EStateM ε σ α} {k l : α → EStateM ε σ β} (hx : Tracks g x y s)
    (hk : ∀ a s', x s = .ok a s' → Tracks g (k a) (l a) s') :
    Tracks g (x >>= k) (y >>= l) s := by
  unfold Tracks at hx ⊢
  simp only [Bind.bind, EStateM.bind]
  rcases hr : x s with ⟨a, s'⟩ | ⟨e, s'⟩ <;> rw [hx, hr]
  · exact hk a s' hr
  · rfl

end Tracks

namespace Edit

variable {α : Type} {old f : Forest} {h : Handle}

theorem tracks_ask {q : Forest → Except TreeError α} (hq : q (old.dropSpans f) = q f) :
    Tracks old.dropSpans (ask q) (ask q) f := by
  unfold Tracks ask
  rw [hq]
  rcases q f <;> rfl

theorem tracks_change {g : Forest → Forest} (hg : old.dropSpans (g f) = g (old.dropSpans f)) :
    Tracks old.dropSpans (change g) (change g) f := congrArg (EStateM.Result.ok ()) hg.symm

theorem tracks_build {node : Node} (hn : node.span? = none) :
    Tracks old.dropSpans (build node) (build node) f := by
  refine (tracks_ask (checkChildren_dropSpans [] _)).bind fun _ f' _ => ?_
  show EStateM.Result.ok (old.dropSpans f').nextHandle ((old.dropSpans f').store node) =
    .ok f'.nextHandle (old.dropSpans (f'.store node))
  rw [nextHandle_dropSpans, dropSpans_store hn]

/-- The node that `setType` asks for may differ in its range, which the edit does not use. -/
theorem tracks_setType (type? : Option TypeRef) :
    Tracks old.dropSpans (setType h type?) (setType h type?) f := by
  have hupdate : old.dropSpans (f.update h fun l => { l with node := { l.node with type? } }) =
      (old.dropSpans f).update h fun l => { l with node := { l.node with type? } } :=
    dropSpans_update fun _ => rfl
  unfold Tracks setType
  rcases hl : f.live? h with _ | l
  · have hl' : (old.dropSpans f).live? h = none := by rw [live?_dropSpans, hl]; simp
    rw [bind_of_error (ask_of_error (live_of_stale hl')),
      bind_of_error (ask_of_error (live_of_stale hl))]
    rfl
  · obtain ⟨l', hl'⟩ : ∃ l', (old.dropSpans f).live? h = some l' := by
      rw [live?_dropSpans, hl]; split_ifs <;> exact ⟨_, rfl⟩
    rw [bind_of_ok (ask_of_ok (live_eq_ok.mpr hl')), bind_of_ok (ask_of_ok (live_eq_ok.mpr hl))]
    exact congrArg (EStateM.Result.ok ()) hupdate.symm

theorem tracks_setSpan (span? : Option Span) (hh : f.contains h) (hnew : ¬ old.contains h) :
    Tracks old.dropSpans (setSpan h span?) (pure ()) f := by
  obtain ⟨l, hl⟩ := contains_iff.mp hh
  have hupdate : old.dropSpans (f.update h fun l => { l with node := { l.node with span? } }) =
      old.dropSpans f := dropSpans_update_span hnew fun _ => rfl
  unfold Tracks setSpan
  rw [bind_of_ok (ask_of_ok (live_eq_ok.mpr hl))]
  exact congrArg (EStateM.Result.ok ()) hupdate.symm

theorem tracks_kind : Tracks old.dropSpans (ask fun f => f.kind h) (ask fun f => f.kind h) f := by
  refine tracks_ask ?_
  simp only [kind, node, live, live?_dropSpans]
  split_ifs
  · rfl
  · rcases f.live? h <;> rfl

theorem tracks_discard : Tracks old.dropSpans (discard h) (discard h) f := by
  refine (tracks_ask ?_).bind fun owner f' _ => ?_
  · simp only [owner?, live, live?_dropSpans]
    split_ifs
    · rfl
    · rcases f.live? h <;> rfl
  · cases owner with
    | some owner => exact .throw _
    | none => exact tracks_change (dropSpans_freeSubtrees [h])

end Edit

/-- The workspace without the ranges of the nodes that are not in `old`. -/
def Workspace.dropSpans (old : Forest) (w : Workspace) : Workspace :=
  ⟨old.dropSpans w.forest, w.types⟩

namespace Conversion

variable {α β : Type} {old : Forest} {w w' : Workspace} {h : Handle}

theorem tracks_edit {e e' : Edit α} (he : Tracks old.dropSpans e e' w.forest) :
    Tracks (Workspace.dropSpans old) (edit e) (edit e') w := by
  unfold Tracks at he
  simp only [Tracks, edit, Workspace.dropSpans, he]
  rcases e w.forest <;> rfl

theorem tracks_orFree {x y : Conversion α} (before : List Handle)
    (hx : Tracks (Workspace.dropSpans old) x y w) :
    Tracks (Workspace.dropSpans old) (orFree before x) (orFree before y) w := by
  unfold Tracks at hx
  simp only [Tracks, orFree, hx]
  rcases x w with ⟨a, w'⟩ | ⟨e, w'⟩
  · rfl
  · exact congrArg (fun f => EStateM.Result.error e (Workspace.mk f w'.types))
      (dropSpans_freeSubtrees before).symm

theorem tracks_prepare (s : SourceTree) :
    Tracks (Workspace.dropSpans old) s.prepare s.prepare w := by
  cases s with
  | chain info symbol =>
    refine Tracks.bind ?_ fun _ _ _ => .pure _
    unfold operator
    split
    · exact .pure _
    · exact .throw _
  | _ => exact .pure _

theorem tracks_expect (expected : Category) (info : SourceInfo) :
    Tracks (Workspace.dropSpans old) (expect expected info h) (expect expected info h) w := by
  refine (tracks_edit Edit.tracks_kind).bind fun found w' _ => ?_
  split_ifs
  · exact .pure _
  · exact (tracks_edit Edit.tracks_discard).bind fun _ _ _ => .throw _

theorem tracks_giveType (info : SourceInfo) :
    Tracks (Workspace.dropSpans old) (giveType info h) (giveType info h) w := by
  unfold giveType
  split
  · exact .pure _
  · exact Tracks.bind rfl fun type w' _ => tracks_edit (Edit.tracks_setType (some type))

/-! ### New nodes -/

theorem sound_convertEach (options : ConversionOptions) (depth : Nat) :
    ∀ (ps : List (Category × SourceTree)) (before : List Handle) {f₀ f : Forest}, f₀.WellFormed →
      f.WellFormed → f₀.Grows f before →
      (convertEach options depth before ps).Sound f₀ f fun cs => before ++ cs
  | [], before, f₀, f, _, hf, hg => .pure hf (by rw [List.append_nil]; exact hg)
  | p :: ps, before, f₀, f, hf₀, hf, hg => by
    refine (sound_child p.1 p.2.info hf₀ hf hg
      (sound_convertAt options depth p.2 hf)).bind fun h f₁ hf₁ hg₁ => ?_
    exact (sound_convertEach options depth ps (before ++ [h]) hf₀ hf₁ hg₁).map
      fun cs => by rw [List.append_assoc]; rfl

theorem fresh_of_assemble {cs : List Handle} {node : Node} (hb : w.forest.Bookkept)
    (hrun : assemble cs (Edit.build node) w = .ok h w') :
    w'.forest.contains h ∧ ¬ w.forest.contains h := by
  obtain ⟨f, types⟩ := w
  rcases hc : f.checkChildren [] node.payload.childFields with e | _
  · have hbuild : Edit.build node f = .error e f := Edit.bind_of_error (Edit.ask_of_error hc)
    simp only [assemble, orFree, edit_of_error hbuild] at hrun
    cases hrun
  · have hbuild : Edit.build node f = .ok f.nextHandle (f.store node) :=
      Edit.bind_of_ok (Edit.ask_of_ok hc)
    simp only [assemble, orFree, edit_of_ok hbuild] at hrun
    cases hrun
    refine ⟨contains_iff.mpr ?_, not_contains_iff.mpr hb.not_contains_nextHandle⟩
    rw [Forest.store, live?_claim, hb.live?_place, if_pos rfl]
    split_ifs <;> exact ⟨_, rfl⟩

theorem bind_eq_ok {x : Conversion α} {k : α → Conversion β} {b : β} :
    (x >>= k) w = .ok b w' ↔ ∃ a w₁, x w = .ok a w₁ ∧ k a w₁ = .ok b w' := by
  simp only [Bind.bind, EStateM.bind]
  rcases x w with ⟨a, w₁⟩ | ⟨e, w₁⟩ <;> simp

theorem contains_of_giveType {info : SourceInfo} {u : Unit} (hh : w.forest.contains h)
    (hrun : giveType info h w = .ok u w') : w'.forest.contains h := by
  obtain ⟨⟨n, o⟩, hl⟩ := contains_iff.mp hh
  cases hname : info.typeName? with
  | none => rw [giveType, hname] at hrun; cases hrun; exact hh
  | some name =>
    rw [giveType, hname] at hrun
    obtain ⟨type, ⟨f, types⟩, hrequest, hrest⟩ := bind_eq_ok.mp hrun
    obtain rfl : w.forest = f := by cases hrequest; rfl
    have hset : Edit.setType h (some type) w.forest = .ok ()
        (w.forest.annotate h fun n => { n with type? := some type }) := by
      rw [Edit.setType, Edit.bind_of_ok (Edit.ask_of_ok (live_eq_ok.mpr hl))]; rfl
    rw [edit_of_ok hset] at hrest
    cases hrest
    exact contains_iff.mpr ⟨_, by rw [live?_annotate, if_pos rfl, hl]; rfl⟩

/-! ### Source trees -/

variable (maxDepth : Nat)

theorem tracks_atDepth (depth : Nat) (info : SourceInfo) {x y : Conversion Handle}
    (hx : Tracks (Workspace.dropSpans old) x y w)
    (hnew : ∀ h w', x w = .ok h w' → w'.forest.contains h ∧ ¬ old.contains h) :
    Tracks (Workspace.dropSpans old) (atDepth ⟨maxDepth, true⟩ depth info x)
      (atDepth ⟨maxDepth, false⟩ depth info y) w := by
  unfold atDepth
  by_cases hdepth : maxDepth ≤ depth
  · rw [if_pos hdepth, if_pos hdepth]
    exact .throw _
  · rw [if_neg hdepth, if_neg hdepth]
    refine hx.bind fun h w₁ hrun => (tracks_giveType info).bind fun _ w₂ hrun₂ => ?_
    obtain ⟨hlive, hfresh⟩ := hnew h w₁ hrun
    refine Tracks.bind ?_ fun _ _ _ => .pure _
    exact tracks_edit (Edit.tracks_setSpan info.span? (contains_of_giveType hlive hrun₂) hfresh)

theorem tracks_convertEach (depth : Nat) {ps : List (Category × SourceTree)}
    (hps : ∀ p ∈ ps, ∀ {w : Workspace}, w.forest.WellFormed →
      (∀ k, old.contains k → w.forest.contains k) → Tracks (Workspace.dropSpans old)
        (p.2.convertAt ⟨maxDepth, true⟩ depth) (p.2.convertAt ⟨maxDepth, false⟩ depth) w)
    (before : List Handle) {f₀ : Forest} {w : Workspace} (hf₀ : f₀.WellFormed)
    (hf : w.forest.WellFormed) (hg : f₀.Grows w.forest before)
    (hold : ∀ k, old.contains k → f₀.contains k) :
    Tracks (Workspace.dropSpans old) (convertEach ⟨maxDepth, true⟩ depth before ps)
      (convertEach ⟨maxDepth, false⟩ depth before ps) w := by
  induction ps generalizing before w with
  | nil => exact .pure _
  | cons p ps ih =>
    obtain ⟨hp, hps⟩ := List.forall_mem_cons.mp hps
    refine Tracks.bind (tracks_orFree before ?_) fun h w₁ hrun => ?_
    · exact (hp hf fun k hk => hg.contains (hold k hk)).bind fun h w' _ => tracks_expect p.1 _
    · obtain ⟨hf₁, hg₁⟩ := (sound_child p.1 p.2.info hf₀ hf hg
        (sound_convertAt ⟨maxDepth, true⟩ depth p.2 hf)).accepted hrun
      exact (ih hps (before ++ [h]) hf₁ hg₁).bind fun _ _ _ => .pure _

/-- **The run that drops ranges tracks the run that keeps them**, by induction on the source tree:
it goes through the same forests, without the ranges of the nodes that are not in `old`. -/
theorem tracks_convertAt (s : SourceTree) : ∀ (depth : Nat) {w : Workspace},
    w.forest.WellFormed → (∀ k, old.contains k → w.forest.contains k) →
    Tracks (Workspace.dropSpans old) (s.convertAt ⟨maxDepth, true⟩ depth)
      (s.convertAt ⟨maxDepth, false⟩ depth) w := by
  induction s using SourceTree.induction with
  | _ s ih =>
    intro depth w hf hold
    rw [s.convertAt_eq, s.convertAt_eq]
    refine tracks_atDepth maxDepth depth s.info ?_ fun h w' hrun => ?_
    · refine (tracks_prepare s).bind fun payload w₁ hprepare => ?_
      obtain rfl : w₁ = w := ((s.outcome_prepare w).of_ok hprepare).2.1
      refine (tracks_convertEach maxDepth (depth + 1)
        (fun p hp => ih p.2 (List.mem_map_of_mem hp) (depth + 1)) [] hf hf (.refl _) hold).bind
          fun cs w₂ _ => ?_
      exact tracks_orFree cs (tracks_edit (Edit.tracks_build rfl))
    · obtain ⟨payload, w₁, hprepare, hrest⟩ := bind_eq_ok.mp hrun
      obtain ⟨cs, w₂, heach, hassemble⟩ := bind_eq_ok.mp hrest
      obtain rfl : w₁ = w := ((s.outcome_prepare w).of_ok hprepare).2.1
      obtain ⟨hf₂, hg⟩ :=
        (sound_convertEach _ (depth + 1) s.positions [] hf hf (.refl _)).accepted heach
      obtain ⟨hlive, hnew⟩ := fresh_of_assemble hf₂.books hassemble
      exact ⟨hlive, fun hh => hnew (hg.contains (hold h hh))⟩

end Conversion

namespace SourceTree

open Conversion

/-- **What the options of a conversion change**, in every forest that a run reaches.

* A run that does not end at a node that is too deep is the run with any deeper limit: it ends in the
  same way and leaves the same forest and the same table.
* The run that drops the ranges fails where the run that keeps them fails, with the same error, and
  leaves the same forest and the same table.
* Where the run that keeps them succeeds, it answers the same root and leaves the same table, and its
  forest is the same but for the ranges of the new nodes, which have none. -/
theorem convert_options (steps : List Step) (types : TypeTable) (source : SourceTree)
    (maxDepth : Nat) :
    (∀ maxDepth' keepSpans, maxDepth ≤ maxDepth' →
      ¬ EndsTooDeep (source.convert ⟨maxDepth, keepSpans⟩ ⟨empty.run steps, types⟩) →
      source.convert ⟨maxDepth', keepSpans⟩ ⟨empty.run steps, types⟩ =
        source.convert ⟨maxDepth, keepSpans⟩ ⟨empty.run steps, types⟩) ∧
    (∀ e w, source.convert ⟨maxDepth, true⟩ ⟨empty.run steps, types⟩ = .error e w →
      source.convert ⟨maxDepth, false⟩ ⟨empty.run steps, types⟩ = .error e w) ∧
    ∀ root w, source.convert ⟨maxDepth, true⟩ ⟨empty.run steps, types⟩ = .ok root w →
      ∃ w', source.convert ⟨maxDepth, false⟩ ⟨empty.run steps, types⟩ = .ok root w' ∧
        w'.types = w.types ∧ w'.forest = (empty.run steps).dropSpans w.forest ∧
        (∀ k, (empty.run steps).contains k → w'.forest.live? k = w.forest.live? k) ∧
        ∀ k, ¬ (empty.run steps).contains k →
          w'.forest.live? k = (w.forest.live? k).map .dropSpan := by
  have hf := wellFormed_run steps wellFormed_empty
  have hstart : Workspace.dropSpans (empty.run steps) ⟨empty.run steps, types⟩ =
      ⟨empty.run steps, types⟩ := by rw [Workspace.dropSpans, dropSpans_of_alike (.refl _)]
  have htracks := tracks_convertAt maxDepth source 0 (w := ⟨empty.run steps, types⟩) hf
    fun _ hk => hk
  unfold Tracks at htracks
  rw [hstart] at htracks
  refine ⟨fun maxDepth' keepSpans hd => settles_convertAt keepSpans hd source 0 _, ?_, ?_⟩
  · intro e w hrun
    obtain ⟨-, halike⟩ := (sound_convertAt _ 0 source hf).refused hrun
    -- a failed run has left no new nodes
    refine htracks.trans ?_
    rw [convert] at hrun
    rw [hrun, onState, Workspace.dropSpans, dropSpans_of_alike halike]
  · intro root w hrun
    rw [convert] at hrun
    rw [hrun] at htracks
    refine ⟨_, htracks, rfl, rfl, fun k hk => ?_, fun k hk => ?_⟩
    · exact (live?_dropSpans k).trans (if_pos hk)
    · exact (live?_dropSpans k).trans (if_neg hk)

/-- A name in parentheses, both with a range, next to a name with a range. Two levels are enough. -/
theorem convert_options_parenthesized : ∃ w w',
    (parenthesized { span? := some ⟨0, 3⟩ } (name { span? := some ⟨1, 2⟩ } "a")).convert ⟨7, true⟩
      ⟨empty.run [.operate (.name "x"), .operate (.setSpan ⟨0, 0⟩ (some ⟨5, 6⟩))], .empty 0⟩ =
        .ok ⟨2, 0⟩ w ∧
    (parenthesized { span? := some ⟨0, 3⟩ } (name { span? := some ⟨1, 2⟩ } "a")).convert ⟨2, false⟩
      ⟨empty.run [.operate (.name "x"), .operate (.setSpan ⟨0, 0⟩ (some ⟨5, 6⟩))], .empty 0⟩ =
        .ok ⟨2, 0⟩ w' ∧
    w.forest.span? ⟨2, 0⟩ = .ok (some ⟨0, 3⟩) ∧ w'.forest.span? ⟨2, 0⟩ = .ok none ∧
    w'.forest.span? ⟨0, 0⟩ = .ok (some ⟨5, 6⟩) := by
  obtain ⟨hdeeper, -, hdrop⟩ := convert_options
    [.operate (.name "x"), .operate (.setSpan ⟨0, 0⟩ (some ⟨5, 6⟩))] (.empty 0)
    (parenthesized { span? := some ⟨0, 3⟩ } (name { span? := some ⟨1, 2⟩ } "a")) 2
  obtain ⟨w', hrun', -, hforest, -⟩ := hdrop ⟨2, 0⟩ _ rfl
  refine ⟨_, w', hdeeper 7 true (by decide) id, hrun', rfl, ?_, ?_⟩ <;> rw [hforest] <;> rfl

end SourceTree

end SyntaxForest
