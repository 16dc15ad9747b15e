import SyntaxForest.Conversion.Convert
import SyntaxForest.Proofs.Safety

/-! # Conversion is all or nothing on the forest

A step of a conversion is sound if its success has grown the roots that it answers and its failure
leaves the forest as it looked when the conversion of the whole subtree began. Soundness goes from the
steps to the conversion of a node (`sound_child`, `sound_assemble`, `sound_atDepth`) and from the
children to the node, by induction on the source tree (`sound_convertAt`). -/

namespace SyntaxForest

open Forest

namespace Conversion

variable {α β : Type} {f₀ f f' : Forest}

/-- **A sound step**, run on `f` in the conversion of a subtree that began on `f₀`: a success has grown
the given roots, and a failure leaves the forest as it looked. -/
structure Sound (x : Conversion α) (f₀ f : Forest) (roots : α → List Handle) : Prop where
  accepted : ∀ {types a w}, x ⟨f, types⟩ = .ok a w →
    w.forest.WellFormed ∧ f₀.Grows w.forest (roots a)
  refused : ∀ {types e w}, x ⟨f, types⟩ = .error e w → w.forest.WellFormed ∧ f₀.Alike w.forest

namespace Sound

variable {roots : α → List Handle} {roots' : β → List Handle}

theorem bind {x : Conversion α} {k : α → Conversion β} (hx : x.Sound f₀ f roots)
    (hk : ∀ a f', f'.WellFormed → f₀.Grows f' (roots a) → (k a).Sound f₀ f' roots') :
    (x >>= k).Sound f₀ f roots' := by
  constructor
  · intro types b w h
    rcases hr : x ⟨f, types⟩ with ⟨a, w'⟩ | ⟨e, w'⟩ <;> simp only [Bind.bind, EStateM.bind, hr] at h
    · obtain ⟨hw, hg⟩ := hx.accepted hr
      exact (hk a w'.forest hw hg).accepted h
    · cases h
  · intro types e w h
    rcases hr : x ⟨f, types⟩ with ⟨a, w'⟩ | ⟨e', w'⟩ <;>
      simp only [Bind.bind, EStateM.bind, hr] at h
    · obtain ⟨hw, hg⟩ := hx.accepted hr
      exact (hk a w'.forest hw hg).refused h
    · cases h; exact hx.refused hr

theorem pure {a : α} (hf : f.WellFormed) (hg : f₀.Grows f (roots a)) :
    (Pure.pure a : Conversion α).Sound f₀ f roots where
  accepted h := by cases h; exact ⟨hf, hg⟩
  refused h := by cases h

theorem throw (hf : f.WellFormed) (ha : f₀.Alike f) (e : ConversionError) :
    (throw e : Conversion α).Sound f₀ f roots where
  accepted h := by cases h
  refused h := by cases h; exact ⟨hf, ha⟩

theorem request_bind {r : TypeTable → α × TypeTable} {k : α → Conversion β}
    (hk : ∀ a, (k a).Sound f₀ f roots') : (request r >>= k).Sound f₀ f roots' where
  accepted h := (hk _).accepted h
  refused h := (hk _).refused h

theorem map {x : Conversion α} {g : α → β} (hx : x.Sound f₀ f roots)
    (hg : ∀ a, roots' (g a) = roots a) : (x >>= fun a => Pure.pure (g a)).Sound f₀ f roots' :=
  hx.bind fun _ _ hf' hgrow => .pure hf' (by rw [hg]; exact hgrow)

theorem orFree {x : Conversion α} {before : List Handle} (hf₀ : f₀.WellFormed)
    (hg : f₀.Grows f before) (hx : x.Sound f f roots) :
    (orFree before x).Sound f₀ f fun a => before ++ roots a := by
  constructor
  · intro types a w h
    rcases hr : x ⟨f, types⟩ with ⟨a', w'⟩ | ⟨e, w'⟩ <;> simp only [Conversion.orFree, hr] at h
    · cases h
      obtain ⟨hw, hgrow⟩ := hx.accepted hr
      exact ⟨hw, hg.trans hgrow⟩
    · cases h
  · intro types e w h
    rcases hr : x ⟨f, types⟩ with ⟨a', w'⟩ | ⟨e', w'⟩ <;> simp only [Conversion.orFree, hr] at h
    · cases h
    · cases h
      obtain ⟨hw, ha⟩ := hx.refused hr
      exact ⟨(hg.congr ha).wellFormed_free hw, (hg.congr ha).alike_free hf₀ hw⟩

end Sound

/-! ### Steps -/

theorem edit_of_ok {e : Edit α} {a : α} (he : e f = .ok a f') (types : TypeTable) :
    edit e ⟨f, types⟩ = .ok a ⟨f', types⟩ := by simp only [edit, he]

theorem edit_of_error {e : Edit α} {cause : TreeError} (he : e f = .error cause f')
    (types : TypeTable) : edit e ⟨f, types⟩ = .error (.tree cause) ⟨f', types⟩ := by
  simp only [edit, he]

theorem sound_edit {e : Edit α} {roots : α → List Handle} (hs : e.Safe f₀ f)
    (hg : ∀ {a f'}, e f = .ok a f' → f₀.Grows f' (roots a)) : (edit e).Sound f₀ f roots := by
  constructor <;> intro types x w h <;> rcases hr : e f with ⟨a, f'⟩ | ⟨cause, f'⟩
  · rw [edit_of_ok hr] at h; cases h; exact ⟨hs.accepted hr, hg hr⟩
  · rw [edit_of_error hr] at h; cases h
  · rw [edit_of_ok hr] at h; cases h
  · rw [edit_of_error hr] at h; cases h; exact hs.refused hr

theorem sound_annotate {e : Edit Unit} {h : Handle} (change : Node → Node)
    (he : e f = .ok () (f.annotate h change)) (hc : ∀ n, (change n).payload = n.payload)
    (hf : f.WellFormed) (hg : f₀.Grows f [h]) : (edit e).Sound f₀ f fun _ => [h] := by
  refine sound_edit (.of_eq_ok he (hf.annotate h change hc)) fun {a f'} hr => ?_
  rw [he] at hr; cases hr
  exact hg.annotate (by simp) change hc

theorem sound_giveType (info : SourceInfo) {h : Handle} (hf : f.WellFormed) (hg : f₀.Grows f [h]) :
    (giveType info h).Sound f₀ f fun _ => [h] := by
  obtain ⟨l, hl⟩ := contains_iff.mp (hg.contains_root (List.mem_singleton_self h))
  unfold giveType
  split
  · exact .pure hf hg
  · refine .request_bind fun type =>
      sound_annotate (fun n => { n with type? := some type }) ?_ (fun _ => rfl) hf hg
    rw [Edit.setType, Edit.bind_of_ok (Edit.ask_of_ok (live_eq_ok.mpr hl))]; rfl

theorem sound_giveSpan (options : ConversionOptions) (info : SourceInfo) {h : Handle}
    (hf : f.WellFormed) (hg : f₀.Grows f [h]) :
    (giveSpan options info h).Sound f₀ f fun _ => [h] := by
  obtain ⟨l, hl⟩ := contains_iff.mp (hg.contains_root (List.mem_singleton_self h))
  unfold giveSpan
  split_ifs
  · refine sound_annotate (fun n => { n with span? := info.span? }) ?_ (fun _ => rfl) hf hg
    rw [Edit.setSpan, Edit.bind_of_ok (Edit.ask_of_ok (live_eq_ok.mpr hl))]; rfl
  · exact .pure hf hg

theorem sound_atDepth (options : ConversionOptions) (depth : Nat) (info : SourceInfo)
    {make : Conversion Handle} (hf : f.WellFormed) (hm : make.Sound f f fun h => [h]) :
    (atDepth options depth info make).Sound f f fun h => [h] := by
  unfold atDepth
  split_ifs
  · exact .throw hf (.refl f) _
  · refine hm.bind fun h f₁ hf₁ hg₁ => ?_
    refine (sound_giveType info hf₁ hg₁).bind fun _ f₂ hf₂ hg₂ => ?_
    exact (sound_giveSpan options info hf₂ hg₂).bind fun _ f₃ hf₃ hg₃ => .pure hf₃ hg₃

theorem discard_of_root {h : Handle} {n : Node} (hl : f.live? h = some ⟨n, none⟩) :
    Edit.discard h f = .ok () (f.freeSubtrees [h]) := by
  rw [Edit.discard, Edit.bind_of_ok (Edit.ask_of_ok (owner?_eq_ok.mpr ⟨_, hl, rfl⟩))]; rfl

section Expect
variable {expected : Category} {info : SourceInfo} {w : Workspace} {h : Handle} {n : Node}

theorem ask_kind_eq_ok (hl : w.forest.live? h = some ⟨n, none⟩) :
    edit (Edit.ask fun f => f.kind h) w = .ok n.kind w :=
  edit_of_ok (Edit.ask_of_ok (kind_eq_ok.mpr ⟨_, hl, rfl⟩)) w.types

theorem expect_eq_ok (hl : w.forest.live? h = some ⟨n, none⟩) (hc : n.kind.category = expected) :
    expect expected info h w = .ok h w := by
  simp only [expect, bind, EStateM.bind, ask_kind_eq_ok hl, if_pos hc]; rfl

/-- A child of the wrong category is freed before the failure. -/
theorem expect_eq_error (hl : w.forest.live? h = some ⟨n, none⟩)
    (hc : n.kind.category ≠ expected) : expect expected info h w =
      .error (.malformedSource expected n.kind info.span?)
        ⟨w.forest.freeSubtrees [h], w.types⟩ := by
  simp only [expect, bind, EStateM.bind, ask_kind_eq_ok hl, if_neg hc,
    edit_of_ok (discard_of_root hl)]
  rfl

end Expect

theorem sound_expect (expected : Category) (info : SourceInfo) {h : Handle} (hf₀ : f₀.WellFormed)
    (hf : f.WellFormed) (hg : f₀.Grows f [h]) :
    (expect expected info h).Sound f₀ f fun h => [h] := by
  obtain ⟨n, hn⟩ := hg.root (List.mem_singleton_self h)
  by_cases hc : n.kind.category = expected
  · constructor <;> intro types x w he <;>
      rw [expect_eq_ok (w := ⟨f, types⟩) hn hc] at he <;> cases he
    exact ⟨hf, hg⟩
  · constructor <;> intro types x w he <;>
      rw [expect_eq_error (w := ⟨f, types⟩) hn hc] at he <;> cases he
    exact ⟨hg.wellFormed_free hf, hg.alike_free hf₀ hf⟩

theorem sound_child {before : List Handle} (expected : Category) (info : SourceInfo)
    {make : Conversion Handle} (hf₀ : f₀.WellFormed) (hf : f.WellFormed) (hg : f₀.Grows f before)
    (hm : make.Sound f f fun h => [h]) :
    (child before expected info make).Sound f₀ f fun h => before ++ [h] :=
  .orFree hf₀ hg (hm.bind fun _ _ hf' hg' => sound_expect expected info hf hf' hg')

theorem sound_assemble {node : Node} {before : List Handle} (hc : node.children = before)
    (hf₀ : f₀.WellFormed) (hf : f.WellFormed) (hg : f₀.Grows f before)
    (ho : ∀ field, node.payload.slot? field = some none → node.payload.isOptional field) :
    (assemble before (Edit.build node)).Sound f₀ f fun h => [h] := by
  subst hc
  unfold assemble
  rcases hc : f.checkChildren [] node.payload.childFields with e | _
  · have hrun : Edit.build node f = .error e f := Edit.bind_of_error (Edit.ask_of_error hc)
    constructor <;> intro types x w h <;>
      simp only [orFree, edit_of_error hrun] at h <;> cases h
    exact ⟨hg.wellFormed_free hf, hg.alike_free hf₀ hf⟩
  · have hs := storable_of_checkChildren hc ho
    have hrun : Edit.build node f = .ok f.nextHandle (f.store node) :=
      Edit.bind_of_ok (Edit.ask_of_ok hc)
    have hg' : f₀.Grows f (node.children ++ []) := by rw [List.append_nil]; exact hg
    constructor <;> intro types x w h <;>
      simp only [orFree, edit_of_ok hrun] at h <;> cases h
    exact ⟨hf.store hs, hg'.store hf hs⟩

theorem sound_leaf {node : Node} (hf : f.WellFormed) (hc : node.payload.childFields = [])
    (hs : ∀ field, node.payload.slot? field = none) :
    (edit (Edit.store node)).Sound f f fun h => [h] := by
  have hn : node.children = [] := by rw [Node.children, Payload.children, hc]; rfl
  refine sound_edit (Edit.safe_store_leaf hf hc hs) fun {a f'} hr => ?_
  cases hr
  have hg : f.Grows f (node.children ++ []) := by rw [hn]; exact .refl f
  exact hg.store hf (storable_leaf hc hs)

theorem sound_operator (info : SourceInfo) (symbol : String) (hf : f.WellFormed) :
    (operator info symbol).Sound f f fun _ => [] := by
  unfold operator
  split
  · exact .pure hf (.refl f)
  · exact .throw hf (.refl f) _

/-! ### Source trees -/

mutual

/-- **The conversion of a source tree is sound**, by induction on the tree. -/
theorem sound_convertAt (options : ConversionOptions) (depth : Nat) :
    ∀ (source : SourceTree) {f : Forest}, f.WellFormed →
      (source.convertAt options depth).Sound f f fun h => [h]
  | .number info token, f, hf => sound_atDepth options depth info hf (sound_leaf hf rfl fun _ => rfl)
  | .boolean info value, f, hf => sound_atDepth options depth info hf (sound_leaf hf rfl fun _ => rfl)
  | .string info text, f, hf => sound_atDepth options depth info hf (sound_leaf hf rfl fun _ => rfl)
  | .null info, f, hf => sound_atDepth options depth info hf (sound_leaf hf rfl fun _ => rfl)
  | .name info identifier, f, hf =>
    sound_atDepth options depth info hf (sound_leaf hf rfl fun _ => rfl)
  | .parenthesized info inner, f, hf => by
    refine sound_atDepth options depth info hf ?_
    refine (sound_child .expression inner.info hf hf (.refl f)
      (sound_convertAt options (depth + 1) inner hf)).bind fun e f₁ hf₁ hg₁ => ?_
    exact sound_assemble rfl hf hf₁ hg₁ fun field h => by cases field <;> cases h
  | .chain info symbol left right extended, f, hf => by
    refine sound_atDepth options depth info hf ?_
    refine (sound_operator info symbol hf).bind fun o f₁ hf₁ hg₁ => ?_
    refine (sound_child .expression left.info hf hf₁ hg₁
      (sound_convertAt options (depth + 1) left hf₁)).bind fun l f₂ hf₂ hg₂ => ?_
    refine (sound_child .expression right.info hf hf₂ hg₂
      (sound_convertAt options (depth + 1) right hf₂)).bind fun r f₃ hf₃ hg₃ => ?_
    refine (sound_convertAll options (depth + 1) .expression extended [l, r] hf hf₃ hg₃).bind
      fun xs f₄ hf₄ hg₄ => ?_
    exact sound_assemble (by simp [Node.children, Payload.children, Payload.childFields]) hf hf₄ hg₄
      fun field h => by cases field <;> cases h
  | .conditional info condition thenExpression elseExpression, f, hf => by
    refine sound_atDepth options depth info hf ?_
    refine (sound_child .expression condition.info hf hf (.refl f)
      (sound_convertAt options (depth + 1) condition hf)).bind fun c f₁ hf₁ hg₁ => ?_
    refine (sound_child .expression thenExpression.info hf hf₁ hg₁
      (sound_convertAt options (depth + 1) thenExpression hf₁)).bind fun t f₂ hf₂ hg₂ => ?_
    refine (sound_child .expression elseExpression.info hf hf₂ hg₂
      (sound_convertAt options (depth + 1) elseExpression hf₂)).bind fun e f₃ hf₃ hg₃ => ?_
    exact sound_assemble rfl hf hf₃ hg₃ fun field h => by cases field <;> cases h
  | .expressionStatement info expression, f, hf => by
    refine sound_atDepth options depth info hf ?_
    refine (sound_child .expression expression.info hf hf (.refl f)
      (sound_convertAt options (depth + 1) expression hf)).bind fun e f₁ hf₁ hg₁ => ?_
    exact sound_assemble rfl hf hf₁ hg₁ fun field h => by cases field <;> cases h
  | .returnStatement info expression, f, hf => by
    refine sound_atDepth options depth info hf ?_
    refine (sound_convertOptional options (depth + 1) .expression expression [] hf hf (.refl f)).bind
      fun e f₁ hf₁ hg₁ => ?_
    exact sound_assemble (by simp [Node.children, Payload.children, Payload.childFields]) hf hf₁ hg₁
      fun field h => by cases field <;> first | rfl | cases h
  | .block info statements, f, hf => by
    refine sound_atDepth options depth info hf ?_
    refine (sound_convertAll options (depth + 1) .statement statements [] hf hf (.refl f)).bind
      fun xs f₁ hf₁ hg₁ => ?_
    exact sound_assemble (by simp [Node.children, Payload.children, Payload.childFields]) hf hf₁ hg₁
      fun field h => by cases field <;> cases h
  | .ifStatement info condition thenStatement elseStatement, f, hf => by
    refine sound_atDepth options depth info hf ?_
    refine (sound_child .expression condition.info hf hf (.refl f)
      (sound_convertAt options (depth + 1) condition hf)).bind fun c f₁ hf₁ hg₁ => ?_
    refine (sound_child .statement thenStatement.info hf hf₁ hg₁
      (sound_convertAt options (depth + 1) thenStatement hf₁)).bind fun t f₂ hf₂ hg₂ => ?_
    refine (sound_convertOptional options (depth + 1) .statement elseStatement [c, t] hf hf₂
      hg₂).bind fun e f₃ hf₃ hg₃ => ?_
    exact sound_assemble (by simp [Node.children, Payload.children, Payload.childFields]) hf hf₃ hg₃
      fun field h => by cases field <;> first | rfl | cases h

theorem sound_convertAll (options : ConversionOptions) (depth : Nat) (expected : Category) :
    ∀ (sources : List SourceTree) (before : List Handle) {f₀ f : Forest}, f₀.WellFormed →
      f.WellFormed → f₀.Grows f before →
      (convertAll options depth expected before sources).Sound f₀ f fun xs => before ++ xs
  | [], before, f₀, f, _, hf, hg => .pure hf (by rw [List.append_nil]; exact hg)
  | source :: rest, before, f₀, f, hf₀, hf, hg => by
    refine (sound_child expected source.info hf₀ hf hg
      (sound_convertAt options depth source hf)).bind fun h f₁ hf₁ hg₁ => ?_
    exact (sound_convertAll options depth expected rest (before ++ [h]) hf₀ hf₁ hg₁).map
      fun xs => by rw [List.append_assoc]; rfl

theorem sound_convertOptional (options : ConversionOptions) (depth : Nat) (expected : Category) :
    ∀ (source : Option SourceTree) (before : List Handle) {f₀ f : Forest}, f₀.WellFormed →
      f.WellFormed → f₀.Grows f before →
      (convertOptional options depth expected before source).Sound f₀ f fun o => before ++ o.toList
  | none, before, f₀, f, _, hf, hg => .pure hf (by rw [Option.toList_none, List.append_nil]; exact hg)
  | some source, before, f₀, f, hf₀, hf, hg =>
    (sound_child expected source.info hf₀ hf hg (sound_convertAt options depth source hf)).map
      fun _ => rfl

end

end Conversion

end SyntaxForest
