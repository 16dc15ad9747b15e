import SyntaxForest.Forest.Moves
import Mathlib.Data.List.Nodup
import Mathlib.Data.List.Pairwise

/-! # The content of a field

A field of a payload is a slot, a sequence, or not there; `content` is what it holds. The children
are the contents of all fields, one field after another (`childFields_eq`).

Every change of a payload puts another content in one field and leaves the others: `Refilled`, for
slots (`refilled_setSlot`), for sequences (`refilled_setSeq`) and for the place where a child stands
(`Stands.refilled_putAt`). -/

namespace SyntaxForest.Payload

variable {p p' : Payload} {field : Field}

/-! ### Writing a field -/

theorem kind_setSlot (p : Payload) (field : Field) (o : Option Handle) :
    (p.setSlot field o).kind = p.kind := by
  cases p <;> cases field <;> rfl

theorem kind_setSeq (p : Payload) (field : Field) (xs : List Handle) :
    (p.setSeq field xs).kind = p.kind := by
  cases p <;> cases field <;> rfl

theorem isOptional_eq_of_kind_eq (h : p'.kind = p.kind) (g : Field) :
    p'.isOptional g = p.isOptional g := by
  cases p <;> cases p' <;> cases h <;> cases g <;> rfl

theorem slot?_setSlot (p : Payload) (field g : Field) (o : Option Handle) :
    (p.setSlot field o).slot? g =
      if g = field then (p.slot? g).map fun _ => o else p.slot? g := by
  cases p <;> cases field <;> cases g <;> rfl

theorem seq?_setSlot (p : Payload) (field g : Field) (o : Option Handle) :
    (p.setSlot field o).seq? g = p.seq? g := by
  cases p <;> cases field <;> cases g <;> rfl

theorem slot?_setSeq (p : Payload) (field g : Field) (xs : List Handle) :
    (p.setSeq field xs).slot? g = p.slot? g := by
  cases p <;> cases field <;> cases g <;> rfl

theorem seq?_setSeq (p : Payload) (field g : Field) (xs : List Handle) :
    (p.setSeq field xs).seq? g = if g = field then (p.seq? g).map fun _ => xs else p.seq? g := by
  cases p <;> cases field <;> cases g <;> rfl

theorem seq?_eq_none_of_slot? {o : Option Handle} (h : p.slot? field = some o) :
    p.seq? field = none := by
  cases p <;> cases field <;> first | rfl | cases h

theorem slot?_eq_none_of_seq? {xs : List Handle} (h : p.seq? field = some xs) :
    p.slot? field = none := by
  cases p <;> cases field <;> first | rfl | cases h

/-! ### A payload without its children -/

/-- The payload without its children: the kind, and the literal, the identifier or the operator. -/
def bare : Payload → Payload
  | parenthesized _ => parenthesized none
  | chain o _ _ _ => chain o none none []
  | conditional .. => conditional none none none
  | expressionStatement _ => expressionStatement none
  | returnStatement _ => returnStatement none
  | block _ => block []
  | ifStatement .. => ifStatement none none none
  | p => p

theorem bare_setSlot (p : Payload) (field : Field) (o : Option Handle) :
    (p.setSlot field o).bare = p.bare := by
  cases p <;> cases field <;> rfl

theorem bare_setSeq (p : Payload) (field : Field) (xs : List Handle) :
    (p.setSeq field xs).bare = p.bare := by
  cases p <;> cases field <;> rfl

/-! ### Contents -/

@[simp] theorem labelled_nil (field : Field) : labelled field [] = [] := rfl

@[simp] theorem labelled_singleton (field : Field) (h : Handle) : labelled field [h] = [(field, h)] :=
  rfl

@[simp] theorem map_snd_labelled (field : Field) (xs : List Handle) :
    (labelled field xs).map Prod.snd = xs := by
  simp [labelled, Function.comp_def]

/-- The handles that a field holds: the occupant of a slot, or the elements of a sequence. -/
def content (p : Payload) (field : Field) : List Handle :=
  (p.slot? field).join.toList ++ (p.seq? field).getD []

theorem content_of_slot? {o : Option Handle} (h : p.slot? field = some o) :
    p.content field = o.toList := by
  simp [content, h, seq?_eq_none_of_slot? h]

theorem mem_content_of_slot? {c : Handle} (h : p.slot? field = some (some c)) :
    c ∈ p.content field := by
  simp [content_of_slot? h]

theorem content_of_seq? {xs : List Handle} (h : p.seq? field = some xs) :
    p.content field = xs := by
  simp [content, h, slot?_eq_none_of_seq? h]

theorem mem_fields (field : Field) : field ∈ Field.all := by cases field <;> decide

/-- **The children with their fields are the contents of the fields.** -/
theorem childFields_eq (p : Payload) :
    p.childFields = Field.all.flatMap fun field => labelled field (p.content field) := by
  cases p <;> simp [childFields, Field.all, content, slot?, seq?, labelled]

theorem children_eq (p : Payload) : p.children = Field.all.flatMap p.content := by
  simp [children, childFields_eq, List.map_flatMap]

theorem mem_childFields {c : Handle} : (field, c) ∈ p.childFields ↔ c ∈ p.content field := by
  simp only [childFields_eq, List.mem_flatMap, labelled, List.mem_map, Prod.mk.injEq]
  constructor
  · rintro ⟨_, -, _, hc, rfl, rfl⟩; exact hc
  · intro hc; exact ⟨field, mem_fields field, c, hc, rfl, rfl⟩

theorem mem_children {c : Handle} : c ∈ p.children ↔ ∃ field, c ∈ p.content field := by
  simp [children_eq, mem_fields]

theorem nodup_children : p.children.Nodup ↔
    (∀ g, (p.content g).Nodup) ∧ ∀ g g', g ≠ g' → (p.content g).Disjoint (p.content g') := by
  rw [children_eq, List.nodup_flatMap]
  have : Std.Symm (Function.onFun List.Disjoint p.content) := ⟨fun _ _ h _ ha hb => h hb ha⟩
  refine and_congr (by simp [mem_fields]) ⟨fun h g g' hne => ?_, fun h => ?_⟩
  · exact h.forall (mem_fields g) (mem_fields g') hne
  · exact (show Field.all.Nodup by decide).imp fun hne => h _ _ hne

/-! ### Another content -/

/-- The second payload has the content `ys` in a field where the first has `xs`, and is the same
otherwise. -/
structure Refilled (p p' : Payload) (field : Field) (xs ys : List Handle) : Prop where
  before : p.content field = xs
  after : p'.content field = ys
  others : ∀ g, g ≠ field → p'.content g = p.content g
  kind : p'.kind = p.kind
  emptySlot : ∀ g, p'.slot? g = some none →
    p.slot? g = some none ∨ g = field ∧ ys = [] ∧ ∃ o, p.slot? g = some o

theorem refilled_setSlot {o : Option Handle} (h : p.slot? field = some o) (o' : Option Handle) :
    Refilled p (p.setSlot field o') field o.toList o'.toList where
  before := content_of_slot? h
  after := content_of_slot? (by rw [slot?_setSlot, if_pos rfl, h]; rfl)
  others g hg := by rw [content, content, slot?_setSlot, seq?_setSlot, if_neg hg]
  kind := kind_setSlot _ _ _
  emptySlot g hg := by
    rw [slot?_setSlot] at hg
    split_ifs at hg with he
    · rw [he, h] at hg
      exact Or.inr ⟨he, by simpa using hg, o, he ▸ h⟩
    · exact Or.inl hg

theorem refilled_setSeq {xs : List Handle} (h : p.seq? field = some xs) (ys : List Handle) :
    Refilled p (p.setSeq field ys) field xs ys where
  before := content_of_seq? h
  after := content_of_seq? (by rw [seq?_setSeq, if_pos rfl, h]; rfl)
  others g hg := by rw [content, content, slot?_setSeq, seq?_setSeq, if_neg hg]
  kind := kind_setSeq _ _ _
  emptySlot g hg := by rw [slot?_setSeq] at hg; exact Or.inl hg

/-! ### The place of a child -/

/-- A child stands at a place: in a slot, or at an index of a sequence. -/
def Stands (p : Payload) (child : Handle) (place : Place) : Prop :=
  match place.index? with
  | some index => ∃ xs, p.seq? place.field = some xs ∧ xs[index]? = some child
  | none => p.slot? place.field = some (some child)

theorem stands_of_placeOf? {child : Handle} {place : Place} (h : p.placeOf? child = some place) :
    p.Stands child place := by
  simp only [placeOf?, fieldOf?, Option.map_eq_some_iff] at h
  obtain ⟨g, ⟨⟨_, c⟩, hfind, rfl⟩, rfl⟩ := h
  obtain rfl : c = child := by simpa using List.find?_some hfind
  have hc := mem_childFields.mp (List.mem_of_find?_eq_some hfind)
  dsimp only
  unfold Stands
  rcases hseq : p.seq? _ with _ | xs
  · simpa [content, hseq, Option.join_eq_some_iff] using hc
  · rw [content_of_seq? hseq] at hc
    rcases hi : xs.idxOf? c with _ | i
    · exact absurd hc (List.idxOf?_eq_none_iff.mp hi)
    · obtain ⟨hlt, he, -⟩ := List.idxOf?_eq_some_iff.mp hi
      simp [hi, hlt, he]

theorem exists_placeOf? {child : Handle} (h : child ∈ p.children) :
    ∃ place, p.placeOf? child = some place := by
  obtain ⟨entry, he, rfl⟩ := List.mem_map.mp h
  have hfind : (p.childFields.find? fun e => e.2 = entry.2).isSome :=
    List.find?_isSome.mpr ⟨entry, he, decide_eq_true rfl⟩
  obtain ⟨e, he⟩ := Option.isSome_iff_exists.mp hfind
  exact ⟨_, by rw [placeOf?, fieldOf?, he]; rfl⟩

theorem Stands.refilled_putAt {child : Handle} {place : Place} (h : p.Stands child place) :
    ∃ l₁ l₂, ∀ new, Refilled p (p.putAt place new) place.field (l₁ ++ child :: l₂)
      (l₁ ++ new :: l₂) := by
  unfold Stands at h
  unfold putAt
  rcases hi : place.index? with _ | i
  · rw [hi] at h
    exact ⟨[], [], fun new => refilled_setSlot h (some new)⟩
  · rw [hi] at h
    obtain ⟨xs, hxs, hx⟩ := h
    obtain ⟨hlt, rfl⟩ := List.getElem?_eq_some_iff.mp hx
    refine ⟨xs.take i, xs.drop (i + 1), fun new => ?_⟩
    have hset := List.set_eq_take_append_cons_drop (l := xs) (i := i) (a := new)
    rw [if_pos hlt] at hset
    rw [← List.drop_eq_getElem_cons hlt, List.take_append_drop, ← hset]
    simpa only [hxs, Option.getD_some] using refilled_setSeq hxs (xs.set i new)

end SyntaxForest.Payload
