import SyntaxForest.Proofs.Rebuilding

/-! # The descriptions of the children agree

Slots and sequences are the same places for reading and for writing (`writesSlot`, `writesSeq`), the
list of the children with their fields is what the fields hold, and a traversal calls its action on
those children, one after another, up to the first failure (`traversesChildren`). What it returns
is the payload over the answers of the calls: with the same `bare` payload, the same empty slots and
each answer in the place of its child (`Over`). -/

namespace SyntaxForest.Payload

/-! ### Reading and writing a field -/

theorem slot?_eq_none_or (p : Payload) (field : Field) :
    p.slot? field = none ∨ p.seq? field = none := by
  rcases hslot : p.slot? field with _ | o
  · exact .inl rfl
  · exact .inr (seq?_eq_none_of_slot? hslot)

/-- Writing a slot puts the occupant where it is read, and changes nothing else. -/
structure WritesSlot (p p' : Payload) (field : Field) (o : Option Handle) : Prop where
  here : p'.slot? field = (p.slot? field).map fun _ => o
  slots : ∀ g, g ≠ field → p'.slot? g = p.slot? g
  seqs : ∀ g, p'.seq? g = p.seq? g
  bare : p'.bare = p.bare
  absent : p.slot? field = none → p' = p
  same : p.slot? field = some o → p' = p

theorem writesSlot (p : Payload) (field : Field) (o : Option Handle) :
    p.WritesSlot (p.setSlot field o) field o where
  here := by rw [slot?_setSlot, if_pos rfl]
  slots g hg := by rw [slot?_setSlot, if_neg hg]
  seqs g := seq?_setSlot p field g o
  bare := bare_setSlot p field o
  absent := by cases p <;> cases field <;> first | exact fun _ => rfl | exact fun h => nomatch h
  same := by cases p <;> cases field <;> rintro ⟨⟩ <;> rfl

/-- Writing a sequence puts the elements where they are read, and changes nothing else. -/
structure WritesSeq (p p' : Payload) (field : Field) (xs : List Handle) : Prop where
  here : p'.seq? field = (p.seq? field).map fun _ => xs
  seqs : ∀ g, g ≠ field → p'.seq? g = p.seq? g
  slots : ∀ g, p'.slot? g = p.slot? g
  bare : p'.bare = p.bare
  absent : p.seq? field = none → p' = p
  same : p.seq? field = some xs → p' = p

theorem writesSeq (p : Payload) (field : Field) (xs : List Handle) :
    p.WritesSeq (p.setSeq field xs) field xs where
  here := by rw [seq?_setSeq, if_pos rfl]
  seqs g hg := by rw [seq?_setSeq, if_neg hg]
  slots g := slot?_setSeq p field g xs
  bare := bare_setSeq p field xs
  absent := by cases p <;> cases field <;> first | exact fun _ => rfl | exact fun h => nomatch h
  same := by cases p <;> cases field <;> rintro ⟨⟩ <;> rfl

/-! ### Calling an action on one child after another -/

section Calls

variable {ε σ : Type}

/-- An action on handles that has effects and may fail; the effects of a failed call remain. -/
abbrev Action (ε σ : Type) := Handle → ExceptT ε (StateM σ) Handle

/-- The outcome of an action from a state, with the state after it. -/
def outcome {α : Type} (x : ExceptT ε (StateM σ) α) (s : σ) : Except ε α × σ := x.run.run s

/-- The action answers the calls on the handles `hs`, one after another, with `cs`, and takes the
state from `s` to `s'`. -/
inductive Calls (g : Action ε σ) : σ → List Handle → List Handle → σ → Prop
  | nil (s : σ) : Calls g s [] [] s
  | cons {s s' s'' : σ} {h c : Handle} {hs cs : List Handle} :
      outcome (g h) s = (.ok c, s') → Calls g s' hs cs s'' → Calls g s (h :: hs) (c :: cs) s''

variable {g : Action ε σ} {s s' : σ} {hs cs : List Handle}

theorem Calls.length_eq (h : Calls g s hs cs s') : cs.length = hs.length := by
  induction h with
  | nil => rfl
  | cons _ _ ih => simp [ih]

theorem outcome_bind {α β : Type} (x : ExceptT ε (StateM σ) α) (f : α → ExceptT ε (StateM σ) β)
    (s : σ) : outcome (x >>= f) s =
      match outcome x s with
      | (.ok a, s') => outcome (f a) s'
      | (.error e, s') => (.error e, s') := by
  rw [outcome, ExceptT.run_bind, StateT.run_bind]
  rcases hx : outcome x s with ⟨_ | a, s'⟩ <;> (rw [outcome] at hx; rw [hx]; rfl)

theorem outcome_map {α β : Type} (f : α → β) (x : ExceptT ε (StateM σ) α) (s : σ) :
    outcome (f <$> x) s = ((outcome x s).1.map f, (outcome x s).2) := by
  rw [map_eq_pure_bind, outcome_bind]
  rcases outcome x s with ⟨_ | a, s'⟩ <;> rfl

/-- **Calling an action on a list of handles** succeeds if all calls do, and stops at the first that
fails. -/
theorem mapM_outcome (g : Action ε σ) (hs : List Handle) : ∀ s : σ,
    (∃ cs s', Calls g s hs cs s' ∧ outcome (hs.mapM g) s = (.ok cs, s')) ∨
    (∃ before c after cs s' e s'', hs = before ++ c :: after ∧ Calls g s before cs s' ∧
      outcome (g c) s' = (.error e, s'') ∧ outcome (hs.mapM g) s = (.error e, s'')) := by
  induction hs with
  | nil => exact fun s => .inl ⟨[], s, .nil s, rfl⟩
  | cons h hs ih =>
    intro s
    rcases hcall : outcome (g h) s with ⟨e | c, s'⟩
    · refine .inr ⟨[], h, hs, [], s, e, s', rfl, .nil s, hcall, ?_⟩
      rw [List.mapM_cons, outcome_bind, hcall]
    · have hrun : outcome ((h :: hs).mapM g) s = outcome ((c :: ·) <$> hs.mapM g) s' := by
        rw [List.mapM_cons, outcome_bind, hcall, map_eq_pure_bind]
      rw [hrun, outcome_map]
      rcases ih s' with ⟨cs, s'', hcs, hall⟩ | ⟨before, d, after, cs, t, e, t', rfl, hcs, hd, hall⟩
      · exact .inl ⟨c :: cs, s'', .cons hcall hcs, by rw [hall]; rfl⟩
      · exact .inr ⟨h :: before, d, after, c :: cs, t, e, t', rfl, .cons hcall hcs, hd,
          by rw [hall]; rfl⟩

end Calls

/-! ### The payload over the answers -/

/-- The second payload is the first with the handles `cs` for its children, in the order of
traversal. -/
structure Over (p p' : Payload) (cs : List Handle) : Prop where
  bare : p'.bare = p.bare
  emptySlot : ∀ field, p'.slot? field = some none ↔ p.slot? field = some none
  length : cs.length = p.children.length
  childFields : p'.childFields = (p.childFields.map Prod.fst).zip cs

theorem bare_withChildren (p : Payload) (cs : List Handle) : (p.withChildren cs).bare = p.bare := by
  cases p <;> rfl

theorem over_withChildren {p : Payload} {cs : List Handle} (h : cs.length = p.children.length) :
    p.Over (p.withChildren cs) cs where
  bare := bare_withChildren p cs
  emptySlot := slot?_withChildren h
  length := h
  childFields := childFields_withChildren h

/-- A traversal succeeds if the calls on all children do, and returns the payload over their answers;
otherwise it stops at the first call that fails. -/
def TraversesChildren {ε σ : Type} (p : Payload) (g : Action ε σ) (s : σ) : Prop :=
  (∃ p' cs s', Calls g s p.children cs s' ∧ p.Over p' cs ∧
    outcome (p.traverseChildren g) s = (.ok p', s')) ∨
  (∃ before c after cs s' e s'', p.children = before ++ c :: after ∧ Calls g s before cs s' ∧
    outcome (g c) s' = (.error e, s'') ∧ outcome (p.traverseChildren g) s = (.error e, s''))

theorem traversesChildren {ε σ : Type} (p : Payload) (g : Action ε σ) (s : σ) :
    p.TraversesChildren g s := by
  rw [TraversesChildren, traverseChildren_eq, outcome_map]
  rcases mapM_outcome g p.children s with
    ⟨cs, s', hcs, hall⟩ | ⟨before, c, after, cs, s', e, s'', hsplit, hcs, hc, hall⟩
  · exact .inl ⟨_, cs, s', hcs, over_withChildren hcs.length_eq, by rw [hall]; rfl⟩
  · exact .inr ⟨before, c, after, cs, s', e, s'', hsplit, hcs, hc, by rw [hall]; rfl⟩

/-- **The descriptions of the children agree.** The children with their fields are what the slots and
the sequences hold, field by field, and nothing else; writing reaches the places that are read and no
others; and every action is called on exactly the children, in their order, up to the first failure,
its answers standing in their places. -/
theorem descriptions_agree (p : Payload) :
    (p.childFields = Field.all.flatMap fun field =>
      labelled field ((p.slot? field).join.toList ++ (p.seq? field).getD [])) ∧
    (∀ field, p.slot? field = none ∨ p.seq? field = none) ∧
    p.children = p.childFields.map Prod.snd ∧
    (∀ field o, p.WritesSlot (p.setSlot field o) field o) ∧
    (∀ field xs, p.WritesSeq (p.setSeq field xs) field xs) ∧
    (∀ {ε σ : Type} (g : Action ε σ) (s : σ), p.TraversesChildren g s) :=
  ⟨p.childFields_eq, p.slot?_eq_none_or, rfl, p.writesSlot, p.writesSeq, p.traversesChildren⟩

end SyntaxForest.Payload
