import SyntaxForest.Proofs.Contents

/-! # Rebuilding a payload over other children

Passing the children of a payload through an action is the action on the list of children, followed by
putting the answers in their places: `traverseChildren_eq`. The payload over other children has the
same fields and the same empty slots (`childFields_withChildren`, `slot?_withChildren`). -/

namespace SyntaxForest

namespace Payload

/-- An occupied slot over the first of the listed handles, and the handles that are left. -/
def refillSlot : Option Handle → List Handle → Option Handle × List Handle
  | some _, c :: cs => (some c, cs)
  | o, cs => (o, cs)

/-- The payload over other children, given in the order of traversal. -/
def withChildren : Payload → List Handle → Payload
  | parenthesized e, cs => parenthesized (refillSlot e cs).1
  | chain o l r _, cs =>
    let (l, cs) := refillSlot l cs
    let (r, cs) := refillSlot r cs
    chain o l r cs
  | conditional c t e, cs =>
    let (c, cs) := refillSlot c cs
    let (t, cs) := refillSlot t cs
    conditional c t (refillSlot e cs).1
  | expressionStatement e, cs => expressionStatement (refillSlot e cs).1
  | returnStatement e, cs => returnStatement (refillSlot e cs).1
  | block _, cs => block cs
  | ifStatement c t e, cs =>
    let (c, cs) := refillSlot c cs
    let (t, cs) := refillSlot t cs
    ifStatement c t (refillSlot e cs).1
  | p, _ => p

/-- **Passing the children through an action** is the action on the list of children. -/
theorem traverseChildren_eq {m : Type → Type} [Monad m] [LawfulMonad m] (f : Handle → m Handle)
    (p : Payload) : p.traverseChildren f = p.withChildren <$> p.children.mapM f := by
  cases p with
  | chain o l r xs =>
    rw [children, childFields, List.map_append, List.map_append]
    cases l <;> cases r <;>
      simp only [map_snd_labelled, Option.toList, List.nil_append, List.cons_append,
        List.mapM_cons, map_bind, bind_map_left, traverseChildren, withChildren, refillSlot,
        Option.mapM_none, Option.mapM_some, pure_bind, bind_pure_comp, Functor.map_map]
    rfl
  | parenthesized e | expressionStatement e | returnStatement e =>
    cases e <;>
      simp [traverseChildren, withChildren, children, childFields, refillSlot]
  | block xs => simp [traverseChildren, children, childFields]; rfl
  | conditional c t e | ifStatement c t e =>
    cases c <;> cases t <;> cases e <;>
      simp [traverseChildren, withChildren, children, childFields, labelled, refillSlot]
  | _ => simp [traverseChildren, withChildren, children, childFields]

theorem kind_withChildren (p : Payload) (cs : List Handle) : (p.withChildren cs).kind = p.kind := by
  cases p <;> rfl

theorem slot?_withChildren {p : Payload} {cs : List Handle} (h : cs.length = p.children.length)
    (g : Field) : (p.withChildren cs).slot? g = some none ↔ p.slot? g = some none := by
  have hslot : ∀ o : Option Handle, ∀ cs : List Handle, (refillSlot o cs).1 = none ↔ o = none := by
    rintro (_ | h) (_ | ⟨c, cs⟩) <;> simp [refillSlot]
  cases p <;> cases g <;> simp [withChildren, slot?, hslot]

theorem zip_labelled {field : Field} : ∀ {xs cs : List Handle}, cs.length = xs.length →
    ((labelled field xs).map Prod.fst).zip cs = labelled field cs
  | [], [], _ => rfl
  | _ :: xs, c :: cs, h => by
    have ih : ((labelled field xs).map Prod.fst).zip cs = labelled field cs :=
      zip_labelled (by simpa using h)
    simpa [labelled] using ih

theorem zip_slot (field : Field) (o : Option Handle) (rest : List (Field × Handle))
    (cs : List Handle) (h : cs.length = o.toList.length + rest.length) :
    ((labelled field o.toList ++ rest).map Prod.fst).zip cs =
      labelled field (refillSlot o cs).1.toList ++ (rest.map Prod.fst).zip (refillSlot o cs).2 ∧
      (refillSlot o cs).2.length = rest.length := by
  cases o with
  | none => exact ⟨rfl, by simpa [refillSlot] using h⟩
  | some e =>
    cases cs with
    | nil => simp at h; omega
    | cons c cs => exact ⟨rfl, by simp [refillSlot] at h ⊢; omega⟩

theorem zip_twoSlots (g₁ g₂ : Field) (l r : Option Handle) (rest : List (Field × Handle))
    (cs : List Handle) (h : cs.length = l.toList.length + (r.toList.length + rest.length)) :
    ((labelled g₁ l.toList ++ (labelled g₂ r.toList ++ rest)).map Prod.fst).zip cs =
      labelled g₁ (refillSlot l cs).1.toList ++
        (labelled g₂ (refillSlot r (refillSlot l cs).2).1.toList ++
          (rest.map Prod.fst).zip (refillSlot r (refillSlot l cs).2).2) ∧
      (refillSlot r (refillSlot l cs).2).2.length = rest.length := by
  obtain ⟨e₁, h₁⟩ := zip_slot g₁ l (labelled g₂ r.toList ++ rest) cs
    (by simpa [labelled] using h)
  obtain ⟨e₂, h₂⟩ := zip_slot g₂ r rest (refillSlot l cs).2 (by simpa [labelled] using h₁)
  exact ⟨by rw [e₁, e₂], h₂⟩

theorem zip_lastSlot (field : Field) (o : Option Handle) (cs : List Handle)
    (h : cs.length = o.toList.length) :
    ((labelled field o.toList).map Prod.fst).zip cs = labelled field (refillSlot o cs).1.toList := by
  simpa using (zip_slot field o [] cs (by simpa using h)).1

/-- **The payload over other children** has them in the fields of the old ones. -/
theorem childFields_withChildren {p : Payload} {cs : List Handle}
    (h : cs.length = p.children.length) :
    (p.withChildren cs).childFields = (p.childFields.map Prod.fst).zip cs := by
  rw [children, List.length_map] at h
  cases p with
  | parenthesized e | expressionStatement e | returnStatement e =>
    exact (zip_lastSlot .expression e cs (by simpa [childFields, labelled] using h)).symm
  | chain o l r xs =>
    simp only [childFields, List.append_assoc] at h ⊢
    obtain ⟨e₁, h₁⟩ := zip_twoSlots .leftOperand .rightOperand l r (labelled .extendedOperands xs)
      cs (by simpa [labelled] using h)
    rw [e₁, zip_labelled (by simpa [labelled] using h₁)]
    rfl
  | block xs => exact (zip_labelled (by simpa [childFields, labelled] using h)).symm
  | conditional c t e =>
    simp only [childFields, List.append_assoc] at h ⊢
    obtain ⟨e₁, h₁⟩ := zip_twoSlots .expression .thenExpression c t
      (labelled .elseExpression e.toList) cs (by simpa [labelled] using h)
    rw [e₁, zip_lastSlot .elseExpression e _ (by simpa [labelled] using h₁)]
    rfl
  | ifStatement c t e =>
    simp only [childFields, List.append_assoc] at h ⊢
    obtain ⟨e₁, h₁⟩ := zip_twoSlots .expression .thenStatement c t
      (labelled .elseStatement e.toList) cs (by simpa [labelled] using h)
    rw [e₁, zip_lastSlot .elseStatement e _ (by simpa [labelled] using h₁)]
    rfl
  | _ => rfl

theorem children_withChildren {p : Payload} {cs : List Handle} (h : cs.length = p.children.length) :
    (p.withChildren cs).children = cs := by
  rw [children, childFields_withChildren h, List.map_snd_zip]
  simpa [children] using Nat.le_of_eq h

end Payload

/-- The node over other children. -/
def Node.withChildren (n : Node) (cs : List Handle) : Node :=
  { n with payload := n.payload.withChildren cs }

@[simp] theorem Node.payload_withChildren (n : Node) (cs : List Handle) :
    (n.withChildren cs).payload = n.payload.withChildren cs := rfl

theorem Node.children_withChildren {n : Node} {cs : List Handle}
    (h : cs.length = n.children.length) : (n.withChildren cs).children = cs :=
  Payload.children_withChildren h

end SyntaxForest
