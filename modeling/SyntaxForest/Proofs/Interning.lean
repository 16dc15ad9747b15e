import SyntaxForest.Types.Table

/-! # References stay

A table only grows: the types that are stored keep their places (`Extends`). A request for a type
that was answered before is answered by the same reference in every later table, and stores nothing
(`Settled.extends`, `resolve_settled`). -/

namespace SyntaxForest.TypeTable

variable {t t' t'' : TypeTable}

/-- **A later table**: the types of `t` are stored in `t'` at the same places. -/
structure Extends (t t' : TypeTable) : Prop where
  name : t'.name = t.name
  bindings : ∃ more, t'.bindings = t.bindings ++ more

namespace Extends

theorem refl (t : TypeTable) : t.Extends t := ⟨rfl, #[], by simp⟩

theorem trans (h : t.Extends t') (h' : t'.Extends t'') : t.Extends t'' := by
  obtain ⟨xs, hx⟩ := h.bindings
  obtain ⟨ys, hy⟩ := h'.bindings
  exact ⟨h'.name.trans h.name, xs ++ ys, by rw [hy, hx, Array.append_assoc]⟩

theorem index? (h : t.Extends t') {b : TypeBinding} {i : Nat} (hi : t.index? b = some i) :
    t'.index? b = some i := by
  obtain ⟨more, hm⟩ := h.bindings
  rw [TypeTable.index?] at hi ⊢
  rw [hm, Array.findIdx?_append, hi]; rfl

theorem getD (h : t.Extends t') {i : Nat} (hi : i < t.bindings.size) (b : TypeBinding) :
    t'.bindings.getD i b = t.bindings.getD i b := by
  obtain ⟨more, hm⟩ := h.bindings
  simp only [Array.getD_eq_getD_getElem?]
  rw [hm, Array.getElem?_append_left hi]

end Extends

/-! ### Requests -/

/-- A table answers a request for `b` by `r` and stays as it is. -/
def Settled (t : TypeTable) (b : TypeBinding) (r : TypeRef) : Prop := t.intern b = (r, t)

theorem Settled.extends {b : TypeBinding} {r : TypeRef} (hb : t.Settled b r) (h : t.Extends t') :
    t'.Settled b r := by
  unfold Settled intern at hb ⊢
  cases hi : t.index? b with
  | none =>
    rw [hi] at hb
    have hpush : t.bindings.push b = t.bindings := congrArg (fun a => a.2.bindings) hb
    have hsize := congrArg Array.size hpush
    simp at hsize
  | some i =>
    rw [hi] at hb
    have hlt : i < t.bindings.size := (Array.findIdx?_eq_some_iff_getElem.mp hi).1
    rw [h.index? hi]
    simp only [Prod.mk.injEq, and_true] at hb ⊢
    rw [h.name, h.getD hlt, hb]

theorem extends_intern (t : TypeTable) (b : TypeBinding) : t.Extends (t.intern b).2 := by
  unfold intern
  cases t.index? b with
  | none => exact ⟨rfl, #[b], by simp⟩
  | some i => exact .refl t

/-- **A type that was asked for is settled.** -/
theorem settled_intern (t : TypeTable) (b : TypeBinding) :
    (t.intern b).2.Settled b (t.intern b).1 := by
  unfold Settled
  cases hi : t.index? b with
  | some i => simp only [intern, hi]
  | none =>
    have hnew : (⟨t.name, t.bindings.push b⟩ : TypeTable).index? b = some t.bindings.size := by
      have hnone : t.bindings.findIdx? (fun c => c.shape = b.shape) = none := hi
      simp [index?, Array.findIdx?_push, hnone]
    simp [intern, hi, hnew, size]

/-! ### Texts -/

theorem extends_arrays (element : TypeRef) : ∀ (n : Nat) (t : TypeTable),
    t.Extends (t.arrays element n).2
  | 0, t => .refl t
  | n + 1, t => (extends_arrays element n t).trans (extends_intern _ _)

theorem extends_resolve (t : TypeTable) (text : String) : t.Extends (t.resolve text).2 :=
  (t.extends_intern _).trans (extends_arrays _ _ _)

/-- Array types that were asked for are settled, with all their element types. -/
theorem arrays_settled (element : TypeRef) : ∀ (n : Nat) {t t' : TypeTable},
    (t.arrays element n).2.Extends t' → t'.arrays element n = ((t.arrays element n).1, t')
  | 0, _, _, _ => rfl
  | n + 1, t, t', h => by
    have hinner := arrays_settled element n ((extends_intern _ _).trans h)
    have houter := (settled_intern (t.arrays element n).2 (.array (t.arrays element n).1.place
      (t.arrays element n).1.binding)).extends h
    simp only [arrays, hinner]
    exact houter

/-- **A text is resolved to the same reference in all later tables**, which stay as they are. -/
theorem resolve_settled {text : String} (h : (t.resolve text).2.Extends t') :
    t'.resolve text = ((t.resolve text).1, t') := by
  have hbase := (t.settled_intern (TypeText.read text).baseBinding).extends
    ((extends_arrays (t.intern (TypeText.read text).baseBinding).1 _ _).trans h)
  have harrays := arrays_settled (t.intern (TypeText.read text).baseBinding).1 _ h
  simp only [resolve]
  rw [hbase]
  exact harrays

end SyntaxForest.TypeTable
