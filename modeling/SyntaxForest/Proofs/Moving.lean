import SyntaxForest.Proofs.Exchange
import SyntaxForest.Proofs.Freeing
import SyntaxForest.Proofs.Queries

/-! # Operations as exchanges

Each operation that moves nodes puts another content in one field, sets the owner of the nodes that
come in and removes the owner of those that go out: `refill`. The lemmas `exchange_…` say which
exchange it is, given what the checks of the operation make sure of. -/

namespace SyntaxForest.Forest

variable {f f' : Forest} {p c : Handle} {field : Field} {l : LiveNode} {loose : List Handle}

/-- The forest with the payload of `p` changed, `p` as the owner of the nodes that come in, and no
owner for the nodes that go out. -/
def refill (f : Forest) (p : Handle) (change : Payload → Payload) (ins outs : List Handle) : Forest :=
  ((f.updatePayload p change).claim p ins).disown outs

theorem Bookkept.refill (hb : f.Bookkept) (p : Handle) (change : Payload → Payload)
    (ins outs : List Handle) : (f.refill p change ins outs).Bookkept :=
  ((hb.updatePayload p change).claim p ins).disown outs

theorem live?_refill (hl : f.live? p = some l) (change : Payload → Payload) (ins outs : List Handle)
    (k : Handle) : (f.refill p change ins outs).live? k =
      f.exchanged p (change l.node.payload) ins outs k := by
  simp only [refill, live?_disown, live?_claim, live?_updatePayload, exchanged]
  by_cases hk : k = p
  · subst hk
    rw [hl]
    by_cases ho : k ∈ outs <;> by_cases hi : k ∈ ins <;> simp [ho, hi]
  · by_cases ho : k ∈ outs <;> by_cases hi : k ∈ ins <;> simp [hk, ho, hi, Function.comp_def]

theorem contains_refill (hl : f.live? p = some l) (change : Payload → Payload)
    (ins outs : List Handle) (k : Handle) :
    (f.refill p change ins outs).contains k = f.contains k := by
  rw [contains, live?_refill hl, exchanged, Option.isSome_map]; rfl

/-- **An exchange keeps forests well-formed**, when the loose nodes are freed. -/
theorem Exchange.wellFormed {xs ys ins outs : List Handle}
    (hx : Exchange f f' p field xs ys ins outs loose) (hf : f.WellFormed) (hb : f'.Bookkept) :
    (f'.freeSubtrees loose).WellFormed := by
  rw [freeSubtrees_eq]; exact wellFormed_freeAll hb (hx.ownership hf.ownership)

theorem Exchange.congr {xs ys ins outs : List Handle} {f'' : Forest}
    (hx : Exchange f f' p field xs ys ins outs loose) (h : f'.Alike f'') :
    Exchange f f'' p field xs ys ins outs loose := by
  obtain ⟨l, payload, hl, hr, hview⟩ := hx.refilled
  exact { hx with refilled := ⟨l, payload, hl, hr, fun k => (h k).trans (hview k)⟩ }

theorem WellFormed.owns_of_content (hf : f.WellFormed) (hl : f.live? p = some l)
    (hc : c ∈ l.node.payload.content field) : f.owns p c :=
  (hf.ownership.child hl (Payload.mem_children.mpr ⟨field, hc⟩)).1

theorem WellFormed.nodup_seq (hf : f.WellFormed) (hl : f.live? p = some l) {xs : List Handle}
    (hs : l.node.payload.seq? field = some xs) : xs.Nodup := by
  rw [← Payload.content_of_seq? hs]
  exact (Payload.nodup_children.mp (hf.ownership.nodup hl)).1 field

theorem WellFormed.not_mem_of_attachable (hf : f.WellFormed) (hl : f.live? p = some l)
    {g : Field} (ha : f.Attachable g c) : c ∉ l.node.payload.content field := fun hm => by
  obtain ⟨n, hn, -⟩ := ha
  exact not_owns_of_root hn (hf.owns_of_content hl hm)

theorem contains_of_slot (hf : f.WellFormed) (hs : f.slot p field = .ok (some c)) : f.contains c := by
  obtain ⟨l, hl, hs⟩ := slot_eq_ok.mp hs
  exact contains_of_owns (hf.owns_of_content hl (Payload.mem_content_of_slot? hs))

theorem contains_of_seq (hf : f.WellFormed) {xs : List Handle}
    (hs : f.seq p field = .ok xs) : ∀ c ∈ xs, f.contains c := by
  obtain ⟨l, hl, hs⟩ := seq_eq_ok.mp hs
  rw [← Payload.content_of_seq? hs]
  exact fun c hc => contains_of_owns (hf.owns_of_content hl hc)

/-! ### Slots -/

theorem exchange_setSlot (hl : f.live? p = some l) {o : Option Handle}
    (hs : l.node.payload.slot? field = some o) (ha : f.Attachable field c) (hu : ¬ f.Under p c) :
    Exchange f (f.refill p (fun q => q.setSlot field (some c)) [c] []) p field o.toList [c] [c] []
      o.toList where
  refilled := ⟨l, _, hl, Payload.refilled_setSlot hs (some c), live?_refill hl _ _ _⟩
  nodup := List.nodup_singleton c
  comes _ hy := Or.inl hy
  goes _ hx := Or.inr (Or.inr hx)
  ins d hd := by
    obtain rfl := List.mem_singleton.mp hd
    exact ⟨hd, ha, hu⟩
  outs _ hd := by simp at hd
  loose _ hd := hd
  occupied h := by simp at h

theorem exchange_take (hl : f.live? p = some l) {o : Option Handle}
    (hs : l.node.payload.slot? field = some o) (hopt : l.node.payload.isOptional field) :
    Exchange f (f.refill p (fun q => q.setSlot field none) [] o.toList) p field o.toList [] []
      o.toList [] where
  refilled := ⟨l, _, hl, Payload.refilled_setSlot hs none, live?_refill hl _ _ _⟩
  nodup := List.nodup_nil
  comes _ hy := by simp at hy
  goes _ hx := Or.inr (Or.inl hx)
  ins _ hd := by simp at hd
  outs _ hd := hd
  loose _ hd := by simp at hd
  occupied _ m hm _ _ := by rw [hl] at hm; cases hm; exact hopt

/-- The occupant that was taken out may go on to be freed. -/
theorem exchange_clearSlot (hl : f.live? p = some l) {o : Option Handle}
    (hs : l.node.payload.slot? field = some o) (hopt : l.node.payload.isOptional field) :
    Exchange f (f.refill p (fun q => q.setSlot field none) [] o.toList) p field o.toList [] []
      o.toList o.toList :=
  { exchange_take hl hs hopt with
    comes := fun _ hy => by simp at hy
    goes := fun _ hx => .inr (.inr hx)
    loose := fun _ hd => hd }

/-! ### Sequences -/

theorem exchange_insert (hf : f.WellFormed) (hl : f.live? p = some l) {xs : List Handle}
    (hs : l.node.payload.seq? field = some xs) {i : Nat} (hi : i ≤ xs.length)
    (ha : f.Attachable field c) (hu : ¬ f.Under p c) :
    Exchange f (f.refill p (fun q => q.setSeq field (xs.insertIdx i c)) [c] []) p field xs
      (xs.insertIdx i c) [c] [] [] where
  refilled := ⟨l, _, hl, Payload.refilled_setSeq hs _, live?_refill hl _ _ _⟩
  nodup := by
    have hc : c ∉ xs := by
      rw [← Payload.content_of_seq? hs]; exact hf.not_mem_of_attachable hl ha
    exact (List.perm_insertIdx c xs hi).nodup_iff.mpr
      (List.nodup_cons.mpr ⟨hc, hf.nodup_seq hl hs⟩)
  comes y hy := by
    rcases (List.mem_insertIdx hi).mp hy with rfl | hy
    · exact Or.inl (List.mem_singleton_self y)
    · exact Or.inr ⟨hy, by simp, by simp⟩
  goes _ hx := Or.inl ((List.mem_insertIdx hi).mpr (Or.inr hx))
  ins d hd := by
    obtain rfl := List.mem_singleton.mp hd
    exact ⟨(List.mem_insertIdx hi).mpr (Or.inl rfl), ha, hu⟩
  outs _ hd := by simp at hd
  loose _ hd := by simp at hd
  occupied _ m hm o ho := by
    rw [hl] at hm; cases hm
    rw [Payload.seq?_eq_none_of_slot? ho] at hs; cases hs

theorem mem_eraseIdx {xs : List Handle} (hnd : xs.Nodup) {i : Nat} (hi : xs[i]? = some c)
    {x : Handle} : x ∈ xs.eraseIdx i ↔ x ≠ c ∧ x ∈ xs := by
  obtain ⟨hlt, rfl⟩ := List.getElem?_eq_some_iff.mp hi
  rw [← hnd.erase_getElem i hlt, hnd.mem_erase_iff]

theorem exchange_remove (hf : f.WellFormed) (hl : f.live? p = some l) {xs : List Handle}
    (hs : l.node.payload.seq? field = some xs) {i : Nat} (hi : xs[i]? = some c) :
    Exchange f (f.refill p (fun q => q.setSeq field (xs.eraseIdx i)) [] [c]) p field xs
      (xs.eraseIdx i) [] [c] [] where
  refilled := ⟨l, _, hl, Payload.refilled_setSeq hs _, live?_refill hl _ _ _⟩
  nodup := (hf.nodup_seq hl hs).eraseIdx i
  comes y hy := by
    obtain ⟨hne, hy⟩ := (mem_eraseIdx (hf.nodup_seq hl hs) hi).mp hy
    exact Or.inr ⟨hy, by simp [hne], by simp⟩
  goes x hx := by
    by_cases hne : x = c
    · exact Or.inr (Or.inl (by simp [hne]))
    · exact Or.inl ((mem_eraseIdx (hf.nodup_seq hl hs) hi).mpr ⟨hne, hx⟩)
  ins _ hd := by simp at hd
  outs d hd := by
    obtain rfl := List.mem_singleton.mp hd
    exact List.mem_of_getElem? hi
  loose _ hd := by simp at hd
  occupied _ m hm o ho := by
    rw [hl] at hm; cases hm
    rw [Payload.seq?_eq_none_of_slot? ho] at hs; cases hs

theorem exchange_fillSeq (hl : f.live? p = some l) {xs : List Handle}
    (hs : l.node.payload.seq? field = some xs) {cs : List Handle} (hnd : cs.Nodup)
    (hc : ∀ c ∈ cs, f.Attachable field c ∧ ¬ f.Under p c) :
    Exchange f (f.refill p (fun q => q.setSeq field cs) cs []) p field xs cs cs [] xs where
  refilled := ⟨l, _, hl, Payload.refilled_setSeq hs _, live?_refill hl _ _ _⟩
  nodup := hnd
  comes _ hy := Or.inl hy
  goes _ hx := Or.inr (Or.inr hx)
  ins c hm := ⟨hm, hc c hm⟩
  outs _ hd := by simp at hd
  loose _ hd := hd
  occupied _ m hm o ho := by
    rw [hl] at hm; cases hm
    rw [Payload.seq?_eq_none_of_slot? ho] at hs; cases hs

/-! ### Replacing -/

theorem exchange_replace (hf : f.WellFormed) (hl : f.live? p = some l) {place : Place}
    {old new : Handle} (hs : l.node.payload.placeOf? old = some place)
    (ha : f.Attachable place.field new) (hu : ¬ f.Under p new) :
    ∃ l₁ l₂, Exchange f (f.refill p (fun q => q.putAt place new) [new] [old]) p place.field
      (l₁ ++ old :: l₂) (l₁ ++ new :: l₂) [new] [old] [] := by
  obtain ⟨l₁, l₂, hr⟩ := (Payload.stands_of_placeOf? hs).refilled_putAt
  have hcontent := (hr new).before
  have hmem : ∀ a y, y ∈ l₁ ++ a :: l₂ ↔ y = a ∨ y ∈ l₁ ++ l₂ := fun a y =>
    List.perm_middle.mem_iff.trans List.mem_cons
  have hnd : (l₁ ++ old :: l₂).Nodup := by
    rw [← hcontent]; exact (Payload.nodup_children.mp (hf.ownership.nodup hl)).1 _
  have hnew : new ∉ l₁ ++ old :: l₂ := by rw [← hcontent]; exact hf.not_mem_of_attachable hl ha
  rw [List.nodup_middle, List.nodup_cons] at hnd
  rw [hmem, not_or] at hnew
  refine ⟨l₁, l₂, ⟨⟨l, _, hl, hr new, live?_refill hl _ _ _⟩, ?_, ?_, ?_, ?_, ?_, by simp, by simp⟩⟩
  · rw [List.nodup_middle, List.nodup_cons]
    exact ⟨hnew.2, hnd.2⟩
  · intro y hy
    rcases (hmem new y).mp hy with rfl | hy
    · exact Or.inl (List.mem_singleton_self y)
    · refine Or.inr ⟨(hmem old y).mpr (Or.inr hy), fun ho => ?_, by simp⟩
      obtain rfl := List.mem_singleton.mp ho
      exact hnd.1 hy
  · intro x hx
    rcases (hmem old x).mp hx with rfl | hx
    · exact Or.inr (Or.inl (List.mem_singleton_self x))
    · exact Or.inl ((hmem new x).mpr (Or.inr hx))
  · intro d hd
    obtain rfl := List.mem_singleton.mp hd
    exact ⟨by simp, ha, hu⟩
  · intro d hd
    obtain rfl := List.mem_singleton.mp hd
    simp

end SyntaxForest.Forest
