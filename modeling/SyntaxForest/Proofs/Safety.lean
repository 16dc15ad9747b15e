import SyntaxForest.Proofs.Copying
import SyntaxForest.Proofs.Moving

/-! # Safe edits

An edit is safe if it leaves a well-formed forest behind, whether it is accepted or refused, and if a
refusal leaves the forest as it looked when the operation began. All operations on one node or one
field are safe: those that check first and change afterwards because a refused check changes nothing,
and those that copy first because they free what they copied. -/

namespace SyntaxForest

open Forest

namespace Edit

variable {α β : Type} {f₀ f f' : Forest}

/-! ### Running an edit -/

theorem bind_of_ok {x : Edit β} {k : β → Edit α} {b : β} (hx : x f = .ok b f') :
    (x >>= k) f = k b f' := by simp only [bind, EStateM.bind, hx]

theorem bind_of_error {x : Edit β} {k : β → Edit α} {e : TreeError} (hx : x f = .error e f') :
    (x >>= k) f = .error e f' := by simp only [bind, EStateM.bind, hx]

theorem ask_of_ok {q : Forest → Except TreeError α} {a : α} (hq : q f = .ok a) :
    ask q f = .ok a f := by simp only [ask, hq]

theorem ask_of_error {q : Forest → Except TreeError α} {e : TreeError} (hq : q f = .error e) :
    ask q f = .error e f := by simp only [ask, hq]

theorem onRefusal_of_ok {x : Edit α} {g : Forest → Forest} {a : α} (hx : x f = .ok a f') :
    onRefusal x g f = .ok a f' := by simp only [onRefusal, hx]

theorem onRefusal_of_error {x : Edit α} {g : Forest → Forest} {e : TreeError}
    (hx : x f = .error e f') : onRefusal x g f = .error e (g f') := by simp only [onRefusal, hx]

theorem bind_eq_ok {x : Edit β} {k : β → Edit α} {a : α} :
    (x >>= k) f = .ok a f' ↔ ∃ b f₁, x f = .ok b f₁ ∧ k b f₁ = .ok a f' := by
  rcases hx : x f with ⟨b, f₁⟩ | ⟨e, f₁⟩
  · rw [bind_of_ok hx]
    constructor
    · exact fun h => ⟨b, f₁, rfl, h⟩
    · rintro ⟨_, _, h, hk⟩; cases h; exact hk
  · rw [bind_of_error hx]; simp

theorem ask_eq_ok {q : Forest → Except TreeError α} {a : α} :
    ask q f = .ok a f' ↔ q f = .ok a ∧ f' = f := by
  rcases hq : q f with e | b
  · rw [ask_of_error hq]; simp
  · rw [ask_of_ok hq]; simp [eq_comm]

theorem ask_bind_eq_ok {q : Forest → Except TreeError β} {k : β → Edit α} {a : α} :
    (ask q >>= k) f = .ok a f' ↔ ∃ b, q f = .ok b ∧ k b f = .ok a f' := by
  rcases hq : q f with e | b
  · rw [bind_of_error (ask_of_error hq)]; simp
  · rw [bind_of_ok (ask_of_ok hq)]; simp

theorem onRefusal_eq_ok {x : Edit α} {g : Forest → Forest} {a : α} :
    onRefusal x g f = .ok a f' ↔ x f = .ok a f' := by
  rcases hx : x f with ⟨b, f₁⟩ | ⟨e, f₁⟩
  · rw [onRefusal_of_ok hx]
  · rw [onRefusal_of_error hx]; simp

/-! ### Safety -/

/-- **A safe edit**, run on `f` in an operation that began on `f₀`. -/
structure Safe (x : Edit α) (f₀ f : Forest) : Prop where
  accepted : ∀ {a f'}, x f = .ok a f' → f'.WellFormed
  refused : ∀ {e f'}, x f = .error e f' → f'.WellFormed ∧ f₀.Alike f'

namespace Safe

theorem of_eq_ok {x : Edit α} {a : α} (hx : x f = .ok a f') (hf : f'.WellFormed) : x.Safe f₀ f where
  accepted h := by rw [hx] at h; cases h; exact hf
  refused h := by rw [hx] at h; cases h

theorem of_eq_error {x : Edit α} {e : TreeError} (hx : x f = .error e f') (hf : f'.WellFormed)
    (ha : f₀.Alike f') : x.Safe f₀ f where
  accepted h := by rw [hx] at h; cases h
  refused h := by rw [hx] at h; cases h; exact ⟨hf, ha⟩

theorem of_eq {x y : Edit α} (hxy : x f = y f') (hy : y.Safe f₀ f') : x.Safe f₀ f where
  accepted h := hy.accepted (hxy ▸ h)
  refused h := hy.refused (hxy ▸ h)

theorem throw (hf : f.WellFormed) (e : TreeError) : (throw e : Edit α).Safe f f :=
  of_eq_error rfl hf (.refl f)

theorem change {g : Forest → Forest} (hf : (g f).WellFormed) : (Edit.change g).Safe f₀ f :=
  of_eq_ok rfl hf

theorem ask_bind {q : Forest → Except TreeError β} {k : β → Edit α} (hf : f.WellFormed)
    (hk : ∀ b, q f = .ok b → (k b).Safe f f) : (ask q >>= k).Safe f f := by
  rcases hq : q f with e | b
  · exact of_eq_error (bind_of_error (ask_of_error hq)) hf (.refl f)
  · exact of_eq (bind_of_ok (ask_of_ok hq)) (hk b hq)

theorem bind_pure {x : Edit β} (hx : x.Safe f₀ f) (g : β → α) :
    (x >>= fun b => Pure.pure (g b)).Safe f₀ f := by
  rcases hr : x f with ⟨b, f'⟩ | ⟨e, f'⟩
  · exact of_eq_ok (bind_of_ok hr) (hx.accepted hr)
  · obtain ⟨hf, ha⟩ := hx.refused hr
    exact of_eq_error (bind_of_error hr) hf ha

/-- **What has grown is freed** if the rest is refused. -/
theorem onRefusal {x : Edit α} {roots : List Handle} (hf₀ : f₀.WellFormed) (hg : f₀.Grows f roots)
    (hx : x.Safe f f) : (onRefusal x fun f => f.freeSubtrees roots).Safe f₀ f := by
  rcases hr : x f with ⟨a, f'⟩ | ⟨e, f'⟩
  · exact of_eq_ok (onRefusal_of_ok hr) (hx.accepted hr)
  · obtain ⟨hf', ha⟩ := hx.refused hr
    have hg' := hg.congr ha
    exact of_eq_error (onRefusal_of_error hr) (hg'.wellFormed_free hf') (hg'.alike_free hf₀ hf')

end Safe

/-! ### Building -/

theorem safe_build (hf : f.WellFormed) {node : Node}
    (ho : ∀ field, node.payload.slot? field = some none → node.payload.isOptional field) :
    (build node).Safe f f :=
  .ask_bind hf fun _ hc => .of_eq_ok rfl (hf.store (storable_of_checkChildren hc ho))

theorem safe_store_leaf (hf : f.WellFormed) {node : Node}
    (hc : node.payload.childFields = []) (hs : ∀ field, node.payload.slot? field = none) :
    (store node).Safe f f :=
  .of_eq_ok rfl (hf.store (storable_leaf hc hs))

theorem safe_setType (hf : f.WellFormed) (h : Handle) (type? : Option TypeRef) :
    (setType h type?).Safe f f :=
  .ask_bind hf fun _ _ => .change (hf.annotate h (fun n => { n with type? }) fun _ => rfl)

theorem safe_setSpan (hf : f.WellFormed) (h : Handle) (span? : Option Span) :
    (setSpan h span?).Safe f f :=
  .ask_bind hf fun _ _ => .change (hf.annotate h (fun n => { n with span? }) fun _ => rfl)

/-! ### Slots -/

theorem safe_setSlot (hf : f.WellFormed) (p : Handle) (field : Field) (c : Handle) :
    (setSlot p field c).Safe f f := by
  refine .ask_bind hf fun o ho => .ask_bind hf fun _ hi => ?_
  obtain ⟨l, hl, hs⟩ := slot_eq_ok.mp ho
  obtain ⟨ha, hu⟩ := (checkInstallable_eq_ok hf (contains_iff.mpr ⟨l, hl⟩)).mp hi
  exact .of_eq_ok rfl ((exchange_setSlot hl hs ha hu).wellFormed hf (hf.books.refill _ _ _ _))

theorem take_eq_ok {p : Handle} {field : Field} {o : Option Handle} {f' : Forest}
    (h : take p field f = .ok o f') : ∃ l, f.live? p = some l ∧
      l.node.payload.slot? field = some o ∧ l.node.payload.isOptional field ∧
      f' = f.refill p (fun q => q.setSlot field none) [] o.toList := by
  rcases hq : f.optionalSlot p field with e | o'
  · rw [take, bind_of_error (ask_of_error hq)] at h; cases h
  · obtain ⟨l, hl, hs, hopt⟩ := optionalSlot_eq_ok.mp hq
    rw [take, bind_of_ok (ask_of_ok hq)] at h
    cases h
    exact ⟨l, hl, hs, hopt, rfl⟩

theorem safe_take (hf : f.WellFormed) (p : Handle) (field : Field) : (take p field).Safe f f := by
  refine .ask_bind hf fun o ho => ?_
  obtain ⟨l, hl, hs, hopt⟩ := optionalSlot_eq_ok.mp ho
  exact .of_eq_ok rfl ((exchange_take hl hs hopt).wellFormed hf (hf.books.refill _ _ _ _))

theorem safe_clearSlot (hf : f.WellFormed) (p : Handle) (field : Field) :
    (clearSlot p field).Safe f f := by
  have htake := safe_take hf p field
  rcases hr : take p field f with ⟨o, f'⟩ | ⟨e, f'⟩
  · obtain ⟨l, hl, hs, hopt, rfl⟩ := take_eq_ok hr
    have hf' := htake.accepted hr
    refine .of_eq_ok (bind_of_ok hr) ?_
    -- the occupant is a root by now
    change (freeSubtrees _ _).WellFormed
    rw [freeSubtrees_eq]
    refine wellFormed_freeAll hf'.books (hf'.ownership.loosen fun c hc q ho => ?_)
    exact ((exchange_take hl hs hopt).owns_iff.mp ho).1 hc
  · obtain ⟨hf', ha⟩ := htake.refused hr
    exact .of_eq_error (bind_of_error hr) hf' ha

theorem safe_setLeftOperand (hf : f.WellFormed) (h operand : Handle) :
    (setLeftOperand h operand).Safe f f :=
  .ask_bind hf fun _ _ => safe_setSlot hf h .leftOperand operand

theorem safe_setRightOperand (hf : f.WellFormed) (h operand : Handle) :
    (setRightOperand h operand).Safe f f :=
  .ask_bind hf fun _ _ => safe_setSlot hf h .rightOperand operand

/-! ### Sequences -/

theorem safe_insert (hf : f.WellFormed) (p : Handle) (field : Field) (i : Nat) (c : Handle) :
    (insert p field i c).Safe f f := by
  refine .ask_bind hf fun xs hx => ?_
  split_ifs with hi
  · exact .throw hf _
  · refine .ask_bind hf fun _ hc => ?_
    obtain ⟨l, hl, hs⟩ := seq_eq_ok.mp hx
    obtain ⟨ha, hu⟩ := (checkInstallable_eq_ok hf (contains_iff.mpr ⟨l, hl⟩)).mp hc
    exact .of_eq_ok rfl ((exchange_insert hf hl hs (Nat.le_of_not_lt hi) ha hu).wellFormed hf
      (hf.books.refill _ _ _ _))

theorem safe_push (hf : f.WellFormed) (p : Handle) (field : Field) (c : Handle) :
    (push p field c).Safe f f :=
  .ask_bind hf fun _ _ => safe_insert hf p field _ c

theorem safe_remove (hf : f.WellFormed) (p : Handle) (field : Field) (i : Nat) :
    (remove p field i).Safe f f := by
  refine .ask_bind hf fun xs hx => ?_
  split
  · exact .throw hf _
  · next c hi =>
    obtain ⟨l, hl, hs⟩ := seq_eq_ok.mp hx
    exact .of_eq_ok rfl ((exchange_remove hf hl hs hi).wellFormed hf (hf.books.refill _ _ _ _))

theorem remove_eq_ok {p c : Handle} {field : Field} {i : Nat} (h : remove p field i f = .ok c f') :
    ∃ l xs, f.live? p = some l ∧ l.node.payload.seq? field = some xs ∧ xs[i]? = some c ∧
      f' = f.refill p (fun q => q.setSeq field (xs.eraseIdx i)) [] [c] := by
  rcases hq : f.seq p field with e | xs
  · rw [remove, bind_of_error (ask_of_error hq)] at h; cases h
  · obtain ⟨l, hl, hs⟩ := seq_eq_ok.mp hq
    rw [remove, bind_of_ok (ask_of_ok hq)] at h
    rcases hi : xs[i]? with _ | d
    · simp only [hi] at h; cases h
    · simp only [hi] at h; cases h
      exact ⟨l, xs, hl, hs, hi, rfl⟩

theorem safe_clearSeq (hf : f.WellFormed) (p : Handle) (field : Field) :
    (clearSeq p field).Safe f f := by
  refine .ask_bind hf fun xs hx => ?_
  obtain ⟨l, hl, hs⟩ := seq_eq_ok.mp hx
  have hex := exchange_fillSeq hl hs List.nodup_nil (fun c hc => by simp at hc)
  exact .of_eq_ok rfl (hex.wellFormed hf (hf.books.refill _ _ _ _))

/-! ### Moves -/

theorem safe_replace (hf : f.WellFormed) (old new : Handle) : (replace old new).Safe f f := by
  refine .ask_bind hf fun p _ => .ask_bind hf fun place hp => .ask_bind hf fun _ hc => ?_
  obtain ⟨l, hl, hs⟩ := placeOf_eq_ok.mp hp
  obtain ⟨ha, hu⟩ := (checkInstallable_eq_ok hf (contains_iff.mpr ⟨l, hl⟩)).mp hc
  obtain ⟨_, _, hx⟩ := exchange_replace hf hl hs ha hu
  exact .of_eq_ok rfl (hx.wellFormed hf (hf.books.refill _ _ _ _))

theorem replace_eq_refill (hf : f.WellFormed) {old new : Handle} {f' : Forest}
    (h : replace old new f = .ok () f') : ∃ p l place, f.owns p old ∧ f.live? p = some l ∧
      l.node.payload.placeOf? old = some place ∧ f.Attachable place.field new ∧ ¬ f.Under p new ∧
      f' = f.refill p (fun q => q.putAt place new) [new] [old] := by
  obtain ⟨p, hp, h⟩ := ask_bind_eq_ok.mp h
  obtain ⟨place, hs, h⟩ := ask_bind_eq_ok.mp h
  obtain ⟨_, hc, h⟩ := ask_bind_eq_ok.mp h
  obtain ⟨l, hl, hstands⟩ := placeOf_eq_ok.mp hs
  obtain ⟨ha, hu⟩ := (checkInstallable_eq_ok hf (contains_iff.mpr ⟨l, hl⟩)).mp hc
  cases h
  exact ⟨p, l, place, ownerOf_eq_ok.mp hp, hl, hstands, ha, hu, rfl⟩

theorem replace_eq_ok (hf : f.WellFormed) {old new : Handle} {f' : Forest}
    (h : replace old new f = .ok () f') : ∃ p field l₁ l₂,
      Exchange f f' p field (l₁ ++ old :: l₂) (l₁ ++ new :: l₂) [new] [old] [] := by
  obtain ⟨p, l, place, -, hl, hstands, ha, hu, rfl⟩ := replace_eq_refill hf h
  obtain ⟨l₁, l₂, hx⟩ := exchange_replace hf hl hstands ha hu
  exact ⟨p, place.field, l₁, l₂, hx⟩

theorem safe_detach (hf : f.WellFormed) (h : Handle) : (detach h).Safe f f := by
  refine .ask_bind hf fun p _ => .ask_bind hf fun place _ => ?_
  split
  · exact (safe_remove hf _ _ _).bind_pure _
  · exact (safe_take hf _ _).bind_pure _

theorem safe_discard (hf : f.WellFormed) (h : Handle) : (discard h).Safe f f := by
  refine .ask_bind hf fun o ho => ?_
  split
  · exact .throw hf _
  · obtain ⟨⟨n, _⟩, hl, rfl⟩ := owner?_eq_ok.mp ho
    exact .change (wellFormed_freeAll hf.books (hf.ownership.loosen_root hl))

/-! ### Copies -/

theorem safe_copy (hf : f.WellFormed) (h : Handle) : (copy h).Safe f f := by
  by_cases hh : f.contains h
  · obtain ⟨c, f', hr, hf', -⟩ := copy_eq_ok hf hh
    exact .of_eq_ok hr hf'
  · exact .of_eq_error (copy_eq_error (not_contains_iff.mp hh)) hf (.refl f)

theorem safe_copySlotFrom (hf : f.WellFormed) (p : Handle) (field : Field) (source : Handle)
    (sourceField : Field) : (copySlotFrom p field source sourceField).Safe f f := by
  refine .ask_bind hf fun optional _ => .ask_bind hf fun o ho => ?_
  cases o with
  | none =>
    dsimp only
    split_ifs
    · exact safe_clearSlot hf p field
    · exact .throw hf _
  | some c =>
    obtain ⟨k, f', hr, hf', hg, -⟩ := copy_eq_ok hf (contains_of_slot hf ho)
    exact .of_eq (bind_of_ok hr) (.onRefusal hf hg (safe_setSlot hf' p field k))

theorem copyAll_cons_of_ok {field : Field} {h c : Handle} {done hs : List Handle}
    (hc : copy h f = .ok c f') (ha : f'.Attachable field c) :
    copyAll field done (h :: hs) f = copyAll field (done ++ [c]) hs f' := by
  rw [copyAll, bind_of_ok (onRefusal_of_ok hc),
    bind_of_ok (onRefusal_of_ok (ask_of_ok (checkAttachable_eq_ok.mpr ha)))]

theorem copyAll_cons_of_error {field : Field} {h c : Handle} {done hs : List Handle} {e : TreeError}
    (hc : copy h f = .ok c f') (he : f'.checkAttachable field c = .error e) :
    copyAll field done (h :: hs) f = .error e (f'.freeSubtrees (c :: done)) := by
  rw [copyAll, bind_of_ok (onRefusal_of_ok hc), bind_of_error (onRefusal_of_error (ask_of_error he))]

/-- **Several copies** are made, all of them roots that may stand in the field, or none is left. -/
theorem copyAll_cases (hf : f.WellFormed) (field : Field) : ∀ (hs done : List Handle) {g : Forest},
    (∀ h ∈ hs, f.contains h) → g.WellFormed → f.Grows g done →
      (∃ cs g', copyAll field done hs g = .ok (done ++ cs) g' ∧ g'.WellFormed ∧
        f.Grows g' (done ++ cs) ∧ f.Copies g' hs cs ∧ (∀ c ∈ cs, g'.Attachable field c) ∧
        g.KeepsNodes g') ∨
      ∃ e g', copyAll field done hs g = .error e g' ∧ g'.WellFormed ∧ f.Alike g'
  | [], done, g, _, hg, hgrow => by
    refine Or.inl ⟨[], g, ?_, hg, ?_, .nil, by simp, .refl g⟩
    · rw [List.append_nil]; rfl
    · rw [List.append_nil]; exact hgrow
  | h :: hs, done, g, hh, hg, hgrow => by
    have hlive := hh h (by simp)
    obtain ⟨c, g₁, hrun, hg₁, hgrow₁, hcopy₁⟩ := copy_eq_ok hg (hgrow.contains hlive)
    have hall := hgrow.trans hgrow₁
    rcases hc : g₁.checkAttachable field c with e | _
    · have hperm : (done ++ [c]).Perm (c :: done) := List.perm_append_comm
      have hall' := hall.perm hperm
      exact Or.inr ⟨e, _, copyAll_cons_of_error hrun hc, hall'.wellFormed_free hg₁,
        hall'.alike_free hf hg₁⟩
    · have ha := checkAttachable_eq_ok.mp hc
      rw [copyAll_cons_of_ok hrun ha]
      have hrest := copyAll_cases hf field hs (done ++ [c]) (fun k hk => hh k (by simp [hk])) hg₁ hall
      refine hrest.imp ?_ id
      rintro ⟨cs, g', hrun', hg', hgrow', hcopy', hatt, hkeep⟩
      rw [List.append_assoc] at hrun' hgrow'
      have hcopy := (hcopy₁.of_grows hf hgrow (by simpa using hlive)).mono hkeep
      refine ⟨c :: cs, g', hrun', hg', hgrow', hcopy.append hcopy', ?_,
        hgrow₁.keepsNodes.trans hkeep⟩
      rintro k hk
      rcases List.mem_cons.mp hk with rfl | hk
      · obtain ⟨n, hn, hcat⟩ := ha
        obtain ⟨m, hm⟩ := hgrow'.root (r := k) (by simp)
        obtain ⟨l', hl', he⟩ := hkeep k _ hn
        rw [hm] at hl'; cases hl'
        exact ⟨m, hm, by rw [show m = n from he]; exact hcat⟩
      · exact hatt k hk

/-- The payload may be written after the owners are set. -/
theorem alike_claim_fillSeq (f : Forest) (p : Handle) (field : Field) (cs : List Handle) :
    (f.refill p (fun q => q.setSeq field cs) cs []).Alike ((f.claim p cs).fillSeq p field cs) := by
  intro k
  simp only [refill, disown, List.foldl_nil, fillSeq, live?_claim, live?_updatePayload]
  by_cases hk : k = p
  · subst hk
    by_cases hc : k ∈ cs <;> simp [hc, Function.comp_def]
  · simp [hk]

theorem exchange_copies {g : Forest} {p : Handle} {l : LiveNode} {field : Field}
    {xs cs : List Handle} (hf : f.WellFormed) (hgrow : f.Grows g cs) (hl : f.live? p = some l)
    (hs : l.node.payload.seq? field = some xs) (hatt : ∀ c ∈ cs, g.Attachable field c) :
    g.Exchange ((g.claim p cs).fillSeq p field cs) p field xs cs cs [] xs := by
  -- an old node is not under a new root
  have hin : ∀ c ∈ cs, g.Attachable field c ∧ ¬ g.Under p c := by
    refine fun c hc => ⟨hatt c hc, fun hu => not_contains_iff.mpr (hgrow.fresh hc) ?_⟩
    exact hgrow.contains_of_under hf (contains_iff.mpr ⟨l, hl⟩) hu
  exact (exchange_fillSeq (hgrow.live?_of_live? hl) hs hgrow.nodup hin).congr
    (alike_claim_fillSeq g p field cs)

theorem safe_copySeqFrom (hf : f.WellFormed) (p : Handle) (field : Field) (source : Handle)
    (sourceField : Field) : (copySeqFrom p field source sourceField).Safe f f := by
  refine .ask_bind hf fun previous hp => .ask_bind hf fun elements he => ?_
  rcases copyAll_cases hf field elements [] (contains_of_seq hf he) hf (.refl f) with
    ⟨cs, g, hrun, hg, hgrow, -, hatt, -⟩ | ⟨e, g, hrun, hg, ha⟩
  · obtain ⟨l, hl, hs⟩ := seq_eq_ok.mp hp
    exact .of_eq_ok (bind_of_ok hrun) ((exchange_copies hf hgrow hl hs hatt).wellFormed hg
      ((hg.books.claim p cs).updatePayload p _))
  · exact .of_eq_error (bind_of_error hrun) hg ha

end Edit

end SyntaxForest
