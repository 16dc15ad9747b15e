import SyntaxForest.Proofs.Aliasing
import SyntaxForest.Proofs.Releasing

/-! # Accepted edits

An edit that is accepted has passed its checks, and then did one thing. For every edit there is one
lemma that says both: what holds of the node and the field, and which forest is left
(`setSlot_eq_ok`, `insert_eq_ok` and so on). Edits that copy first say what has grown
(`copySlotFrom_eq_ok`, `copySeqFrom_eq_ok`). -/

namespace SyntaxForest

open Forest

namespace Edit

variable {f f' : Forest} {p h c source : Handle} {field sourceField : Field}

/-! ### Building -/

theorem build_eq_ok {node : Node}
    (ho : ∀ field, node.payload.slot? field = some none → node.payload.isOptional field)
    (hr : build node f = .ok h f') :
    f.Storable node ∧ h = f.nextHandle ∧ f' = f.store node := by
  obtain ⟨_, hc, hr⟩ := ask_bind_eq_ok.mp hr
  cases hr
  exact ⟨storable_of_checkChildren hc ho, rfl, rfl⟩

theorem setType_eq_ok {type? : Option TypeRef} (hr : setType h type? f = .ok () f') :
    f' = f.annotate h fun n => { n with type? } := by
  obtain ⟨_, -, hr⟩ := ask_bind_eq_ok.mp hr
  cases hr
  rfl

theorem setSpan_eq_ok {span? : Option Span} (hr : setSpan h span? f = .ok () f') :
    f' = f.annotate h fun n => { n with span? } := by
  obtain ⟨_, -, hr⟩ := ask_bind_eq_ok.mp hr
  cases hr
  rfl

/-! ### Slots -/

theorem setSlot_eq_ok (hf : f.WellFormed) (hr : setSlot p field c f = .ok () f') : ∃ l o,
    f.live? p = some l ∧ l.node.payload.slot? field = some o ∧ f.Attachable field c ∧
      ¬ f.Under p c ∧
      f' = (f.refill p (fun q => q.setSlot field (some c)) [c] []).freeSubtrees o.toList := by
  obtain ⟨o, ho, hr⟩ := ask_bind_eq_ok.mp hr
  obtain ⟨_, hc, hr⟩ := ask_bind_eq_ok.mp hr
  obtain ⟨l, hl, hs⟩ := slot_eq_ok.mp ho
  obtain ⟨ha, hu⟩ := (checkInstallable_eq_ok hf (contains_iff.mpr ⟨l, hl⟩)).mp hc
  cases hr
  exact ⟨l, o, hl, hs, ha, hu, rfl⟩

theorem clearSlot_eq_ok (hr : clearSlot p field f = .ok () f') : ∃ l o, f.live? p = some l ∧
    l.node.payload.slot? field = some o ∧ l.node.payload.isOptional field ∧
      f' = (f.refill p (fun q => q.setSlot field none) [] o.toList).freeSubtrees o.toList := by
  obtain ⟨o, f₁, htake, hr⟩ := bind_eq_ok.mp hr
  obtain ⟨l, hl, hs, hopt, rfl⟩ := take_eq_ok htake
  cases hr
  exact ⟨l, o, hl, hs, hopt, rfl⟩

theorem setLeftOperand_eq_ok (hr : setLeftOperand h c f = .ok () f') :
    setSlot h .leftOperand c f = .ok () f' := by
  obtain ⟨_, -, hr⟩ := ask_bind_eq_ok.mp hr
  exact hr

theorem setRightOperand_eq_ok (hr : setRightOperand h c f = .ok () f') :
    setSlot h .rightOperand c f = .ok () f' := by
  obtain ⟨_, -, hr⟩ := ask_bind_eq_ok.mp hr
  exact hr

/-! ### Sequences -/

theorem insert_eq_ok (hf : f.WellFormed) {i : Nat} (hr : insert p field i c f = .ok () f') :
    ∃ l xs, f.live? p = some l ∧ l.node.payload.seq? field = some xs ∧ i ≤ xs.length ∧
      f.Attachable field c ∧ ¬ f.Under p c ∧
      f' = f.refill p (fun q => q.setSeq field (xs.insertIdx i c)) [c] [] := by
  obtain ⟨xs, hx, hr⟩ := ask_bind_eq_ok.mp hr
  split_ifs at hr with hi
  · cases hr
  obtain ⟨_, hc, hr⟩ := ask_bind_eq_ok.mp hr
  obtain ⟨l, hl, hs⟩ := seq_eq_ok.mp hx
  obtain ⟨ha, hu⟩ := (checkInstallable_eq_ok hf (contains_iff.mpr ⟨l, hl⟩)).mp hc
  cases hr
  exact ⟨l, xs, hl, hs, Nat.le_of_not_lt hi, ha, hu, rfl⟩

theorem push_eq_ok (hr : push p field c f = .ok () f') :
    ∃ xs, f.seq p field = .ok xs ∧ insert p field xs.length c f = .ok () f' :=
  ask_bind_eq_ok.mp hr

theorem clearSeq_eq_ok (hr : clearSeq p field f = .ok () f') : ∃ l xs, f.live? p = some l ∧
    l.node.payload.seq? field = some xs ∧
      f' = (f.refill p (fun q => q.setSeq field []) [] []).freeSubtrees xs := by
  obtain ⟨xs, hx, hr⟩ := ask_bind_eq_ok.mp hr
  obtain ⟨l, hl, hs⟩ := seq_eq_ok.mp hx
  cases hr
  exact ⟨l, xs, hl, hs, rfl⟩

/-! ### Moves -/

theorem detach_eq_ok (hr : detach h f = .ok () f') : ∃ p field, f.owns p h ∧
    ((∃ i, remove p field i f = .ok h f') ∨ take p field f = .ok (some h) f') := by
  obtain ⟨p, hp, hr⟩ := ask_bind_eq_ok.mp hr
  obtain ⟨place, hplace, hr⟩ := ask_bind_eq_ok.mp hr
  obtain ⟨l, hl, hplace⟩ := placeOf_eq_ok.mp hplace
  have hstands := Payload.stands_of_placeOf? hplace
  refine ⟨p, place.field, ownerOf_eq_ok.mp hp, ?_⟩
  unfold Payload.Stands at hstands
  cases hi : place.index? with
  | some i =>
    rw [hi] at hr hstands
    obtain ⟨c, f₁, hremove, hr⟩ := bind_eq_ok.mp hr
    obtain ⟨m, ys, hm, hys, hc, -⟩ := remove_eq_ok hremove
    obtain ⟨xs, hxs, hx⟩ := hstands
    cases hl.symm.trans hm
    cases hxs.symm.trans hys
    cases hx.symm.trans hc
    cases hr
    exact .inl ⟨i, hremove⟩
  | none =>
    rw [hi] at hr hstands
    obtain ⟨o, f₁, htake, hr⟩ := bind_eq_ok.mp hr
    obtain ⟨m, hm, ho, -⟩ := take_eq_ok htake
    cases hl.symm.trans hm
    cases hstands.symm.trans ho
    cases hr
    exact .inr htake

theorem discard_eq_ok (hr : discard h f = .ok () f') :
    ∃ n, f.live? h = some ⟨n, none⟩ ∧ f' = f.freeSubtrees [h] := by
  obtain ⟨o, ho, hr⟩ := ask_bind_eq_ok.mp hr
  obtain ⟨⟨n, _⟩, hl, rfl⟩ := owner?_eq_ok.mp ho
  rename_i owner?
  cases owner? with
  | some owner => cases hr
  | none =>
    cases hr
    exact ⟨n, hl, rfl⟩

/-! ### Copies -/

theorem timesEmptied_copyNodes (i : Nat) : ∀ (hs stack : List Handle) {cs : List Handle}
    {f f' : Forest}, copyNodes stack hs f = .ok cs f' → f'.timesEmptied i = f.timesEmptied i
  | [], _, _, _, _, hr => by cases hr; rfl
  | h :: hs, stack, _, f, _, hr => by
    obtain ⟨⟨node, rest⟩, f₁, hcopy, hr⟩ := bind_eq_ok.mp hr
    obtain ⟨c, f₂, hstore, hr⟩ := bind_eq_ok.mp hr
    obtain ⟨-, rfl⟩ := ask_eq_ok.mp (onRefusal_eq_ok.mp hcopy)
    cases hstore
    rw [timesEmptied_copyNodes i hs _ hr, timesEmptied_store]

theorem timesEmptied_copy {k : Handle} (hr : copy h f = .ok k f') (i : Nat) :
    f'.timesEmptied i = f.timesEmptied i := by
  obtain ⟨order, -, hr⟩ := ask_bind_eq_ok.mp hr
  obtain ⟨cs, f₁, hcopy, hr⟩ := bind_eq_ok.mp hr
  cases cs with
  | nil => cases hr
  | cons root rest =>
    cases hr
    exact timesEmptied_copyNodes i _ _ hcopy

theorem timesEmptied_copyAll (i : Nat) : ∀ (hs done : List Handle) {cs : List Handle}
    {f f' : Forest}, copyAll field done hs f = .ok cs f' → f'.timesEmptied i = f.timesEmptied i
  | [], _, _, _, _, hr => by cases hr; rfl
  | h :: hs, done, _, f, _, hr => by
    obtain ⟨c, f₁, hcopy, hr⟩ := bind_eq_ok.mp hr
    obtain ⟨_, f₂, hcheck, hrest⟩ := bind_eq_ok.mp hr
    obtain ⟨-, rfl⟩ := ask_eq_ok.mp (onRefusal_eq_ok.mp hcheck)
    rw [timesEmptied_copyAll i hs _ hrest, timesEmptied_copy (onRefusal_eq_ok.mp hcopy)]

/-- What is made when the occupant of a slot is copied: the copy is installed, or, if there is no
occupant, the slot is cleared. -/
theorem copySlotFrom_eq_ok (hf : f.WellFormed)
    (hr : copySlotFrom p field source sourceField f = .ok () f') :
    ∃ l, f.live? p = some l ∧ ∃ o, f.slot source sourceField = .ok o ∧
      (o = none ∧ clearSlot p field f = .ok () f' ∨
        ∃ c k g, o = some c ∧ f.Grows g [k] ∧ g.WellFormed ∧ f.Copies g [c] [k] ∧
          (∀ i, g.timesEmptied i = f.timesEmptied i) ∧ setSlot p field k g = .ok () f') := by
  obtain ⟨optional, hopt, hr⟩ := ask_bind_eq_ok.mp hr
  obtain ⟨o, ho, hr⟩ := ask_bind_eq_ok.mp hr
  obtain ⟨l, -, hl, -⟩ := slotIsOptional_eq_ok.mp hopt
  refine ⟨l, hl, o, ho, ?_⟩
  cases o with
  | none =>
    cases optional with
    | true => exact .inl ⟨rfl, hr⟩
    | false => cases hr
  | some c =>
    obtain ⟨k, g, hcopy, hr⟩ := bind_eq_ok.mp hr
    obtain ⟨k', g', hcopy', hg, hgrow, hcopies⟩ := copy_eq_ok hf (contains_of_slot hf ho)
    cases hcopy.symm.trans hcopy'
    exact .inr ⟨c, k, g, rfl, hgrow, hg, hcopies, timesEmptied_copy hcopy,
      onRefusal_eq_ok.mp hr⟩

/-- What is made when the elements of a sequence are copied: new trees, which become the elements
of the other sequence. -/
theorem copySeqFrom_eq_ok (hf : f.WellFormed)
    (hr : copySeqFrom p field source sourceField f = .ok () f') : ∃ l xs hs cs g,
      f.live? p = some l ∧ l.node.payload.seq? field = some xs ∧
      f.seq source sourceField = .ok hs ∧ f.Grows g cs ∧ g.WellFormed ∧ f.Copies g hs cs ∧
      (∀ i, g.timesEmptied i = f.timesEmptied i) ∧ (∀ c ∈ cs, g.Attachable field c) ∧
      f' = ((g.claim p cs).fillSeq p field cs).freeSubtrees xs := by
  obtain ⟨xs, hx, hr⟩ := ask_bind_eq_ok.mp hr
  obtain ⟨hs, he, hr⟩ := ask_bind_eq_ok.mp hr
  obtain ⟨cs, g, hcopy, hr⟩ := bind_eq_ok.mp hr
  obtain ⟨l, hl, hseq⟩ := seq_eq_ok.mp hx
  cases hr
  refine ⟨l, xs, hs, cs, g, hl, hseq, he, ?_⟩
  rcases copyAll_cases hf field hs [] (contains_of_seq hf he) hf (.refl f) with
    ⟨ds, g', hrun, hg, hgrow, hcopies, hatt, -⟩ | ⟨e, g', hrun, -, -⟩
  · cases hcopy.symm.trans hrun
    exact ⟨hgrow, hg, hcopies, fun i => timesEmptied_copyAll i _ _ hcopy, hatt, rfl⟩
  · cases hcopy.symm.trans hrun

end Edit

end SyntaxForest
