import SyntaxForest.Proofs.Installing
import SyntaxForest.Proofs.Swapping

/-! # Moves can be undone

The opposite of a swap gives back the forest as it was, with all its entries and its free list
(`Swap.undo`). So a move is undone by the move that swaps the other way at the same place. That one
is accepted: what went out is a root now, of the category of its field, and the node with the field is
not below it (`Swap.attachable`, `Swap.rootOf_ne`). -/

namespace SyntaxForest

namespace Forest

variable {f f' f'' : Forest} {p q c : Handle} {field field' : Field}
  {before outs ins after before' ins' after' : List Handle}

namespace Swap

variable (hs : f.Swap f' p field before outs ins after) (hf : f.WellFormed)
include hs hf

theorem owns_of_outs (hc : c ∈ outs) : f.owns p c :=
  hs.exchange.owns_of_mem hf.ownership (by simp [hc])

theorem attachable (hc : c ∈ outs) : f'.Attachable field c := by
  have ho : f.owns p c := hs.owns_of_outs hf hc
  have hcp : c ≠ p := fun he => hf.ownership.not_under ho (he ▸ under_refl f c)
  obtain ⟨l, _, hl, -⟩ := hs.exists_target
  obtain ⟨n, hn⟩ := owns_iff.mp ho
  have hmem : c ∈ l.node.payload.content field := by simp [hs.content_before hl, hc]
  have hlive := hs.live?_eq hn
  rw [if_neg hcp, if_pos hc] at hlive
  exact ⟨n, hlive, hf.ownership.category hl hmem hn⟩

theorem rootOf_ne (hc : c ∈ outs) : f'.rootOf p ≠ .ok c := fun hroot => by
  have ho : f.owns p c := hs.owns_of_outs hf hc
  obtain ⟨l, m, -, hm, -⟩ := hs.exists_target
  obtain ⟨n, hn, -⟩ := hs.attachable hf hc
  have hunder : f'.Under p c := (under_iff_rootOf (hs.wellFormed hf) (contains_iff.mpr ⟨m, hm⟩)
    (owner?_eq_ok.mpr ⟨_, hn, rfl⟩)).mpr hroot
  exact hf.ownership.not_under ho
    ((hs.exchange.under_iff hf.ownership (by simp [hc])).mp hunder)

/-- **The opposite swap** gives back the forest as it was. -/
theorem undo (hs' : f'.Swap f'' p field before ins outs after) : f'' = f := by
  refine (hs.arena.trans hs'.arena).eq_of_alike fun k => ?_
  rcases hl : f.live? k with _ | l
  · exact not_contains_iff.mp fun hk => not_contains_iff.mpr hl
      (hs.exchange.contains_iff.mp (hs'.exchange.contains_iff.mp hk))
  have hpayload : k = p → (l.node.payload.withContent field (before ++ ins ++ after)).withContent
      field (before ++ outs ++ after) = l.node.payload := by
    rintro rfl
    rw [Payload.withContent_withContent, ← hs.content_before hl, Payload.withContent_content]
  -- what went out belonged to `p`, and what came in was a root
  have howner : (if k ∈ ins then none else if k ∈ outs then some p else
      if k ∈ outs then none else if k ∈ ins then some p else l.owner?) = l.owner? := by
    split_ifs with hin hout
    · obtain ⟨-, ⟨n, hn, -⟩, -⟩ := hs.exchange.ins k hin
      cases hl.symm.trans hn
      rfl
    · obtain ⟨n, hn⟩ := owns_iff.mp (hs.owns_of_outs hf hout)
      cases hl.symm.trans hn
      rfl
    · rfl
  rw [hs'.live?_eq (hs.live?_eq hl)]
  by_cases hkp : k = p
  · simp only [if_pos hkp, hpayload hkp, howner]
  · simp only [if_neg hkp, howner]

end Swap

/-- A node that came in stands at one place, from where it goes out. -/
theorem Swap.place_unique (hs : f.Swap f' p field before outs [c] after) (hf : f.WellFormed)
    (hs' : f'.Swap f'' q field' before' [c] ins' after') :
    q = p ∧ field' = field ∧ before' = before ∧ after' = after := by
  have hf' : f'.WellFormed := hs.wellFormed hf
  have ho : f'.owns p c := hs.exchange.owns_of_ins hf.ownership (List.mem_singleton_self c)
  obtain rfl := owner_unique (hs'.owns_of_outs hf' (List.mem_singleton_self c)) ho
  obtain ⟨_, m, -, hm, -⟩ := hs.exists_target
  obtain ⟨hnodup, hdisjoint⟩ := Payload.nodup_children.mp (hf'.ownership.nodup hm)
  have hcontent := hs.content_after hm
  have hcontent' := hs'.content_before hm
  obtain rfl : field' = field := by
    by_contra hne
    exact hdisjoint field' field hne (by simp [hcontent']) (by simp [hcontent] : c ∈ _)
  have hnd : (before' ++ [c] ++ after').Nodup := hcontent' ▸ hnodup field'
  have hsame : before' ++ c :: after' = before ++ c :: after := by
    simpa using hcontent'.symm.trans hcontent
  rw [List.append_assoc, List.singleton_append, List.nodup_middle, List.nodup_cons,
    List.mem_append, not_or] at hnd
  obtain ⟨hbefore, -, hafter⟩ := (List.append_cons_inj_of_notMem hnd.1.1 hnd.1.2).mp hsame
  exact ⟨rfl, rfl, hbefore, hafter⟩

end Forest

namespace Edit

open Forest

variable {f f' : Forest} {p c old new : Handle} {field : Field} {i : Nat}

theorem replace_undo (hf : f.WellFormed) (hr : replace old new f = .ok () f') :
    replace new old f' = .ok () f := by
  obtain ⟨p, field, before, after, ho, hs⟩ := swap_replace hf hr
  have hf' : f'.WellFormed := hs.wellFormed hf
  have hnew : f'.owns p new := hs.exchange.owns_of_ins hf.ownership (List.mem_singleton_self new)
  obtain ⟨_, m, -, hm, -⟩ := hs.exists_target
  have hholds : f'.Holds p field new :=
    ⟨_, payload_eq_ok.mpr ⟨m, hm, rfl⟩, by simp [hs.content_after hm]⟩
  have hadmissible : (Installation.replace new old).Admissible f' :=
    ⟨p, field, owner?_eq_some.mpr hnew, hholds, hs.attachable hf (List.mem_singleton_self old),
      hf'.rootOf_eq hnew ▸ hs.rootOf_ne hf (List.mem_singleton_self old)⟩
  obtain ⟨a, f'', hrun⟩ := (Installation.accepted_iff hf' _).mpr hadmissible
  obtain ⟨_, hback, -⟩ := answering_eq_ok.mp hrun
  obtain ⟨q, field', before', after', -, hs'⟩ := swap_replace hf' hback
  obtain ⟨rfl, rfl, rfl, rfl⟩ := hs.place_unique hf hs'
  exact hs.undo hf hs' ▸ hback

theorem take_undo (hf : f.WellFormed) (hr : take p field f = .ok (some c) f') :
    setSlot p field c f' = .ok () f := by
  have hs := swap_take hf hr
  have hf' : f'.WellFormed := hs.wellFormed hf
  obtain ⟨l, hl, hslot, -⟩ := take_eq_ok hr
  have hempty : f'.slot p field = .ok none := hs.slot_after (slot_eq_ok.mpr ⟨l, hl, hslot⟩)
  have hadmissible : (Installation.setSlot p field c).Admissible f' :=
    ⟨Installation.forall_field.mp (demands_slot.answered.mp ⟨_, hempty⟩),
      hs.attachable hf (List.mem_singleton_self c), hs.rootOf_ne hf (List.mem_singleton_self c)⟩
  obtain ⟨a, f'', hrun⟩ := (Installation.accepted_iff hf' _).mpr hadmissible
  obtain ⟨_, hback, -⟩ := answering_eq_ok.mp hrun
  exact hs.undo hf (swap_setSlot hf' hempty hback) ▸ hback

theorem remove_undo (hf : f.WellFormed) (hr : remove p field i f = .ok c f') :
    insert p field i c f' = .ok () f := by
  obtain ⟨before, after, rfl, hs⟩ := swap_remove hf hr
  have hf' : f'.WellFormed := hs.wellFormed hf
  obtain ⟨l, xs, hl, hseq, -⟩ := remove_eq_ok hr
  have hseq' : f'.seq p field = .ok (before ++ [] ++ after) :=
    hs.seq_after (seq_eq_ok.mpr ⟨l, hl, hseq⟩)
  have hadmissible : (Installation.insert p field before.length c).Admissible f' :=
    ⟨Installation.forall_field.mp (demands_seq.answered.mp ⟨_, hseq'⟩), ⟨_, hseq', by simp⟩,
      hs.attachable hf (List.mem_singleton_self c), hs.rootOf_ne hf (List.mem_singleton_self c)⟩
  obtain ⟨a, f'', hrun⟩ := (Installation.accepted_iff hf' _).mpr hadmissible
  obtain ⟨_, hback, -⟩ := answering_eq_ok.mp hrun
  obtain ⟨before', after', hlen, hs'⟩ := swap_insert hf' hback
  obtain ⟨_, m, -, hm, -⟩ := hs.exists_target
  have hsame : before' ++ after' = before ++ after := by
    simpa using (hs'.content_before hm).symm.trans (hs.content_after hm)
  obtain ⟨rfl, rfl⟩ := List.append_inj hsame hlen
  exact hs.undo hf hs' ▸ hback

theorem insert_undo (hf : f.WellFormed) (hr : insert p field i c f = .ok () f') :
    remove p field i f' = .ok c f := by
  obtain ⟨before, after, rfl, hs⟩ := swap_insert hf hr
  have hf' : f'.WellFormed := hs.wellFormed hf
  obtain ⟨l, xs, hl, hseq, -⟩ := insert_eq_ok hf hr
  have hseq' : f'.seq p field = .ok (before ++ [c] ++ after) :=
    hs.seq_after (seq_eq_ok.mpr ⟨l, hl, hseq⟩)
  obtain ⟨f'', hback⟩ : ∃ f'', remove p field before.length f' = .ok c f'' := by
    rw [remove, bind_of_ok (ask_of_ok hseq')]
    simp only [List.append_assoc, List.getElem?_append_right (Nat.le_refl _), Nat.sub_self]
    exact ⟨_, rfl⟩
  obtain ⟨before', after', -, hs'⟩ := swap_remove hf' hback
  obtain ⟨-, -, rfl, rfl⟩ := hs.place_unique hf hs'
  exact hs.undo hf hs' ▸ hback

end Edit

namespace Forest

/-- **Moves can be undone exactly**, in every forest that a run reaches: what was replaced can be put
back, what was taken out of a slot can be installed again, what was removed from a sequence can be
inserted again at the index, and what was inserted can be removed again. Each time the forest is the
one from before, with its entries, the owners and the free list. -/
theorem moves_undone (steps : List Step) :
    (∀ old new f', Edit.replace old new (empty.run steps) = .ok () f' →
      Edit.replace new old f' = .ok () (empty.run steps)) ∧
    (∀ p field c f', Edit.take p field (empty.run steps) = .ok (some c) f' →
      Edit.setSlot p field c f' = .ok () (empty.run steps)) ∧
    (∀ p field i c f', Edit.remove p field i (empty.run steps) = .ok c f' →
      Edit.insert p field i c f' = .ok () (empty.run steps)) ∧
    (∀ p field i c f', Edit.insert p field i c (empty.run steps) = .ok () f' →
      Edit.remove p field i f' = .ok c (empty.run steps)) := by
  have hf : (empty.run steps).WellFormed := wellFormed_run steps wellFormed_empty
  exact ⟨fun _ _ _ => Edit.replace_undo hf, fun _ _ _ _ => Edit.take_undo hf,
    fun _ _ _ _ _ => Edit.remove_undo hf, fun _ _ _ _ _ => Edit.insert_undo hf⟩

/-- A block with a return, whose value is taken out and installed again; and the return is replaced
by another statement, removed, and joined by the other statement, each time and back. -/
theorem moves_undone_return : ∃ f f₁ f₂ f₃ f₄, f = empty.run [.operate (.name "a"),
      .operate (.returnStatement (some ⟨0, 0⟩)), .operate (.block [⟨1, 0⟩]),
      .operate (.returnStatement none)] ∧
    Edit.replace ⟨1, 0⟩ ⟨3, 0⟩ f = .ok () f₁ ∧ Edit.replace ⟨3, 0⟩ ⟨1, 0⟩ f₁ = .ok () f ∧
    Edit.take ⟨1, 0⟩ .expression f = .ok (some ⟨0, 0⟩) f₂ ∧
    Edit.setSlot ⟨1, 0⟩ .expression ⟨0, 0⟩ f₂ = .ok () f ∧
    Edit.remove ⟨2, 0⟩ .statements 0 f = .ok ⟨1, 0⟩ f₃ ∧
    Edit.insert ⟨2, 0⟩ .statements 0 ⟨1, 0⟩ f₃ = .ok () f ∧
    Edit.insert ⟨2, 0⟩ .statements 1 ⟨3, 0⟩ f = .ok () f₄ ∧
    Edit.remove ⟨2, 0⟩ .statements 1 f₄ = .ok ⟨3, 0⟩ f := by
  obtain ⟨hreplace, htake, hremove, hinsert⟩ := moves_undone [.operate (.name "a"),
    .operate (.returnStatement (some ⟨0, 0⟩)), .operate (.block [⟨1, 0⟩]),
    .operate (.returnStatement none)]
  exact ⟨_, _, _, _, _, rfl, rfl, hreplace _ _ _ rfl, rfl, htake _ _ _ _ rfl, rfl,
    hremove _ _ _ _ _ rfl, rfl, hinsert _ _ _ _ _ rfl⟩

end Forest

end SyntaxForest
