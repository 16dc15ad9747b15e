import SyntaxForest.Proofs.Displacing

/-! # Moving nodes as a swap

An operation that moves nodes changes one field of one node: between the nodes before and those after
them, the nodes that go out give way to those that come in (`Swap`). Either of the two lists may be
empty; the lemmas `swap_…` say for each operation what it swaps.

A swap leaves all entries as they are, so the look of the forest after it is all that there is to say
of it (`SameArena.eq_of_alike`). -/

namespace SyntaxForest

/-! ### Another content of a field -/

namespace Payload

variable {p : Payload} {field : Field}

theorem bare_withContent (p : Payload) (field : Field) (ys : List Handle) :
    (p.withContent field ys).bare = p.bare := by
  rw [withContent, bare_setSeq, bare_setSlot]

theorem kind_withContent (p : Payload) (field : Field) (ys : List Handle) :
    (p.withContent field ys).kind = p.kind := by
  rw [withContent, kind_setSeq, kind_setSlot]

theorem content_withContent_of_ne {g : Field} (hg : g ≠ field) (ys : List Handle) :
    (p.withContent field ys).content g = p.content g := by
  simp only [withContent, content, slot?_setSeq, seq?_setSeq, slot?_setSlot, seq?_setSlot, if_neg hg]

theorem withContent_withContent (p : Payload) (field : Field) (xs ys : List Handle) :
    (p.withContent field ys).withContent field xs = p.withContent field xs := by
  cases p <;> cases field <;> rfl

theorem withContent_content (p : Payload) (field : Field) :
    p.withContent field (p.content field) = p := by
  cases p <;> cases field <;> simp [withContent, content, setSlot, setSeq, slot?, seq?]

theorem putAt_eq_withContent {child : Handle} {place : Place} (h : p.Stands child place)
    (new : Handle) :
    p.putAt place new = p.withContent place.field ((p.putAt place new).content place.field) := by
  unfold Stands at h
  unfold putAt
  cases hi : place.index? with
  | none =>
    rw [hi] at h
    have hslot : (p.setSlot place.field (some new)).slot? place.field = some (some new) := by
      rw [slot?_setSlot, if_pos rfl, h]
      rfl
    rw [content_of_slot? hslot, withContent_of_slot? h]
    rfl
  | some i =>
    rw [hi] at h
    obtain ⟨xs, hxs, -⟩ := h
    have hseq : ∀ ys, (p.setSeq place.field ys).seq? place.field = some ys := fun ys => by
      rw [seq?_setSeq, if_pos rfl, hxs]
      rfl
    dsimp only
    rw [content_of_seq? (hseq _), withContent_of_seq? hxs]

end Payload

namespace Forest

variable {f f' : Forest} {p k : Handle} {field : Field}
  {before outs ins after xs : List Handle}

/-- **Forests in the same arena that look alike are equal.** -/
theorem SameArena.eq_of_alike (h : f.SameArena f') (ha : f.Alike f') : f' = f := by
  have hentries : f'.entries = f.entries := by
    refine Array.ext_getElem? fun i => ?_
    have hi : f'.entries[i]?.map Entry.emptied = f.entries[i]?.map Entry.emptied := by
      rw [← Array.getElem?_map, h.emptied, Array.getElem?_map]
    rcases he' : f'.entries[i]? with _ | e' <;> rcases he : f.entries[i]? with _ | e <;>
      simp only [he', he, Option.map_none, Option.map_some, Option.some.injEq, reduceCtorEq] at hi
    · rfl
    -- the node in the entry is what the handle of its generation names
    · have hg : e'.generation = e.generation := congrArg UInt32.ofNat hi
      have hlive := ha ⟨i, e.generation⟩
      simp only [live?, he', he, Option.bind_some, Entry.at?, hg, if_true] at hlive
      cases e
      cases e'
      simp_all
  have hfree := h.free
  have hcount : f'.liveCount = f.liveCount := h.size
  cases f
  cases f'
  simp_all

/-! ### Swaps -/

/-- **A swap**: in a field of `p`, between `before` and `after`, the nodes `outs` give way to the
nodes `ins`. -/
structure Swap (f f' : Forest) (p : Handle) (field : Field) (before outs ins after : List Handle) :
    Prop where
  exchange : f.Exchange f' p field (before ++ outs ++ after) (before ++ ins ++ after) ins outs []
  payload : ∀ {l}, f.live? p = some l → ∀ k, f'.live? k =
    f.exchanged p (l.node.payload.withContent field (before ++ ins ++ after)) ins outs k
  arena : f.SameArena f'
  books : f'.Bookkept

theorem Swap.of_refill (hb : f.Bookkept) {change : Payload → Payload} {l : LiveNode}
    (hl : f.live? p = some l)
    (hchange : change l.node.payload = l.node.payload.withContent field (before ++ ins ++ after))
    (hx : f.Exchange (f.refill p change ins outs) p field (before ++ outs ++ after)
      (before ++ ins ++ after) ins outs []) :
    f.Swap (f.refill p change ins outs) p field before outs ins after where
  exchange := hx
  payload hl' k := by
    cases hl.symm.trans hl'
    rw [live?_refill hl, hchange]
  arena := f.sameArena_refill p change ins outs
  books := hb.refill p change ins outs

namespace Swap

variable (hs : f.Swap f' p field before outs ins after)
include hs

theorem wellFormed (hf : f.WellFormed) : f'.WellFormed :=
  hs.exchange.wellFormed hf hs.books

theorem live?_eq {l : LiveNode} (hk : f.live? k = some l) : f'.live? k = some
    { node := if k = p then
          { l.node with payload := l.node.payload.withContent field (before ++ ins ++ after) }
        else l.node
      owner? := if k ∈ outs then none else if k ∈ ins then some p else l.owner? } := by
  obtain ⟨m, _, hm, -⟩ := hs.exchange.refilled
  rw [hs.payload hm, exchanged, hk, Option.map_some]
  by_cases hkp : k = p
  · subst hkp
    cases hk.symm.trans hm
    rfl
  · rw [if_neg hkp, if_neg hkp]

theorem exists_target : ∃ l m, f.live? p = some l ∧ f'.live? p = some m ∧
    m.node.payload = l.node.payload.withContent field (before ++ ins ++ after) := by
  obtain ⟨l, _, hl, -⟩ := hs.exchange.refilled
  exact ⟨l, _, hl, hs.live?_eq hl, by simp⟩

theorem content_before {l : LiveNode} (hl : f.live? p = some l) :
    l.node.payload.content field = before ++ outs ++ after := by
  obtain ⟨m, _, hm, hr, -⟩ := hs.exchange.refilled
  cases hl.symm.trans hm
  exact hr.before

theorem content_after {m : LiveNode} (hm : f'.live? p = some m) :
    m.node.payload.content field = before ++ ins ++ after := by
  obtain ⟨l, -, hr⟩ := hs.exchange.live?_target hm
  exact hr.after

theorem slot_after {o : Option Handle} (ho : f.slot p field = .ok o) :
    f'.slot p field = .ok (before ++ ins ++ after).head? := by
  obtain ⟨l, m, hl, hm, hpayload⟩ := hs.exists_target
  obtain ⟨l', hl', hslot⟩ := slot_eq_ok.mp ho
  cases hl.symm.trans hl'
  exact slot_eq_ok.mpr ⟨m, hm, by rw [hpayload, Payload.slot?_withContent hslot]⟩

theorem seq_after (hx : f.seq p field = .ok xs) :
    f'.seq p field = .ok (before ++ ins ++ after) := by
  obtain ⟨l, m, hl, hm, hpayload⟩ := hs.exists_target
  obtain ⟨l', hl', hseq⟩ := seq_eq_ok.mp hx
  cases hl.symm.trans hl'
  exact seq_eq_ok.mpr ⟨m, hm, by rw [hpayload, Payload.seq?_withContent hseq]⟩

end Swap

end Forest

namespace Edit

open Forest

variable {f f' : Forest} {p c h old new : Handle} {field : Field}

theorem insertIdx_append (before after : List Handle) (c : Handle) :
    (before ++ after).insertIdx before.length c = before ++ [c] ++ after := by
  induction before with
  | nil => simp
  | cons x before ih => simpa using ih

theorem swap_setSlot (hf : f.WellFormed) (ho : f.slot p field = .ok none)
    (hr : setSlot p field c f = .ok () f') : f.Swap f' p field [] [] [c] [] := by
  obtain ⟨l, o, hl, hs, ha, hu, rfl⟩ := setSlot_eq_ok hf hr
  obtain ⟨m, hm, hnone⟩ := slot_eq_ok.mp ho
  cases hl.symm.trans hm
  cases hs.symm.trans hnone
  exact .of_refill hf.books hl (Payload.withContent_of_slot? hs [c]).symm (exchange_setSlot hl hs ha hu)

theorem swap_take (hf : f.WellFormed) {o : Option Handle} (hr : take p field f = .ok o f') :
    f.Swap f' p field [] o.toList [] [] := by
  obtain ⟨l, hl, hs, hopt, rfl⟩ := take_eq_ok hr
  refine .of_refill hf.books hl (Payload.withContent_of_slot? hs []).symm ?_
  simpa using exchange_take hl hs hopt

theorem swap_insert (hf : f.WellFormed) {i : Nat} (hr : insert p field i c f = .ok () f') :
    ∃ before after, before.length = i ∧ f.Swap f' p field before [] [c] after := by
  obtain ⟨l, xs, hl, hs, hi, ha, hu, rfl⟩ := insert_eq_ok hf hr
  have hx := exchange_insert hf hl hs hi ha hu
  obtain ⟨before, after, rfl, rfl⟩ : ∃ before after, xs = before ++ after ∧ before.length = i :=
    ⟨xs.take i, xs.drop i, by simp, by simpa using hi⟩
  rw [insertIdx_append] at hx ⊢
  refine ⟨before, after, rfl, .of_refill hf.books hl (Payload.withContent_of_seq? hs _).symm ?_⟩
  simpa using hx

theorem swap_push (hf : f.WellFormed) (hr : push p field c f = .ok () f') :
    ∃ before, f.Swap f' p field before [] [c] [] := by
  obtain ⟨xs, hx, hinsert⟩ := push_eq_ok hr
  obtain ⟨before, after, hlen, hs⟩ := swap_insert hf hinsert
  obtain ⟨l, hl, hseq⟩ := seq_eq_ok.mp hx
  -- nothing stands after the last index
  have hcontent : xs = before ++ after := by
    rw [← Payload.content_of_seq? hseq, hs.content_before hl, List.append_nil]
  obtain rfl : after = [] := by
    rw [hcontent, List.length_append] at hlen
    exact List.eq_nil_of_length_eq_zero (by omega)
  exact ⟨before, hs⟩

theorem swap_remove (hf : f.WellFormed) {i : Nat} (hr : remove p field i f = .ok c f') :
    ∃ before after, before.length = i ∧ f.Swap f' p field before [c] [] after := by
  obtain ⟨l, xs, hl, hs, hi, rfl⟩ := remove_eq_ok hr
  have hx := exchange_remove hf hl hs hi
  obtain ⟨hlt, rfl⟩ := List.getElem?_eq_some_iff.mp hi
  have hxs : xs = xs.take i ++ [xs[i]] ++ xs.drop (i + 1) := by
    rw [List.append_assoc, List.singleton_append, ← List.drop_eq_getElem_cons hlt,
      List.take_append_drop]
  have herase : xs.eraseIdx i = xs.take i ++ [] ++ xs.drop (i + 1) := by
    rw [List.append_nil, List.eraseIdx_eq_take_drop_succ]
  rw [herase] at hx ⊢
  refine ⟨xs.take i, xs.drop (i + 1), by simp; omega, ?_⟩
  exact .of_refill hf.books hl (Payload.withContent_of_seq? hs _).symm (hxs ▸ hx)

theorem swap_replace (hf : f.WellFormed) (hr : replace old new f = .ok () f') :
    ∃ p field before after, f.owns p old ∧ f.Swap f' p field before [old] [new] after := by
  obtain ⟨p, l, place, ho, hl, hplace, ha, hu, rfl⟩ := replace_eq_refill hf hr
  obtain ⟨before, after, hx⟩ := exchange_replace hf hl hplace ha hu
  have hcontent : (l.node.payload.putAt place new).content place.field = before ++ new :: after := by
    obtain ⟨m, payload, -, hrefilled, hview⟩ := hx.refilled
    have hp := hview p
    rw [live?_refill hl, exchanged, exchanged, hl] at hp
    simp only [Option.map_some, if_true, Option.some.injEq, LiveNode.mk.injEq, Node.mk.injEq,
      and_true] at hp
    rw [hp, hrefilled.after]
  have hchange := Payload.putAt_eq_withContent (Payload.stands_of_placeOf? hplace) new
  refine ⟨p, place.field, before, after, ho, .of_refill hf.books hl ?_ (by simpa using hx)⟩
  rw [hchange, hcontent]
  simp

theorem swap_detach (hf : f.WellFormed) (hr : detach h f = .ok () f') :
    ∃ p field before after, f.owns p h ∧ f.Swap f' p field before [h] [] after := by
  obtain ⟨p, field, ho, ⟨i, hremove⟩ | htake⟩ := detach_eq_ok hr
  · obtain ⟨before, after, -, hs⟩ := swap_remove hf hremove
    exact ⟨p, field, before, after, ho, hs⟩
  · exact ⟨p, field, [], [], ho, swap_take hf htake⟩

end Edit

end SyntaxForest
