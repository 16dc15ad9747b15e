import SyntaxForest.Forest.Edit
import SyntaxForest.Forest.Slots
import Mathlib.Data.List.Nodup
import Mathlib.Data.List.Count
import Mathlib.Data.List.Perm.Subperm

/-! # Look-up after a change, and the books of the entries

What a forest is, for its users, is what `live?` answers. Every change is described by the look-up
after it: changes of single nodes (`live?_update`, `live?_disown`, `live?_claim`), storing
(`live?_place`) and emptying an entry (`live?_release`).

The entries themselves are kept by the books: the free list names each empty entry once, and the
number of nodes is counted (`Bookkept`). All changes keep the books, an entry that is emptied being
one that held a node. -/

namespace SyntaxForest

namespace Entry

theorem at?_eq_some {e : Entry} {g : UInt32} {l : LiveNode} :
    e.at? g = some l ↔ e.generation = g ∧ e.live? = some l := by
  unfold at?; split_ifs with h <;> simp [h]

theorem at?_of_live?_eq_none {e : Entry} (he : e.live? = none) (g : UInt32) : e.at? g = none := by
  unfold at?; split_ifs <;> simp [he]

theorem isSome_live?_update (e : Entry) (g : UInt32) (change : LiveNode → LiveNode) :
    (e.update g change).live?.isSome = e.live?.isSome := by
  unfold update; split_ifs <;> simp

end Entry

namespace Forest

/-! ### Look-up -/

theorem live?_eq_some {f : Forest} {h : Handle} {l : LiveNode} :
    f.live? h = some l ↔
      ∃ e, f.entries[h.index]? = some e ∧ e.generation = h.generation ∧ e.live? = some l := by
  simp only [live?, Option.bind_eq_some_iff, Entry.at?_eq_some]

theorem contains_iff {f : Forest} {h : Handle} : f.contains h ↔ ∃ l, f.live? h = some l := by
  simp [contains, Option.isSome_iff_exists]

theorem not_contains_iff {f : Forest} {h : Handle} : ¬ f.contains h ↔ f.live? h = none := by
  simp [contains]

theorem eq_of_index_eq {f : Forest} {h k : Handle} (hh : f.contains h) (hk : f.contains k)
    (hi : h.index = k.index) : h = k := by
  obtain ⟨l, hl⟩ := contains_iff.mp hh
  obtain ⟨m, hm⟩ := contains_iff.mp hk
  obtain ⟨e, he, hg, -⟩ := live?_eq_some.mp hl
  obtain ⟨e', he', hg', -⟩ := live?_eq_some.mp hm
  rw [← hi, he] at he'
  cases he'
  cases h; cases k
  simp_all

theorem index_lt {f : Forest} {h : Handle} (hh : f.contains h) : h.index < f.entries.size := by
  obtain ⟨l, hl⟩ := contains_iff.mp hh
  obtain ⟨e, he, -⟩ := live?_eq_some.mp hl
  exact (Array.getElem?_eq_some_iff.mp he).1

theorem live?_empty (h : Handle) : empty.live? h = none := by simp [live?, empty]

theorem length_le_size {f : Forest} {hs : List Handle} (hnd : hs.Nodup)
    (hc : ∀ h ∈ hs, f.contains h) : hs.length ≤ f.entries.size := by
  have hmap : (hs.map Handle.index).Nodup :=
    List.Nodup.map_on (fun h hh k hk hi => eq_of_index_eq (hc h hh) (hc k hk) hi) hnd
  have hsub : hs.map Handle.index ⊆ List.range f.entries.size := by
    intro i hi
    obtain ⟨h, hh, rfl⟩ := List.mem_map.mp hi
    exact List.mem_range.mpr (index_lt (hc h hh))
  simpa using (List.subperm_of_subset hmap hsub).length_le

/-! ### Changes of nodes -/

theorem live?_update (f : Forest) (h k : Handle) (change : LiveNode → LiveNode) :
    (f.update h change).live? k = if k = h then (f.live? k).map change else f.live? k := by
  split_ifs with hk
  · rw [hk, live?_update_self]
  · exact f.live?_update_of_ne change hk

theorem live?_setOwner (f : Forest) (h k : Handle) (owner : Option Handle) :
    (f.setOwner h owner).live? k =
      if k = h then (f.live? k).map fun l => { l with owner? := owner } else f.live? k :=
  f.live?_update h k _

theorem live?_updatePayload (f : Forest) (h k : Handle) (change : Payload → Payload) :
    (f.updatePayload h change).live? k =
      if k = h then
        (f.live? k).map fun l => { l with node := { l.node with payload := change l.node.payload } }
      else f.live? k :=
  f.live?_update h k _

theorem live?_foldl_setOwner (owner : Option Handle) (k : Handle) : ∀ (hs : List Handle) (f : Forest),
    (hs.foldl (fun f h => f.setOwner h owner) f).live? k =
      if k ∈ hs then (f.live? k).map fun l => { l with owner? := owner } else f.live? k
  | [], f => by simp
  | h :: hs, f => by
    rw [List.foldl_cons, live?_foldl_setOwner owner k hs, live?_setOwner]
    by_cases hk : k = h <;> by_cases hm : k ∈ hs <;> simp [hk, hm, Function.comp_def]

theorem live?_disown (f : Forest) (hs : List Handle) (k : Handle) :
    (f.disown hs).live? k =
      if k ∈ hs then (f.live? k).map fun l => { l with owner? := none } else f.live? k :=
  live?_foldl_setOwner none k hs f

theorem live?_claim (f : Forest) (owner : Handle) (hs : List Handle) (k : Handle) :
    (f.claim owner hs).live? k =
      if k ∈ hs then (f.live? k).map fun l => { l with owner? := some owner } else f.live? k :=
  live?_foldl_setOwner (some owner) k hs f

/-! ### The books -/

/-- **The books of a forest**: the free list names each empty entry once, and the nodes are
counted. -/
structure Bookkept (f : Forest) : Prop where
  nodup : f.free.Nodup
  mem_free : ∀ i, i ∈ f.free ↔ ∃ e, f.entries[i]? = some e ∧ e.live? = none
  count : f.liveCount = f.entries.toList.countP fun e => e.live?.isSome

theorem bookkept_empty : empty.Bookkept := ⟨by simp [empty], by simp [empty], by simp [empty]⟩

theorem countP_modify {α : Type} (p : α → Bool) (g : α → α) :
    ∀ (l : List α) (i : Nat) (a : α), l[i]? = some a →
      (l.modify i g).countP p + (if p a then 1 else 0) = l.countP p + (if p (g a) then 1 else 0)
  | [], i, a, h => by simp at h
  | x :: l, 0, a, h => by
    obtain rfl : x = a := by simpa using h
    simp only [List.modify_zero_cons, List.countP_cons]
    omega
  | x :: l, i + 1, a, h => by
    have ih := countP_modify p g l i a (by simpa using h)
    simp only [List.modify_succ_cons, List.countP_cons]
    omega

theorem Bookkept.update {f : Forest} (hf : f.Bookkept) (h : Handle)
    (change : LiveNode → LiveNode) : (f.update h change).Bookkept where
  nodup := hf.nodup
  mem_free i := by
    rw [show (f.update h change).free = f.free from rfl, hf.mem_free i]
    simp only [Forest.update, Array.getElem?_modify]
    split_ifs with hi
    · cases f.entries[i]? with
      | none => simp
      | some e =>
        have := e.isSome_live?_update h.generation change
        simp only [Option.map_some, Option.some.injEq, exists_eq_left']
        rw [← Option.not_isSome_iff_eq_none, ← Option.not_isSome_iff_eq_none, this]
    · rfl
  count := by
    rw [show (f.update h change).liveCount = f.liveCount from rfl, hf.count]
    simp only [Forest.update, Array.toList_modify]
    cases he : f.entries.toList[h.index]? with
    | none => rw [List.modify_eq_self (List.getElem?_eq_none_iff.mp he)]
    | some e =>
      have := countP_modify (fun e : Entry => e.live?.isSome)
        (fun e => e.update h.generation change) _ _ e he
      simp only [e.isSome_live?_update] at this
      omega

theorem Bookkept.setOwner {f : Forest} (hf : f.Bookkept) (h : Handle) (owner : Option Handle) :
    (f.setOwner h owner).Bookkept := hf.update h _

theorem Bookkept.updatePayload {f : Forest} (hf : f.Bookkept) (h : Handle)
    (change : Payload → Payload) : (f.updatePayload h change).Bookkept := hf.update h _

theorem Bookkept.foldl_setOwner (owner : Option Handle) : ∀ (hs : List Handle) {f : Forest},
    f.Bookkept → (hs.foldl (fun f h => f.setOwner h owner) f).Bookkept
  | [], _, hf => hf
  | h :: hs, _, hf => Bookkept.foldl_setOwner owner hs (hf.setOwner h owner)

theorem Bookkept.disown {f : Forest} (hf : f.Bookkept) (hs : List Handle) :
    (f.disown hs).Bookkept := Bookkept.foldl_setOwner none hs hf

theorem Bookkept.claim {f : Forest} (hf : f.Bookkept) (owner : Handle) (hs : List Handle) :
    (f.claim owner hs).Bookkept := Bookkept.foldl_setOwner (some owner) hs hf

/-! ### Storing -/

/-- The entry of the next handle, if there is one, is empty and in the generation of the handle. -/
theorem Bookkept.entry_nextHandle {f : Forest} (hf : f.Bookkept) :
    f.entries[f.nextHandle.index]? = none ∧ f.free = [] ∧ f.nextHandle = ⟨f.entries.size, 0⟩ ∨
      ∃ e free, f.entries[f.nextHandle.index]? = some e ∧ e.live? = none ∧
        f.free = f.nextHandle.index :: free ∧ f.nextHandle.generation = e.generation := by
  cases hfree : f.free with
  | nil => left; simp [nextHandle, hfree]
  | cons i free =>
    obtain ⟨e, he, hl⟩ := (hf.mem_free i).mp (by simp [hfree])
    right; exact ⟨e, free, by simp [nextHandle, hfree, he, hl]⟩

theorem Bookkept.not_contains_nextHandle {f : Forest} (hf : f.Bookkept) :
    f.live? f.nextHandle = none := by
  rcases hf.entry_nextHandle with ⟨he, -⟩ | ⟨e, -, he, hl, -⟩
  · simp [live?, he]
  · simp [live?, he, e.at?_of_live?_eq_none hl]

theorem Bookkept.live?_place {f : Forest} (hf : f.Bookkept) (l : LiveNode) (k : Handle) :
    (f.place l).live? k = if k = f.nextHandle then some l else f.live? k := by
  rcases hf.entry_nextHandle with ⟨-, hfree, hn⟩ | ⟨e, free, he, hl, hfree, hg⟩
  · rw [hn]
    simp only [place, hfree, live?, Array.getElem?_push]
    by_cases hi : k.index = f.entries.size
    · rw [if_pos hi, hi, Array.getElem?_size]
      by_cases hk : k = ⟨f.entries.size, 0⟩
      · simp [hk, Entry.at?, Entry.generation]
      · have : ¬ (0 : UInt32) = k.generation := fun h => hk (by cases k; simp_all)
        rw [if_neg hk]
        exact (if_neg this : (⟨0, some l⟩ : Entry).at? k.generation = none)
    · rw [if_neg hi, if_neg fun h => hi (by rw [h])]
  · simp only [place, hfree, live?, Array.getElem?_modify]
    by_cases hi : f.nextHandle.index = k.index
    · rw [if_pos hi, ← hi, he]
      simp only [Option.map_some, Option.bind_some, e.at?_of_live?_eq_none hl]
      have hiff : e.generation = k.generation ↔ k = f.nextHandle := by
        rw [← hg]
        constructor
        · intro h; cases hn : f.nextHandle; cases k; simp_all
        · intro h; rw [h]
      unfold Entry.at?
      exact if_congr hiff rfl rfl
    · rw [if_neg hi, if_neg fun h => hi (by rw [h])]

theorem Bookkept.place {f : Forest} (hf : f.Bookkept) (l : LiveNode) : (f.place l).Bookkept := by
  rcases hf.entry_nextHandle with ⟨-, hfree, hn⟩ | ⟨e, free, he, hl, hfree, hg⟩
  · have hp : f.place l = ⟨f.entries.push ⟨0, some l⟩, [], f.liveCount + 1⟩ := by
      simp [Forest.place, hfree]
    rw [hp]
    refine ⟨by simp, fun i => ?_, by simp [hf.count]⟩
    have hi := hf.mem_free i
    rw [hfree] at hi
    simp only [Array.getElem?_push, List.not_mem_nil, false_iff]
    split_ifs with h
    · simp
    · exact fun h => by simpa using hi.mpr h
  · have hp : f.place l =
        ⟨f.entries.modify f.nextHandle.index (fun e => { e with live? := some l }), free,
          f.liveCount + 1⟩ := by
      unfold Forest.place; rw [hfree]
    have hnd := hf.nodup
    rw [hfree, List.nodup_cons] at hnd
    rw [hp]
    refine ⟨hnd.2, fun i => ?_, ?_⟩
    · have hi := hf.mem_free i
      rw [hfree, List.mem_cons] at hi
      simp only [Array.getElem?_modify]
      split_ifs with h
      · subst h; simp [hnd.1, he]
      · rw [← hi]; simp [Ne.symm h]
    · have := countP_modify (fun e : Entry => e.live?.isSome) (fun e => { e with live? := some l })
        f.entries.toList f.nextHandle.index e (by simpa using he)
      simp only [hl, Option.isSome_none, Option.isSome_some, if_true, Bool.false_eq_true,
        if_false] at this
      simp only [Array.toList_modify, hf.count]
      omega

theorem Bookkept.live?_store {f : Forest} (hf : f.Bookkept) {node : Node}
    (hc : ∀ c ∈ node.children, f.contains c) (k : Handle) :
    (f.store node).live? k =
      if k = f.nextHandle then some ⟨node, none⟩
      else if k ∈ node.children then
        (f.live? k).map fun l => { l with owner? := some f.nextHandle }
      else f.live? k := by
  simp only [store, live?_claim, hf.live?_place]
  by_cases hk : k = f.nextHandle
  · have hm : k ∉ node.children := fun hm => by
      have := hc k hm
      rw [hk] at this
      exact not_contains_iff.mpr hf.not_contains_nextHandle this
    simp [hk, hk ▸ hm]
  · simp [hk]

theorem Bookkept.store {f : Forest} (hf : f.Bookkept) (node : Node) : (f.store node).Bookkept :=
  (hf.place _).claim _ _

/-! ### Emptying an entry -/

theorem live?_release (f : Forest) (h k : Handle) :
    (f.release h).live? k = if k.index = h.index then none else f.live? k := by
  simp only [release, live?, Array.getElem?_modify]
  by_cases hi : h.index = k.index
  · rw [if_pos hi, if_pos hi.symm]
    cases f.entries[k.index]? with
    | none => rfl
    | some e => exact e.vacate.at?_of_live?_eq_none rfl _
  · rw [if_neg hi, if_neg (Ne.symm hi)]

theorem live?_release_of_live {f : Forest} {h : Handle} (hh : f.contains h) (k : Handle) :
    (f.release h).live? k = if k = h then none else f.live? k := by
  rw [live?_release]
  by_cases hk : k = h
  · simp [hk]
  · rw [if_neg hk]
    split_ifs with hi
    · exact (not_contains_iff.mp fun hc => hk (eq_of_index_eq hc hh hi)).symm
    · rfl

theorem Bookkept.release {f : Forest} (hf : f.Bookkept) {h : Handle} (hh : f.contains h) :
    (f.release h).Bookkept := by
  obtain ⟨l, hl⟩ := contains_iff.mp hh
  obtain ⟨e, he, -, hlive⟩ := live?_eq_some.mp hl
  have hnot : h.index ∉ f.free := fun hm => by
    obtain ⟨e', he', hd⟩ := (hf.mem_free _).mp hm
    rw [he] at he'; cases he'
    rw [hlive] at hd; cases hd
  refine ⟨List.nodup_cons.mpr ⟨hnot, hf.nodup⟩, fun i => ?_, ?_⟩
  · simp only [Forest.release, List.mem_cons, Array.getElem?_modify]
    rw [hf.mem_free i]
    by_cases hi : h.index = i
    · subst hi; simp [he, Entry.vacate]
    · simp [hi, Ne.symm hi]
  · have := countP_modify (fun e : Entry => e.live?.isSome) Entry.vacate f.entries.toList h.index e
      (by simpa using he)
    simp only [hlive, Entry.vacate, Option.isSome_none, Option.isSome_some, if_true,
      Bool.false_eq_true, if_false] at this
    simp only [Forest.release, Array.toList_modify, hf.count]
    omega

end Forest

end SyntaxForest
