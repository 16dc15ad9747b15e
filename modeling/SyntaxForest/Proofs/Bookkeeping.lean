import SyntaxForest.Proofs.Alike
import SyntaxForest.Proofs.Evolving

/-! # Bookkeeping

The books of a forest are kept by every change, so they are right after every run, and in the middle
of every step as well: when a refused operation has made nodes that it has yet to free, or a
conversion has built half of a tree.

Right books (`ExactBooks`) give what users of the entries rely on. A node is stored where no node is,
and in a new entry only if all entries hold nodes; a node that is freed is counted off a number that
is not zero; and every entry either holds a node or waits on the free list (`Bookkept.accounted`).

* `books_stay_exact`: the books are right in every forest that a run comes through. -/

namespace SyntaxForest.Forest

variable {f f' : Forest}

/-! ### Changes keep the books -/

theorem Bookkept.changed (hb : f.Bookkept) (h : f.Change f') : f'.Bookkept := by
  cases h with
  | update h change => exact hb.update h change
  | place l => exact hb.place l
  | release hh => exact hb.release hh

theorem Bookkept.evolved (hb : f.Bookkept) (h : f.Evolves f') : f'.Bookkept := by
  induction h with
  | refl => exact hb
  | tail _ hchange ih => exact ih.changed hchange

/-! ### Accounts of the entries -/

/-- The indices of the entries without a node. -/
def emptyIndices (f : Forest) : List Nat :=
  (f.entries.toList.zipIdx.filter fun (e, _) => e.live?.isNone).map Prod.snd

theorem mem_emptyIndices {i : Nat} :
    i ∈ f.emptyIndices ↔ ∃ e, f.entries[i]? = some e ∧ e.live? = none := by
  simp only [emptyIndices, List.mem_map, List.mem_filter, Prod.exists,
    List.mem_zipIdx_iff_getElem?, Array.getElem?_toList, Option.isNone_iff_eq_none]
  constructor
  · rintro ⟨e, j, ⟨he, hl⟩, rfl⟩
    exact ⟨e, he, hl⟩
  · rintro ⟨e, he, hl⟩
    exact ⟨e, i, ⟨he, hl⟩, rfl⟩

theorem nodup_emptyIndices (f : Forest) : f.emptyIndices.Nodup := by
  have hlt := (pairwise_zipIdx f.entries.toList 0).filter fun (e, _) => e.live?.isNone
  exact List.pairwise_map.mpr (hlt.imp fun hab => Nat.ne_of_lt hab)

theorem length_emptyIndices (f : Forest) :
    f.emptyIndices.length = f.entries.toList.countP fun e => e.live?.isNone := by
  rw [emptyIndices, List.length_map, ← List.countP_eq_length_filter]
  exact countP_zipIdx (fun e => e.live?.isNone) f.entries.toList

/-- **No entry is lost**: each one holds a node or is on the free list. -/
theorem Bookkept.accounted (hb : f.Bookkept) : f.free.length + f.size = f.entries.size := by
  -- the free list is some order of the indices of the empty entries
  have hperm : f.free.Perm f.emptyIndices :=
    (List.perm_ext_iff_of_nodup hb.nodup f.nodup_emptyIndices).mpr fun i => by
      rw [hb.mem_free, mem_emptyIndices]
  have hsplit := List.length_eq_countP_add_countP (fun e : Entry => e.live?.isSome)
    (l := f.entries.toList)
  have hempty : f.entries.toList.countP (fun e => decide ¬e.live?.isSome = true) =
      f.free.length := by
    rw [hperm.length_eq, length_emptyIndices]
    refine List.countP_congr fun e _ => ?_
    cases e.live? <;> simp
  rw [hempty, Array.length_toList, ← hb.count] at hsplit
  unfold size
  omega

/-! ### What right books give -/

/-- **Right books**, and what follows from them for the next change. -/
structure ExactBooks (f : Forest) : Prop where
  /-- The free list names the entries without a node, and no others. -/
  mem_free : ∀ i, i ∈ f.free ↔ ∃ e, f.entries[i]? = some e ∧ e.live? = none
  /-- It names none of them twice. -/
  nodup : f.free.Nodup
  /-- The size is the number of entries that hold a node. -/
  size : f.size = f.entries.toList.countP fun e => e.live?.isSome
  /-- Every entry holds a node or is on the free list. -/
  accounted : f.free.length + f.size = f.entries.size
  /-- The next node gets a handle that no node has. -/
  fresh : ¬ f.contains f.nextHandle
  /-- Storing a node overwrites no other one. -/
  place : ∀ l k, (f.place l).live? k = if k = f.nextHandle then some l else f.live? k
  /-- While there is an empty entry, no new one is made. -/
  reuse : ∀ (l : LiveNode) (i : Nat) (e : Entry), f.entries[i]? = some e → e.live? = none →
    (f.place l).entries.size = f.entries.size
  /-- A live node that goes is counted off, from a number that is not zero. -/
  release : ∀ k, f.contains k → (f.release k).size + 1 = f.size

theorem Bookkept.size_entries_place (hb : f.Bookkept) {i : Nat} {e : Entry}
    (he : f.entries[i]? = some e) (hl : e.live? = none) (l : LiveNode) :
    (f.place l).entries.size = f.entries.size := by
  have hi : i ∈ f.free := (hb.mem_free i).mpr ⟨e, he, hl⟩
  obtain ⟨j, free, hfree⟩ := List.exists_cons_of_ne_nil (List.ne_nil_of_mem hi)
  simp [Forest.place, hfree]

theorem Bookkept.size_release (hb : f.Bookkept) {k : Handle} (hk : f.contains k) :
    (f.release k).size + 1 = f.size := by
  obtain ⟨l, hl⟩ := contains_iff.mp hk
  have hmem : k ∈ f.handlesWhere fun _ => true := mem_handlesWhere.mpr ⟨l, hl, rfl⟩
  have hpos : 0 < f.size := by
    rw [hb.size_eq]
    exact List.length_pos_of_mem hmem
  have hrelease : (f.release k).size = f.size - 1 := rfl
  omega

theorem Bookkept.exactBooks (hb : f.Bookkept) : f.ExactBooks where
  mem_free := hb.mem_free
  nodup := hb.nodup
  size := hb.count
  accounted := hb.accounted
  fresh := not_contains_iff.mpr hb.not_contains_nextHandle
  place := hb.live?_place
  reuse l _ _ he hl := hb.size_entries_place he hl l
  release _ hk := hb.size_release hk

/-- **The books are right throughout**: a step, accepted or refused, makes the forest that a run
has reached evolve, and in every forest that it may come through the books are right. -/
theorem books_stay_exact (steps : List Step) (s : Step) :
    (empty.run steps).Evolves (s.after (empty.run steps)) ∧
      ∀ f, (empty.run steps).Evolves f → f.ExactBooks := by
  have hb : (empty.run steps).Bookkept := bookkept_empty.evolved (evolves_run steps empty)
  exact ⟨evolves_after _ s, fun f hf => (hb.evolved hf).exactBooks⟩

/-- Operands copied in among statements are refused, after the copy of the first one is made: its
two entries are emptied again, and wait on the free list. -/
theorem books_stay_exact_refused_copy :
    ∃ f f', f = empty.run [.operate (.name "a"), .operate (.name "b"),
        .operate (.chain none .plus ⟨0, 0⟩ ⟨1, 0⟩), .operate (.name "c"),
        .operate (.parenthesized ⟨3, 0⟩), .operate (.push ⟨2, 0⟩ .extendedOperands ⟨4, 0⟩),
        .operate (.block [])] ∧
      f' = (Step.operate (.copySeqFrom ⟨5, 0⟩ .statements ⟨2, 0⟩ .extendedOperands)).after f ∧
      f.Evolves f' ∧ f.entries.size = 6 ∧ f.free = [] ∧ f'.entries.size = 8 ∧ f'.free = [6, 7] ∧
      f'.size = 6 ∧ f'.ExactBooks := by
  obtain ⟨hevolves, hexact⟩ := books_stay_exact [.operate (.name "a"), .operate (.name "b"),
    .operate (.chain none .plus ⟨0, 0⟩ ⟨1, 0⟩), .operate (.name "c"),
    .operate (.parenthesized ⟨3, 0⟩), .operate (.push ⟨2, 0⟩ .extendedOperands ⟨4, 0⟩),
    .operate (.block [])] (.operate (.copySeqFrom ⟨5, 0⟩ .statements ⟨2, 0⟩ .extendedOperands))
  exact ⟨_, _, rfl, rfl, hevolves, by decide +kernel, by decide +kernel, by decide +kernel,
    by decide +kernel, by decide +kernel, hexact _ hevolves⟩

end SyntaxForest.Forest
