import SyntaxForest.Proofs.Evolving

/-! # Entries only get older

A change of a forest never takes an entry away, never goes back in its count, and does not empty it
without counting: `Older f f'`. That holds of every step on every forest, well-formed or not, since
updating, storing and emptying are all that a step does (`Change.older`, `Evolves.older`). -/

namespace SyntaxForest

/-- An entry at a later time: emptied more often, or just as often and then still holding a node if it
did. -/
def Entry.Older (e e' : Entry) : Prop :=
  e.emptied < e'.emptied ∨ e.emptied = e'.emptied ∧ (e.live?.isSome → e'.live?.isSome)

namespace Entry

theorem Older.refl (e : Entry) : e.Older e := Or.inr ⟨rfl, id⟩

theorem Older.trans {a b c : Entry} (h : a.Older b) (h' : b.Older c) : a.Older c := by
  rcases h with h | ⟨h, hl⟩ <;> rcases h' with h' | ⟨h', hl'⟩
  · exact Or.inl (Nat.lt_trans h h')
  · exact Or.inl (h' ▸ h)
  · exact Or.inl (h ▸ h')
  · exact Or.inr ⟨h.trans h', hl' ∘ hl⟩

theorem Older.emptied_le {e e' : Entry} (h : e.Older e') : e.emptied ≤ e'.emptied := by
  rcases h with h | ⟨h, -⟩ <;> omega

end Entry

namespace Forest

variable {f f' f'' : Forest}

/-- **A later forest**: each entry is still there, at a later time. -/
def Older (f f' : Forest) : Prop :=
  ∀ (i : Nat) (e : Entry), f.entries[i]? = some e → ∃ e', f'.entries[i]? = some e' ∧ e.Older e'

theorem Older.refl (f : Forest) : f.Older f := fun _ e he => ⟨e, he, .refl e⟩

theorem Older.trans (h : f.Older f') (h' : f'.Older f'') : f.Older f'' := fun i e he => by
  obtain ⟨e', he', ho⟩ := h i e he
  obtain ⟨e'', he'', ho'⟩ := h' i e' he'
  exact ⟨e'', he'', ho.trans ho'⟩

/-! ### Changes -/

theorem older_modify {i : Nat} {g : Entry → Entry} (hg : ∀ e : Entry, e.Older (g e))
    (h : f'.entries = f.entries.modify i g) : f.Older f' := fun j e he => by
  rw [h, Array.getElem?_modify]
  split_ifs
  · exact ⟨g e, by rw [he]; rfl, hg e⟩
  · exact ⟨e, he, .refl e⟩

theorem older_update (f : Forest) (h : Handle) (change : LiveNode → LiveNode) :
    f.Older (f.update h change) := by
  refine older_modify (g := fun e => e.update h.generation change)
    (fun e => Or.inr ⟨?_, fun hl => ?_⟩) rfl
  · unfold Entry.update; split_ifs <;> rfl
  · rw [Entry.isSome_live?_update]; exact hl

theorem older_place (f : Forest) (l : LiveNode) : f.Older (f.place l) := by
  unfold place
  split
  · exact older_modify (g := fun e => { e with live? := some l })
      (fun e => Or.inr ⟨rfl, fun _ => rfl⟩) rfl
  · intro i e he
    refine ⟨e, ?_, .refl e⟩
    rw [Array.getElem?_push_lt (Array.getElem?_eq_some_iff.mp he).1]
    exact congrArg some (Array.getElem?_eq_some_iff.mp he).2

theorem older_release (f : Forest) (h : Handle) : f.Older (f.release h) :=
  older_modify (fun e => Or.inl (Nat.lt_succ_self e.emptied)) rfl

theorem Change.older (h : f.Change f') : f.Older f' := by
  cases h with
  | update h change => exact f.older_update h change
  | place l => exact f.older_place l
  | @release h _ => exact f.older_release h

/-- **Changes only make forests older**, by induction on the changes. -/
theorem Evolves.older (h : f.Evolves f') : f.Older f' := by
  induction h with
  | refl => exact .refl f
  | tail _ hchange ih => exact ih.trans hchange.older

/-! ### Runs -/

theorem older_after (f : Forest) (s : Step) : f.Older (s.after f) := (f.evolves_after s).older

theorem older_run (steps : List Step) (f : Forest) : f.Older (f.run steps) :=
  (evolves_run steps f).older

end Forest

end SyntaxForest
