import SyntaxForest.Proofs.Rereading
import SyntaxForest.Proofs.Separation

/-! # Copies are independent

The nodes of a detached tree are apart from all others. So a run to whose steps none of them is given
leaves the whole tree as it was, and with it all that is read off the tree (`intact_run`). The copy of
a tree is a detached tree of new nodes, with the text of the original: whatever becomes of the one,
the other stays as it was (`copy_independent`). -/

namespace SyntaxForest.Forest

variable {f f' : Forest} {xs : List Handle} {h : Handle} {text : String}

theorem isDetached_eq_ok : f.isDetached h = .ok true ↔ ∃ n, f.live? h = some ⟨n, none⟩ := by
  constructor
  · intro hd
    obtain ⟨owner?, ho, hd⟩ := Except.bind_eq_ok.mp hd
    obtain ⟨⟨n, o⟩, hl, rfl⟩ := owner?_eq_ok.mp ho
    obtain rfl : o = none := Option.isNone_iff_eq_none.mp (Except.ok.inj hd)
    exact ⟨n, hl⟩
  · rintro ⟨n, hn⟩
    have howner : f.owner? h = .ok none := owner?_eq_ok.mpr ⟨_, hn, rfl⟩
    rw [isDetached, howner]
    rfl

/-- **A detached tree of `f` as it was, in `f'`**: its root, its nodes in their order with their
contents and owners, and its text. -/
structure Intact (f f' : Forest) (root : Handle) (xs : List Handle) (text : String) : Prop where
  detached : f'.isDetached root = .ok true
  preorder : f'.preorder root = .ok xs
  nodes : f.SameOn f' xs
  text : f'.sourceText root = .ok text

/-- **A run leaves a detached tree as it was**, if none of its nodes is given to a step. -/
theorem intact_run (hf : f.WellFormed) (hd : f.isDetached h = .ok true) (hl : f.Listing [h] xs)
    (ht : f.sourceText h = .ok text) (steps : List Step)
    (hargs : ∀ s ∈ steps, ∀ a ∈ s.arguments, a ∉ xs) : f.Intact (f.run steps) h xs text := by
  obtain ⟨n, hroot⟩ := isDetached_eq_ok.mp hd
  have hf' : (f.run steps).WellFormed := wellFormed_run steps hf
  have hsame : f.SameOn (f.run steps) xs := (apart_listing hf hroot hl).sameOn_run steps hf hargs
  have hc : f.Counterparts (f.run steps) xs id := counterparts_id hl hsame
  have hl' : (f.run steps).Listing [h] xs := by simpa using hc.listing hl
  obtain ⟨text', htext, htext'⟩ := hc.sourceText_eq hf hf' hl hl'
  cases ht.symm.trans htext
  exact
    { detached := isDetached_eq_ok.mpr ⟨n, (hsame h hl.head_mem).trans hroot⟩
      preorder := preorder_eq_ok hf' hl'
      nodes := hsame
      text := htext' }

/-- **A copy and its original are independent**, in every forest that a run reaches. Copying a live
node succeeds. Whatever steps follow, accepted or refused: the copy stays as it is, with the text
that the original had when it was copied, while none of the nodes of the copy is given to a step; and
an original that is detached stays as it is while none of its nodes is given to one. -/
theorem copy_independent (steps : List Step) {h : Handle} (hh : (empty.run steps).contains h) :
    ∃ c f' xs ys text, Edit.copy h (empty.run steps) = .ok c f' ∧
      (empty.run steps).preorder h = .ok xs ∧ f'.preorder c = .ok ys ∧
      (empty.run steps).sourceText h = .ok text ∧
      (∀ later : List Step, (∀ s ∈ later, ∀ a ∈ s.arguments, a ∉ ys) →
        f'.Intact (f'.run later) c ys text) ∧
      ((empty.run steps).isDetached h = .ok true →
        ∀ later : List Step, (∀ s ∈ later, ∀ a ∈ s.arguments, a ∉ xs) →
          (empty.run steps).Intact (f'.run later) h xs text) := by
  have hf : (empty.run steps).WellFormed := wellFormed_run steps wellFormed_empty
  obtain ⟨c, f', hcopy, hf', hgrow, hcopies⟩ := copy_eq_ok hf hh
  obtain ⟨xs, hl⟩ := exists_listing_of_contains hf hh
  obtain ⟨g, hlc, hcounter⟩ := hcopies.exists_counterparts hf hl
  obtain rfl : g h = c := by
    have hhead := hlc.head?
    rw [List.head?_map, hl.head?] at hhead
    exact Option.some.inj hhead
  obtain ⟨text, ht, htc⟩ := hcounter.sourceText_eq hf hf' hl hlc
  have hroot : f'.isDetached (g h) = .ok true :=
    isDetached_eq_ok.mpr (hgrow.root (List.mem_singleton_self _))
  -- the copy leaves the original as it was
  have hkept : (empty.run steps).SameOn f' xs := fun x hx => hgrow.kept (hl.live x hx)
  have hsame := counterparts_id hl hkept
  have hlh : f'.Listing [h] xs := by simpa using hsame.listing hl
  obtain ⟨text', ht', hth⟩ := hsame.sourceText_eq hf hf' hl hlh
  cases ht.symm.trans ht'
  refine ⟨g h, f', xs, xs.map g, text, hcopy, preorder_eq_ok hf hl, preorder_eq_ok hf' hlc, ht,
    fun later hargs => intact_run hf' hroot hlc htc later hargs, fun hd later hargs => ?_⟩
  obtain ⟨n, hn⟩ := isDetached_eq_ok.mp hd
  have hd' : f'.isDetached h = .ok true := isDetached_eq_ok.mpr ⟨n, (hgrow.kept hh).trans hn⟩
  have hi := intact_run hf' hd' hlh hth later hargs
  exact { hi with nodes := hkept.trans hi.nodes }

/-- A copy of `(a)` keeps its text when the original is discarded and an entry of the original is
used for another name; and the original does when the copy is discarded. -/
theorem copy_independent_parenthesized : ∃ f',
    Edit.copy ⟨1, 0⟩ (empty.run [.operate (.name "a"), .operate (.parenthesized ⟨0, 0⟩)]) =
      .ok ⟨3, 0⟩ f' ∧
    (f'.run [.operate (.discard ⟨1, 0⟩), .operate (.name "b")]).sourceText ⟨3, 0⟩ = .ok "(a)" ∧
    (f'.run [.operate (.discard ⟨3, 0⟩), .operate (.name "b")]).sourceText ⟨1, 0⟩ = .ok "(a)" := by
  obtain ⟨c, f', xs, ys, text, hcopy, hxs, hys, htext, hlater, hlater'⟩ := copy_independent
    [.operate (.name "a"), .operate (.parenthesized ⟨0, 0⟩)] (h := ⟨1, 0⟩) rfl
  obtain ⟨f₁, hrun, hlist⟩ : ∃ f₁, Edit.copy ⟨1, 0⟩
      (empty.run [.operate (.name "a"), .operate (.parenthesized ⟨0, 0⟩)]) = .ok ⟨3, 0⟩ f₁ ∧
        f₁.preorder ⟨3, 0⟩ = .ok [⟨3, 0⟩, ⟨2, 0⟩] := ⟨_, rfl, rfl⟩
  cases hcopy.symm.trans hrun
  obtain rfl : [⟨1, 0⟩, ⟨0, 0⟩] = xs := Except.ok.inj hxs
  obtain rfl : [⟨3, 0⟩, ⟨2, 0⟩] = ys := Except.ok.inj (hlist.symm.trans hys)
  obtain rfl : "(a)" = text := Except.ok.inj htext
  have hcopied := hlater [.operate (.discard ⟨1, 0⟩), .operate (.name "b")]
    (by simp [Step.arguments, Operation.arguments])
  have horiginal := hlater' rfl [.operate (.discard ⟨3, 0⟩), .operate (.name "b")]
    (by simp [Step.arguments, Operation.arguments])
  exact ⟨f', hcopy, hcopied.text, horiginal.text⟩

end SyntaxForest.Forest
