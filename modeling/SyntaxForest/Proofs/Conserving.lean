import SyntaxForest.Proofs.Swapping

/-! # Moves conserve

Six operations move nodes without making or destroying any: they put nodes into a field, take nodes
out of it, or both. All entries stay as they are, with their nodes. What changes is the content of the
one field, where the other children keep their order, and the owners of the nodes that come and go;
the trees below these nodes are the same as before (`moves_conserve`). -/

namespace SyntaxForest

/-! ### Operations that move nodes -/

/-- The operations that move nodes. -/
inductive Move where
  | replace (old new : Handle)
  | take (parent : Handle) (field : Field)
  | remove (parent : Handle) (field : Field) (index : Nat)
  | detach (h : Handle)
  | push (parent : Handle) (field : Field) (child : Handle)
  | insert (parent : Handle) (field : Field) (index : Nat) (child : Handle)
deriving DecidableEq, Repr

namespace Move

open Answer Edit in
/-- Runs an operation that moves nodes. -/
def run : Move → Edit Answer
  | replace old new => answering (fun _ => done) (Edit.replace old new)
  | take p field => answering found (Edit.take p field)
  | remove p field i => answering (fun h => found (some h)) (Edit.remove p field i)
  | detach h => answering (fun _ => done) (Edit.detach h)
  | push p field c => answering (fun _ => done) (Edit.push p field c)
  | insert p field i c => answering (fun _ => done) (Edit.insert p field i c)

/-- **What a move is about**: the field of `p` where, between the children `before` and `after`, the
nodes `outs` go out and the nodes `ins` come in. The nodes that were taken out of a field are
answered. -/
def Concerns (f : Forest) (a : Answer) (p : Handle) (field : Field)
    (before outs ins after : List Handle) : Move → Prop
  | replace old new => f.owner? old = .ok (some p) ∧ outs = [old] ∧ ins = [new]
  | take q g => q = p ∧ g = field ∧ before = [] ∧ after = [] ∧ ins = [] ∧
    f.slot p field = .ok outs.head? ∧ a = .found outs.head?
  | remove q g i => q = p ∧ g = field ∧ before.length = i ∧ ins = [] ∧
    ∃ c, outs = [c] ∧ a = .found (some c)
  | detach h => f.owner? h = .ok (some p) ∧ outs = [h] ∧ ins = []
  | push q g c => q = p ∧ g = field ∧ after = [] ∧ outs = [] ∧ ins = [c]
  | insert q g i c => q = p ∧ g = field ∧ before.length = i ∧ outs = [] ∧ ins = [c]

end Move

namespace Forest

variable {f f' : Forest} {p c : Handle} {field : Field}
  {before outs ins after : List Handle}

/-! ### What is conserved -/

/-- **A move conserves** all but what it is about. The entries, their generations, the free list and
the number of nodes are as before, and so are the live handles. A node keeps its kind, its literal, its
type, its source range and the content of its fields, except for the field of `p` where the nodes
`outs` give way to the nodes `ins`. The owner of these nodes alone is another one: `p` or none. The
trees below them are the same. -/
structure Conserved (f f' : Forest) (p : Handle) (field : Field)
    (before outs ins after : List Handle) : Prop where
  arena : f.SameArena f'
  generations : f'.entries.map Entry.generation = f.entries.map Entry.generation
  contains : ∀ k, f'.contains k = f.contains k
  nodes : ∀ k n, f.node k = .ok n → ∃ n', f'.node k = .ok n' ∧ n'.kind = n.kind ∧
    n'.payload.bare = n.payload.bare ∧ n'.type? = n.type? ∧ n'.span? = n.span? ∧
    ∀ g, k ≠ p ∨ g ≠ field → n'.payload.content g = n.payload.content g
  content : ∃ q q', f.payload p = .ok q ∧ f'.payload p = .ok q' ∧
    q.content field = before ++ outs ++ after ∧ q'.content field = before ++ ins ++ after
  owners : ∀ k, k ∉ ins → k ∉ outs → f'.owner? k = f.owner? k
  movedIn : ∀ c ∈ ins, f.owner? c = .ok none ∧ f'.owner? c = .ok (some p)
  movedOut : ∀ c ∈ outs, f.owner? c = .ok (some p) ∧ f'.owner? c = .ok none
  below : ∀ c ∈ ins ++ outs, ∃ tree, f.preorder c = .ok tree ∧ f'.preorder c = .ok tree ∧
    ∀ k ∈ tree, f'.node k = f.node k

namespace Swap

variable (hs : f.Swap f' p field before outs ins after)
include hs

variable (hf : f.WellFormed)
include hf

theorem exists_preorder (hc : f.contains c) (hu : ¬ f.Under p c) : ∃ tree, f.preorder c = .ok tree ∧
    f'.preorder c = .ok tree ∧ ∀ k ∈ tree, f'.node k = f.node k := by
  obtain ⟨tree, hl⟩ := exists_listing_of_contains hf hc
  have hkept : ∀ k ∈ tree, ∃ l m, f.live? k = some l ∧ f'.live? k = some m ∧ m.node = l.node := by
    intro k hk
    obtain ⟨l, hlive⟩ := contains_iff.mp (hl.live k hk)
    have hkp : k ≠ p := fun he => hu (he ▸ (mem_preorder hf hl).mp hk)
    exact ⟨l, _, hlive, hs.live?_eq hlive, if_neg hkp⟩
  have hsame : f.Counterparts f' tree id := fun k hk => by
    obtain ⟨l, m, hlive, hm, hnode⟩ := hkept k hk
    exact ⟨l, m, hlive, hm, by rw [Node.mapChildren_id, hnode]⟩
  have hl' : f'.Listing [c] tree := by simpa using hsame.listing hl
  refine ⟨tree, preorder_eq_ok hf hl, preorder_eq_ok (hs.wellFormed hf) hl', fun k hk => ?_⟩
  obtain ⟨l, m, hlive, hm, hnode⟩ := hkept k hk
  rw [node_eq_ok.mpr ⟨l, hlive, rfl⟩, node_eq_ok.mpr ⟨m, hm, hnode⟩]

theorem conserved : f.Conserved f' p field before outs ins after where
  arena := hs.arena
  generations := hs.arena.generations
  contains k := Bool.eq_iff_iff.mpr hs.exchange.contains_iff
  nodes k n hn := by
    obtain ⟨l, hl, rfl⟩ := node_eq_ok.mp hn
    refine ⟨_, node_eq_ok.mpr ⟨_, hs.live?_eq hl, rfl⟩, ?_⟩
    by_cases hkp : k = p
    · simp only [if_pos hkp, true_and]
      refine ⟨Payload.kind_withContent .., Payload.bare_withContent .., fun g hg => ?_⟩
      exact Payload.content_withContent_of_ne (hg.resolve_left fun hne => hne hkp) _
    · simp [hkp]
  content := by
    obtain ⟨l, m, hl, hm, -⟩ := hs.exists_target
    exact ⟨_, _, payload_eq_ok.mpr ⟨l, hl, rfl⟩, payload_eq_ok.mpr ⟨m, hm, rfl⟩,
      hs.content_before hl, hs.content_after hm⟩
  owners k hin hout := by
    rcases hl : f.live? k with _ | l
    · have hgone : f'.live? k = none := not_contains_iff.mp fun h =>
        not_contains_iff.mpr hl (hs.exchange.contains_iff.mp h)
      rw [owner?_of_stale hl, owner?_of_stale hgone]
    · have hview := hs.live?_eq hl
      rw [if_neg hout, if_neg hin] at hview
      rw [owner?_eq_ok.mpr ⟨l, hl, rfl⟩, owner?_eq_ok.mpr ⟨_, hview, rfl⟩]
  movedIn c hc := by
    obtain ⟨-, ⟨n, hn, -⟩, -⟩ := hs.exchange.ins c hc
    exact ⟨owner?_eq_ok.mpr ⟨_, hn, rfl⟩,
      owner?_eq_some.mpr (hs.exchange.owns_of_ins hf.ownership hc)⟩
  movedOut c hc := by
    have ho : f.owns p c := hs.exchange.owns_of_mem hf.ownership (by simp [hc])
    obtain ⟨n, hn⟩ := owns_iff.mp ho
    have hview := hs.live?_eq hn
    rw [if_pos hc] at hview
    exact ⟨owner?_eq_some.mpr ho, owner?_eq_ok.mpr ⟨_, hview, rfl⟩⟩
  below c hc := by
    rcases List.mem_append.mp hc with hin | hout
    · obtain ⟨-, ⟨n, hn, -⟩, hu⟩ := hs.exchange.ins c hin
      exact hs.exists_preorder hf (contains_iff.mpr ⟨_, hn⟩) hu
    · have ho : f.owns p c := hs.exchange.owns_of_mem hf.ownership (by simp [hout])
      exact hs.exists_preorder hf (contains_of_owns ho) (hf.ownership.not_under ho)

end Swap

end Forest

open Forest

/-- **An accepted move is a swap** of what it is about. -/
theorem Move.exists_swap {f f' : Forest} (hf : f.WellFormed) (m : Move) {a : Answer}
    (hr : m.run f = .ok a f') : ∃ p field before outs ins after,
      m.Concerns f a p field before outs ins after ∧ f.Swap f' p field before outs ins after := by
  cases m with
  | replace old new =>
    obtain ⟨_, hedit, rfl⟩ := Edit.answering_eq_ok.mp hr
    obtain ⟨p, field, before, after, ho, hs⟩ := Edit.swap_replace hf hedit
    exact ⟨p, field, before, _, _, after, ⟨owner?_eq_some.mpr ho, rfl, rfl⟩, hs⟩
  | take p field =>
    obtain ⟨o, hedit, rfl⟩ := Edit.answering_eq_ok.mp hr
    obtain ⟨l, hl, hslot, -⟩ := Edit.take_eq_ok hedit
    have ho : o.toList.head? = o := by cases o <;> rfl
    refine ⟨p, field, [], _, [], [], ⟨rfl, rfl, rfl, rfl, rfl, ?_, ?_⟩, Edit.swap_take hf hedit⟩
    · rw [ho, slot_eq_ok.mpr ⟨l, hl, hslot⟩]
    · rw [ho]
  | remove p field i =>
    obtain ⟨c, hedit, rfl⟩ := Edit.answering_eq_ok.mp hr
    obtain ⟨before, after, hlen, hs⟩ := Edit.swap_remove hf hedit
    exact ⟨p, field, before, _, _, after, ⟨rfl, rfl, hlen, rfl, c, rfl, rfl⟩, hs⟩
  | detach h =>
    obtain ⟨_, hedit, rfl⟩ := Edit.answering_eq_ok.mp hr
    obtain ⟨p, field, before, after, ho, hs⟩ := Edit.swap_detach hf hedit
    exact ⟨p, field, before, _, _, after, ⟨owner?_eq_some.mpr ho, rfl, rfl⟩, hs⟩
  | push p field c =>
    obtain ⟨_, hedit, rfl⟩ := Edit.answering_eq_ok.mp hr
    obtain ⟨before, hs⟩ := Edit.swap_push hf hedit
    exact ⟨p, field, before, _, _, [], ⟨rfl, rfl, rfl, rfl, rfl⟩, hs⟩
  | insert p field i c =>
    obtain ⟨_, hedit, rfl⟩ := Edit.answering_eq_ok.mp hr
    obtain ⟨before, after, hlen, hs⟩ := Edit.swap_insert hf hedit
    exact ⟨p, field, before, _, _, after, ⟨rfl, rfl, hlen, rfl, rfl⟩, hs⟩

namespace Forest

/-- **Moves conserve**, in every forest that a run reaches. -/
theorem moves_conserve (steps : List Step) (m : Move) {a : Answer} {f' : Forest}
    (hr : m.run (empty.run steps) = .ok a f') : ∃ p field before outs ins after,
      m.Concerns (empty.run steps) a p field before outs ins after ∧
      (empty.run steps).Conserved f' p field before outs ins after := by
  have hf : (empty.run steps).WellFormed := wellFormed_run steps wellFormed_empty
  generalize empty.run steps = f at *
  obtain ⟨p, field, before, outs, ins, after, hc, hs⟩ := m.exists_swap hf hr
  exact ⟨p, field, before, outs, ins, after, hc, hs.conserved hf⟩

/-- The second of two statements is replaced: it goes out with what is below it, and the first one
stays where it is. -/
theorem moves_conserve_second_statement : ∃ f f', f = empty.run [.operate (.name "a"),
      .operate (.expressionStatement ⟨0, 0⟩), .operate (.returnStatement none),
      .operate (.name "b"), .operate (.expressionStatement ⟨3, 0⟩),
      .operate (.block [⟨2, 0⟩, ⟨1, 0⟩])] ∧
    (Move.replace ⟨1, 0⟩ ⟨4, 0⟩).run f = .ok .done f' ∧
    f.Conserved f' ⟨5, 0⟩ .statements [⟨2, 0⟩] [⟨1, 0⟩] [⟨4, 0⟩] [] := by
  obtain ⟨f', hrun⟩ : ∃ f', (Move.replace ⟨1, 0⟩ ⟨4, 0⟩).run (empty.run [.operate (.name "a"),
      .operate (.expressionStatement ⟨0, 0⟩), .operate (.returnStatement none),
      .operate (.name "b"), .operate (.expressionStatement ⟨3, 0⟩),
      .operate (.block [⟨2, 0⟩, ⟨1, 0⟩])]) = .ok .done f' := ⟨_, rfl⟩
  obtain ⟨p, field, before, outs, ins, after, ⟨hp, rfl, rfl⟩, hconserved⟩ := moves_conserve _ _ hrun
  obtain rfl : ⟨5, 0⟩ = p := Option.some.inj (Except.ok.inj hp)
  obtain ⟨q, -, hq, -, hcontent, -⟩ := hconserved.content
  obtain rfl : .block [⟨2, 0⟩, ⟨1, 0⟩] = q := Except.ok.inj hq
  refine ⟨_, f', rfl, hrun, ?_⟩
  have hfield : field = .statements := by
    cases field <;> first | rfl | simp [Payload.content, Payload.slot?, Payload.seq?] at hcontent
  subst hfield
  rcases before with _ | ⟨x, _ | ⟨y, before⟩⟩ <;>
    simp [Payload.content, Payload.slot?, Payload.seq?] at hcontent
  obtain ⟨rfl, rfl⟩ := hcontent
  exact hconserved

end Forest

end SyntaxForest
