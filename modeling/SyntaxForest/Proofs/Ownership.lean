import SyntaxForest.Proofs.Contents
import SyntaxForest.Proofs.Lookup
import Mathlib.Logic.Relation
import Mathlib.Order.WellFounded

/-! # Ownership in a forest

A forest is *well-formed* if its books are kept and owners and children agree: the children of a node
are distinct nodes that name it as their owner, a node with an owner is one of its children, owner
links lead upwards without cycles, every child is of the category of its field, and slots that have
to be occupied are.

While an operation is under way some nodes are *loose*: they still name an owner but are not among its
children, or the owner is gone. `Ownership f loose` allows that for the listed nodes. -/

namespace SyntaxForest

namespace Forest

variable {f f' : Forest} {loose : List Handle}

/-! ### Owners -/

theorem owns_iff {p c : Handle} : f.owns p c ↔ ∃ n, f.live? c = some ⟨n, some p⟩ := by
  unfold owns
  rcases f.live? c with _ | ⟨n, o⟩ <;> simp

theorem owns_of_live? {p c : Handle} {n : Node} (h : f.live? c = some ⟨n, some p⟩) : f.owns p c :=
  owns_iff.mpr ⟨n, h⟩

theorem owns_congr {p c : Handle} (h : f'.live? c = f.live? c) : f'.owns p c = f.owns p c := by
  unfold owns; rw [h]

theorem owner_unique {p q c : Handle} (hp : f.owns p c) (hq : f.owns q c) : p = q := by
  obtain ⟨n, hn⟩ := owns_iff.mp hp
  obtain ⟨m, hm⟩ := owns_iff.mp hq
  rw [hn] at hm; cases hm; rfl

theorem not_owns_of_root {p c : Handle} {n : Node} (h : f.live? c = some ⟨n, none⟩) :
    ¬ f.owns p c := by
  rw [owns_iff]; rintro ⟨m, hm⟩; rw [h] at hm; cases hm

theorem contains_of_owns {p c : Handle} (h : f.owns p c) : f.contains c := by
  obtain ⟨n, hn⟩ := owns_iff.mp h
  exact contains_iff.mpr ⟨_, hn⟩

/-- `p` is the owner of `c`. -/
def OwnedBy (f : Forest) (c p : Handle) : Prop := f.owns p c

/-- `a` is `k` itself or one of the owners above it. -/
def Under (f : Forest) (k a : Handle) : Prop := Relation.ReflTransGen f.OwnedBy k a

/-! ### Well-formed forests -/

/-- **Owners and children agree**, except for loose nodes. -/
structure Ownership (f : Forest) (loose : List Handle) : Prop where
  child : ∀ {p l c}, f.live? p = some l → c ∈ l.node.children → f.owns p c ∧ c ∉ loose
  nodup : ∀ {p l}, f.live? p = some l → l.node.children.Nodup
  owner : ∀ {p c}, f.owns p c → c ∉ loose → ∃ l, f.live? p = some l ∧ c ∈ l.node.children
  grounded : WellFounded fun p c => (f.owns p c : Prop)
  category : ∀ {p l field c m}, f.live? p = some l → c ∈ l.node.payload.content field →
    f.live? c = some m → m.node.kind.category = field.category
  occupied : ∀ {p l field}, f.live? p = some l → l.node.payload.slot? field = some none →
    l.node.payload.isOptional field

/-- **A well-formed forest**: the books are kept, and owners and children agree. -/
structure WellFormed (f : Forest) : Prop where
  books : f.Bookkept
  ownership : f.Ownership []

theorem wellFormed_empty : empty.WellFormed where
  books := bookkept_empty
  ownership := by
    have hdead := live?_empty
    have howns : ∀ p c, ¬ empty.owns p c := fun p c h => by
      obtain ⟨n, hn⟩ := owns_iff.mp h
      rw [hdead] at hn; cases hn
    refine ⟨?_, ?_, ?_, ⟨fun c => Acc.intro c fun p hp => absurd hp (howns p c)⟩, ?_, ?_⟩
    · intro p l c hp; rw [hdead] at hp; cases hp
    · intro p l hp; rw [hdead] at hp; cases hp
    · intro p c hp; exact absurd hp (howns p c)
    · intro p l field c m hp; rw [hdead] at hp; cases hp
    · intro p l field hp; rw [hdead] at hp; cases hp

namespace Ownership

theorem child_live (hf : f.Ownership loose) {p c : Handle} {l : LiveNode}
    (hp : f.live? p = some l) (hc : c ∈ l.node.children) : ∃ n, f.live? c = some ⟨n, some p⟩ :=
  owns_iff.mp (hf.child hp hc).1

theorem child_unique (hf : f.Ownership loose) {p q c : Handle} {l m : LiveNode}
    (hp : f.live? p = some l) (hq : f.live? q = some m) (hc : c ∈ l.node.children)
    (hd : c ∈ m.node.children) : p = q :=
  owner_unique (hf.child hp hc).1 (hf.child hq hd).1

end Ownership

end Forest

end SyntaxForest
