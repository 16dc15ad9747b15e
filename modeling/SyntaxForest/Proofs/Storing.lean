import SyntaxForest.Forest.Build
import SyntaxForest.Proofs.Alike
import SyntaxForest.Proofs.Exchange

/-! # Storing nodes

A node may be stored if its children are roots of the right category, none listed twice, and it leaves
no slot empty that has to be occupied: `Storable`. Storing such a node keeps the forest well-formed
(`WellFormed.store`), and `checkChildren` accepts the children of no other nodes
(`checkChildren_eq_ok`).

Types and source ranges have no part in ownership: a change of them keeps a forest well-formed
(`WellFormed.annotate`). -/

namespace SyntaxForest.Forest

variable {f : Forest}

/-! ### Checks -/

/-- A root that may stand in a field. -/
def Attachable (f : Forest) (field : Field) (c : Handle) : Prop :=
  ∃ n, f.live? c = some ⟨n, none⟩ ∧ n.kind.category = field.category

theorem checkAttachable_eq_ok {field : Field} {c : Handle} :
    f.checkAttachable field c = .ok () ↔ f.Attachable field c := by
  unfold checkAttachable Attachable
  rcases f.live? c with _ | ⟨n, _ | p⟩
  · simp
  · simp only [Option.some.injEq, LiveNode.mk.injEq, and_true, exists_eq_left']
    split_ifs with h <;> simp [h]
  · simp

/-- **The checks of new children** pass for attachable children, none of them seen before and none
listed twice. -/
theorem checkChildren_eq_ok : ∀ {cs : List (Field × Handle)} {seen : List Handle},
    f.checkChildren seen cs = .ok () ↔
      (∀ e ∈ cs, f.Attachable e.1 e.2 ∧ e.2 ∉ seen) ∧ (cs.map Prod.snd).Nodup
  | [], seen => by simp [checkChildren]
  | (field, c) :: cs, seen => by
    have ih : f.checkChildren (c :: seen) cs = .ok () ↔ _ := checkChildren_eq_ok
    have hcheck : f.checkAttachable field c = .ok () ↔ _ := checkAttachable_eq_ok
    rcases he : f.checkAttachable field c with e | u
    · have hno : ¬ f.Attachable field c := fun h => by rw [hcheck.mpr h] at he; cases he
      simp [checkChildren, he, bind, Except.bind, hno]
    · have hyes := hcheck.mp he
      by_cases hs : c ∈ seen
      · simp [checkChildren, he, bind, Except.bind, hs, throw, throwThe, MonadExceptOf.throw]
      · simp only [checkChildren, he, bind, Except.bind, if_neg hs, ih, List.mem_cons, not_or,
          forall_eq_or_imp, List.map_cons, List.nodup_cons, List.mem_map, Prod.exists,
          exists_eq_right]
        constructor
        · rintro ⟨hall, hnd⟩
          exact ⟨⟨⟨hyes, hs⟩, fun e he => ⟨(hall e he).1, (hall e he).2.2⟩⟩,
            fun ⟨g, hg⟩ => (hall _ hg).2.1 rfl, hnd⟩
        · rintro ⟨⟨-, hall⟩, hc, hnd⟩
          exact ⟨fun e he => ⟨(hall e he).1, fun h => hc ⟨e.1, h ▸ he⟩, (hall e he).2⟩, hnd⟩

/-! ### Nodes that may be stored -/

/-- **A node that may be stored**: its children are roots of the right category and distinct, and a
slot is empty only if it may be. -/
structure Storable (f : Forest) (node : Node) : Prop where
  root : ∀ {field c}, c ∈ node.payload.content field → f.Attachable field c
  nodup : node.children.Nodup
  occupied : ∀ {field}, node.payload.slot? field = some none → node.payload.isOptional field

namespace Storable
variable {node : Node}

theorem attachable (hs : f.Storable node) {c : Handle} (hc : c ∈ node.children) :
    ∃ field, f.Attachable field c := by
  obtain ⟨field, hc⟩ := Payload.mem_children.mp hc
  exact ⟨field, hs.root hc⟩

theorem contains (hs : f.Storable node) {c : Handle} (hc : c ∈ node.children) : f.contains c := by
  obtain ⟨_, n, hn, -⟩ := hs.attachable hc
  exact contains_iff.mpr ⟨_, hn⟩

theorem live?_store (hs : f.Storable node) (hb : f.Bookkept) (k : Handle) :
    (f.store node).live? k =
      if k = f.nextHandle then some ⟨node, none⟩
      else if k ∈ node.children then
        (f.live? k).map fun l => { l with owner? := some f.nextHandle }
      else f.live? k :=
  hb.live?_store (fun _ hc => hs.contains hc) k

theorem live?_nextHandle (hs : f.Storable node) (hb : f.Bookkept) :
    (f.store node).live? f.nextHandle = some ⟨node, none⟩ := by
  rw [hs.live?_store hb, if_pos rfl]

theorem nextHandle_not_mem (hs : f.Storable node) (hb : f.Bookkept) :
    f.nextHandle ∉ node.children := fun hm =>
  not_contains_iff.mpr hb.not_contains_nextHandle (hs.contains hm)

theorem owns_store (hs : f.Storable node) (hb : f.Bookkept) {p c : Handle} :
    (f.store node).owns p c ↔
      c ∈ node.children ∧ p = f.nextHandle ∨ c ∉ node.children ∧ f.owns p c := by
  rw [owns_iff, owns_iff, hs.live?_store hb]
  by_cases hc : c = f.nextHandle
  · simp [hc, hs.nextHandle_not_mem hb, hb.not_contains_nextHandle]
  · by_cases hm : c ∈ node.children
    · obtain ⟨_, n, hn, -⟩ := hs.attachable hm
      simp [hc, hm, hn, eq_comm]
    · simp [hc, hm]

theorem live?_before (hs : f.Storable node) (hb : f.Bookkept) {k : Handle} {l : LiveNode}
    (hk : (f.store node).live? k = some l) :
    k = f.nextHandle ∧ l = ⟨node, none⟩ ∨ k ≠ f.nextHandle ∧ ∃ m, f.live? k = some m ∧
      l.node = m.node := by
  rw [hs.live?_store hb] at hk
  split_ifs at hk with h hm
  · exact Or.inl ⟨h, by simpa using hk.symm⟩
  · obtain ⟨m, hm, rfl⟩ := Option.map_eq_some_iff.mp hk
    exact Or.inr ⟨h, m, hm, rfl⟩
  · exact Or.inr ⟨h, l, hk, rfl⟩

theorem kind_store (hs : f.Storable node) (hb : f.Bookkept) {k : Handle} {l m : LiveNode}
    (hk : (f.store node).live? k = some l) (hm : f.live? k = some m) : l.node = m.node := by
  rcases hs.live?_before hb hk with ⟨rfl, -⟩ | ⟨-, m', hm', he⟩
  · rw [hb.not_contains_nextHandle] at hm; cases hm
  · rw [hm] at hm'; cases hm'; exact he

theorem live?_store_of_contains (hs : f.Storable node) (hb : f.Bookkept) {k : Handle}
    (hk : f.contains k) (hm : k ∉ node.children) : (f.store node).live? k = f.live? k := by
  have hne : k ≠ f.nextHandle := fun h => not_contains_iff.mpr hb.not_contains_nextHandle (h ▸ hk)
  rw [hs.live?_store hb, if_neg hne, if_neg hm]

theorem owns_store_of_owns (hs : f.Storable node) (hb : f.Bookkept) {p c : Handle}
    (ho : f.owns p c) : (f.store node).owns p c := by
  refine (hs.owns_store hb).mpr (Or.inr ⟨fun hm => ?_, ho⟩)
  obtain ⟨_, n, hn, -⟩ := hs.attachable hm
  exact not_owns_of_root hn ho

theorem content_before (hs : f.Storable node) (hf : f.WellFormed) {p c : Handle} {l : LiveNode}
    {field : Field} (hp : (f.store node).live? p = some l) (hc : c ∈ l.node.payload.content field) :
    ∃ m, f.live? c = some m ∧ m.node.kind.category = field.category := by
  rcases hs.live?_before hf.books hp with ⟨rfl, rfl⟩ | ⟨-, m, hm, he⟩
  · obtain ⟨n, hn, hcategory⟩ := hs.root hc
    exact ⟨_, hn, hcategory⟩
  · rw [he] at hc
    obtain ⟨n, hn⟩ := hf.ownership.child_live hm (Payload.mem_children.mpr ⟨field, hc⟩)
    exact ⟨_, hn, hf.ownership.category hm hc hn⟩

theorem ownership (hs : f.Storable node) (hf : f.WellFormed) : (f.store node).Ownership [] := by
  have hb := hf.books
  have hlive := fun k => hs.live?_store hb k
  constructor
  case child =>
    intro p l c hp hc
    refine ⟨?_, by simp⟩
    rcases hs.live?_before hb hp with ⟨rfl, rfl⟩ | ⟨-, m, hm, he⟩
    · exact (hs.owns_store hb).mpr (Or.inl ⟨hc, rfl⟩)
    · rw [he] at hc
      exact hs.owns_store_of_owns hb (hf.ownership.child hm hc).1
  case nodup =>
    intro p l hp
    rcases hs.live?_before hb hp with ⟨-, rfl⟩ | ⟨-, m, hm, he⟩
    · exact hs.nodup
    · rw [he]; exact hf.ownership.nodup hm
  case owner =>
    intro p c ho _
    rcases (hs.owns_store hb).mp ho with ⟨hc, rfl⟩ | ⟨-, ho⟩
    · exact ⟨_, by rw [hlive, if_pos rfl], hc⟩
    · obtain ⟨l, hl, hm⟩ := hf.ownership.owner ho (by simp)
      have hne : p ≠ f.nextHandle := fun h => by
        rw [h, hb.not_contains_nextHandle] at hl; cases hl
      by_cases hp : p ∈ node.children
      · exact ⟨{ l with owner? := some f.nextHandle },
          by rw [hlive, if_neg hne, if_pos hp, hl]; rfl, hm⟩
      · exact ⟨l, by rw [hlive, if_neg hne, if_neg hp, hl], hm⟩
  case grounded =>
    refine wellFounded_of_source (p := f.nextHandle) hf.ownership.grounded (fun p c ho => ?_) ?_
    · exact ((hs.owns_store hb).mp ho).symm.imp And.right And.right
    · refine Acc.intro _ fun p ho => ?_
      obtain ⟨n, hn⟩ := owns_iff.mp ho
      rw [hlive, if_pos rfl] at hn; cases hn
  case category =>
    intro p l field c m hp hc hm
    obtain ⟨m', hm', hcategory⟩ := hs.content_before hf hp hc
    rw [hs.kind_store hb hm hm']
    exact hcategory
  case occupied =>
    intro p l field hp
    rcases hs.live?_before hb hp with ⟨-, rfl⟩ | ⟨-, m, hm, he⟩
    · exact hs.occupied
    · rw [he]; exact hf.ownership.occupied hm

end Storable

/-- **Storing a node keeps a forest well-formed.** -/
theorem WellFormed.store {node : Node} (hf : f.WellFormed) (hs : f.Storable node) :
    (f.store node).WellFormed :=
  ⟨hf.books.store node, hs.ownership hf⟩

theorem storable_of_checkChildren {node : Node}
    (hc : f.checkChildren [] node.payload.childFields = .ok ())
    (ho : ∀ field, node.payload.slot? field = some none → node.payload.isOptional field) :
    f.Storable node := by
  obtain ⟨hall, hnd⟩ := checkChildren_eq_ok.mp hc
  exact ⟨fun h => (hall _ (Payload.mem_childFields.mpr h)).1, hnd, ho _⟩

theorem storable_leaf {node : Node} (hc : node.payload.childFields = [])
    (hs : ∀ field, node.payload.slot? field = none) : f.Storable node :=
  storable_of_checkChildren (by rw [hc]; rfl) fun field h => by rw [hs] at h; cases h

/-! ### Types and source ranges -/

/-- The forest with the type or the source range of a node changed. -/
def annotate (f : Forest) (h : Handle) (change : Node → Node) : Forest :=
  f.update h fun l => { l with node := change l.node }

theorem live?_annotate (f : Forest) (h k : Handle) (change : Node → Node) :
    (f.annotate h change).live? k =
      if k = h then (f.live? k).map fun l => { l with node := change l.node } else f.live? k :=
  f.live?_update h k _

theorem sameShape_annotate (f : Forest) (h : Handle) (change : Node → Node)
    (hc : ∀ n, (change n).payload = n.payload) : f.SameShape (f.annotate h change) := by
  intro k
  rw [live?_annotate]
  split_ifs with hk
  · rw [Option.map_map]
    exact congrArg (fun g => (f.live? k).map g) (by funext l; simp [hc])
  · rfl

theorem WellFormed.annotate (hf : f.WellFormed) (h : Handle) (change : Node → Node)
    (hc : ∀ n, (change n).payload = n.payload) : (f.annotate h change).WellFormed :=
  ⟨hf.books.update h _, (f.sameShape_annotate h change hc).ownership hf.ownership⟩

end SyntaxForest.Forest
