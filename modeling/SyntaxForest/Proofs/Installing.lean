import SyntaxForest.Proofs.Requirements

/-! # Installing is refused exactly when it must be

A node comes under another one when it is installed in a slot, inserted in a sequence, put where
another node stands, or given to a new node. The same is asked of it each time: that it is a root, of
the category of its field, and, if it goes into a tree, not the root of that tree. So each of these
operations is accepted if and only if it is `Admissible`, and otherwise refused by the first of its
requirements that fails (`installation_refused_iff`). -/

namespace SyntaxForest

open Forest Requirement

/-! ### Operations that install nodes -/

/-- The ways to build a node. -/
inductive Construction where
  | number (token : String)
  | boolean (value : Bool)
  | string (text : String)
  | null
  | name (identifier : String)
  | parenthesized (expression : Handle)
  | chain (type? : Option TypeRef) (operator : Operator) (left right : Handle)
    (extended : List Handle)
  | conditional (type? : Option TypeRef) (condition thenExpression elseExpression : Handle)
  | expressionStatement (expression : Handle)
  | returnStatement (expression : Option Handle)
  | block (statements : List Handle)
  | ifStatement (condition thenStatement : Handle) (elseStatement : Option Handle)
deriving DecidableEq, Repr

namespace Construction

/-- Builds a node. -/
def run : Construction → Edit Handle
  | number token => Edit.number token
  | boolean value => Edit.boolean value
  | string text => Edit.string text
  | null => Edit.null
  | name identifier => Edit.name identifier
  | parenthesized e => Edit.parenthesized e
  | chain type? o l r xs => Edit.chain type? o l r xs
  | conditional type? c t e => Edit.conditional type? c t e
  | expressionStatement e => Edit.expressionStatement e
  | returnStatement e => Edit.returnStatement e
  | block xs => Edit.block xs
  | ifStatement c t e => Edit.ifStatement c t e

/-- The children given to the new node, with their fields. -/
def given : Construction → List (Field × Handle)
  | number _ | boolean _ | string _ | null | name _ => []
  | parenthesized e | expressionStatement e => [(.expression, e)]
  | chain _ _ l r xs =>
    (.leftOperand, l) :: (.rightOperand, r) :: xs.map fun x => (.extendedOperands, x)
  | conditional _ c t e => [(.expression, c), (.thenExpression, t), (.elseExpression, e)]
  | returnStatement e => e.toList.map fun x => (.expression, x)
  | block xs => xs.map fun x => (.statements, x)
  | ifStatement c t e =>
    (.expression, c) :: (.thenStatement, t) :: e.toList.map fun x => (.elseStatement, x)

end Construction

/-- The operations that put a node under another one. -/
inductive Installation where
  | setSlot (parent : Handle) (field : Field) (child : Handle)
  | insert (parent : Handle) (field : Field) (index : Nat) (child : Handle)
  | replace (old new : Handle)
  | construct (node : Construction)
deriving DecidableEq, Repr

namespace Forest

/-- A node stands in a field of `p`. -/
def Holds (f : Forest) (p : Handle) (field : Field) (child : Handle) : Prop :=
  ∃ q, f.payload p = .ok q ∧ child ∈ q.content field

end Forest

namespace Installation

/-- Runs an operation that puts a node under another one. -/
def run : Installation → Edit Answer
  | setSlot p field c => Edit.answering (fun _ => .done) (Edit.setSlot p field c)
  | insert p field i c => Edit.answering (fun _ => .done) (Edit.insert p field i c)
  | replace old new => Edit.answering (fun _ => .done) (Edit.replace old new)
  | construct x => Edit.answering .created x.run

/-- `d` is to come under `q`, which is in the forest already. -/
def Installs (f : Forest) : Installation → Handle → Handle → Prop
  | setSlot p _ c, q, d | insert p _ _ c, q, d => q = p ∧ d = c
  | replace old new, q, d => f.owner? old = .ok (some q) ∧ d = new
  | construct _, _, _ => False

/-- What an operation requires apart from acyclicity, in the order in which it is checked. -/
def conditions (f : Forest) : Installation → List Requirement
  | setSlot p field c => [isLive f p, hasField f p field Kind.slots] ++ ofChild f c (· = field)
  | insert p field i c =>
    [isLive f p, hasField f p field Kind.sequences, inBounds f p field i] ++ ofChild f c (· = field)
  | replace old new =>
    [isLive f old, owned f old] ++ ofChild f new fun field => ∃ p, f.Holds p field old
  | construct x => ofChildren f [] x.given

/-- All that an operation requires: acyclicity is checked last. -/
def requirements (f : Forest) (x : Installation) : List Requirement :=
  x.conditions f ++ [acyclic f (x.Installs f)]

/-- **When an operation is accepted.** The parent has the field, a slot, or a sequence that is long
enough; the child is a root of the category of the field, and not the root of the parent. What takes
the place of another node is measured by the field that holds the other one. The children of a new
node are roots of the categories of their fields, and distinct. -/
def Admissible (f : Forest) : Installation → Prop
  | setSlot p field c =>
    (∃ k, f.kind p = .ok k ∧ field ∈ k.slots) ∧ f.Attachable field c ∧ f.rootOf p ≠ .ok c
  | insert p field i c =>
    (∃ k, f.kind p = .ok k ∧ field ∈ k.sequences) ∧ (∃ xs, f.seq p field = .ok xs ∧ i ≤ xs.length) ∧
      f.Attachable field c ∧ f.rootOf p ≠ .ok c
  | replace old new => ∃ p field, f.owner? old = .ok (some p) ∧ f.Holds p field old ∧
      f.Attachable field new ∧ f.rootOf old ≠ .ok new
  | construct x => (∀ e ∈ x.given, f.Attachable e.1 e.2) ∧ (x.given.map Prod.snd).Nodup

end Installation

/-! ### What the operations require -/

namespace Forest

variable {f : Forest} {p c : Handle} {field : Field}

theorem WellFormed.owns_of_holds (hf : f.WellFormed) (hc : f.Holds p field c) : f.owns p c := by
  obtain ⟨q, hq, hc⟩ := hc
  obtain ⟨l, hl, rfl⟩ := payload_eq_ok.mp hq
  exact hf.owns_of_content hl hc

theorem WellFormed.exists_place (hf : f.WellFormed) (ho : f.owns p c) :
    ∃ l place, f.live? p = some l ∧ l.node.payload.placeOf? c = some place := by
  obtain ⟨l, hl, hc⟩ := hf.ownership.owner ho List.not_mem_nil
  obtain ⟨place, hplace⟩ := Payload.exists_placeOf? hc
  exact ⟨l, place, hl, hplace⟩

/-- **A child stands in one field** of one node. -/
theorem WellFormed.holds_iff (hf : f.WellFormed) {l : LiveNode} {place : Place}
    (hl : f.live? p = some l) (hs : l.node.payload.placeOf? c = some place) :
    (∃ q, f.Holds q field c) ↔ field = place.field := by
  obtain ⟨l₁, l₂, hr⟩ := (Payload.stands_of_placeOf? hs).refilled_putAt
  have hmem : c ∈ l.node.payload.content place.field := by simp [(hr c).before]
  constructor
  · rintro ⟨q, hq⟩
    obtain rfl := owner_unique (hf.owns_of_holds hq) (hf.owns_of_content hl hmem)
    obtain ⟨_, hq, hc⟩ := hq
    obtain ⟨m, hm, rfl⟩ := payload_eq_ok.mp hq
    cases hl.symm.trans hm
    by_contra hne
    exact (Payload.nodup_children.mp (hf.ownership.nodup hl)).2 _ _ hne hc hmem
  · rintro rfl
    exact ⟨p, _, payload_eq_ok.mpr ⟨l, hl, rfl⟩, hmem⟩

theorem WellFormed.rootOf_eq (hf : f.WellFormed) (ho : f.owns p c) : f.rootOf p = f.rootOf c := by
  obtain ⟨l, hl, -⟩ := hf.ownership.owner ho List.not_mem_nil
  obtain ⟨r, hr, hp⟩ := rootOf_eq_ok hf (contains_iff.mpr ⟨l, hl⟩)
  obtain ⟨r', hr', hc⟩ := rootOf_eq_ok hf (contains_of_owns ho)
  have hclimb : f.Climb c r := .owner (owner?_eq_some.mpr ho) hp
  rw [hr, hr', hclimb.eq_of_mem_roots hc.mem_roots hc.under]

end Forest

namespace Edit

variable {f : Forest} {p c old new : Handle} {field : Field}

/-- **Building a node** requires its children to pass. -/
theorem demands_build (node : Node) :
    (build node).Demands f (ofChildren f [] node.payload.childFields) := by
  have hcheck := demands_checkChildren (f := f) node.payload.childFields []
  rw [← List.append_nil (ofChildren f [] node.payload.childFields)]
  exact .ask_bind hcheck fun _ _ => .of_ok rfl

theorem demands_construct (x : Construction) : x.run.Demands f (ofChildren f [] x.given) := by
  cases x with
  | number | boolean | string | null | name => exact .of_ok rfl
  | parenthesized | chain | conditional | expressionStatement | returnStatement | block
  | ifStatement => exact demands_build _

theorem demands_setSlot (hf : f.WellFormed) :
    (setSlot p field c).Demands f ((Installation.setSlot p field c).requirements f) := by
  have hlist : (Installation.setSlot p field c).requirements f =
      [isLive f p, hasField f p field Kind.slots] ++
        (ofChild f c (· = field) ++ [acyclic f fun q d => q = p ∧ d = c] ++ []) := by
    rfl
  rw [hlist]
  refine .ask_bind demands_slot fun o ho => ?_
  obtain ⟨l, hl, -⟩ := slot_eq_ok.mp ho
  exact .ask_bind (demands_checkInstallable hf (contains_iff.mpr ⟨l, hl⟩)) fun _ _ => .of_ok rfl

theorem demands_insert (hf : f.WellFormed) {i : Nat} :
    (insert p field i c).Demands f ((Installation.insert p field i c).requirements f) := by
  have hlist : (Installation.insert p field i c).requirements f =
      [isLive f p, hasField f p field Kind.sequences] ++
        inBounds f p field i ::
          (ofChild f c (· = field) ++ [acyclic f fun q d => q = p ∧ d = c] ++ []) := by
    rfl
  rw [hlist]
  refine .ask_bind demands_seq fun xs hx => ?_
  obtain ⟨l, hl, -⟩ := seq_eq_ok.mp hx
  refine .throw_if (by simp [inBounds, hx]) (fun e => by simp [inBounds, hx]) ?_
  exact .ask_bind (demands_checkInstallable hf (contains_iff.mpr ⟨l, hl⟩)) fun _ _ => .of_ok rfl

theorem demands_replace (hf : f.WellFormed) :
    (replace old new).Demands f ((Installation.replace old new).requirements f) := by
  have hlist : (Installation.replace old new).requirements f = [isLive f old, owned f old] ++
      ([] ++ (ofChild f new (fun field => ∃ p, f.Holds p field old) ++
        [acyclic f fun q d => f.owner? old = .ok (some q) ∧ d = new] ++ [])) := by
    rfl
  rw [hlist]
  refine .ask_bind demands_ownerOf fun p hp => ?_
  have hown : f.owns p old := ownerOf_eq_ok.mp hp
  obtain ⟨l, place, hl, hplace⟩ := hf.exists_place hown
  have htakes : (fun field => ∃ p, f.Holds p field old) = (· = place.field) :=
    funext fun field => propext (hf.holds_iff hl hplace)
  have hgoes : (fun q d => f.owner? old = .ok (some q) ∧ d = new) = fun q d => q = p ∧ d = new := by
    rw [owner?_eq_some.mpr hown]
    simp [eq_comm]
  have hfound : f.placeOf p old = .ok place := placeOf_eq_ok.mpr ⟨l, hl, hplace⟩
  rw [htakes, hgoes]
  refine .ask_bind (hfound ▸ .of_ok place) fun place' hplace' => ?_
  obtain rfl : place = place' := Except.ok.inj (hfound.symm.trans hplace')
  exact .ask_bind (demands_checkInstallable hf (contains_iff.mpr ⟨l, hl⟩)) fun _ _ => .of_ok rfl

end Edit

namespace Installation

variable {f : Forest}

theorem demands (hf : f.WellFormed) : ∀ x : Installation, x.run.Demands f (x.requirements f)
  | setSlot .. => (Edit.demands_setSlot hf).answering
  | insert .. => (Edit.demands_insert hf).answering
  | replace .. => (Edit.demands_replace hf).answering
  | construct x => ((Edit.demands_construct x).also (by simp [acyclic, Installs])).answering

/-- What is asked of the node with the field comes to what its kind says. -/
theorem forall_field {p : Handle} {field : Field} {fields : Kind → List Field} :
    (∀ r ∈ [isLive f p, hasField f p field fields], r.holds) ↔
      ∃ k, f.kind p = .ok k ∧ field ∈ fields k := by
  refine ⟨fun h => h (hasField f p field fields) (by simp), fun h => ?_⟩
  obtain ⟨k, hk, -⟩ := id h
  obtain ⟨l, hl, -⟩ := kind_eq_ok.mp hk
  exact List.forall_mem_cons.mpr ⟨contains_iff.mpr ⟨l, hl⟩, List.forall_mem_singleton.mpr h⟩

theorem forall_ofChild {takes : Field → Prop} {c : Handle} :
    (∀ r ∈ ofChild f c takes, r.holds) ↔ ∃ field, takes field ∧ f.Attachable field c := by
  simp only [ofChild, isLive, unowned, fits, List.forall_mem_cons, List.not_mem_nil,
    IsEmpty.forall_iff, implies_true, and_true]
  constructor
  · rintro ⟨-, ho, field, k, htakes, hk, hcat⟩
    obtain ⟨⟨n, _⟩, hn, rfl⟩ := owner?_eq_ok.mp ho
    obtain ⟨l, hl, rfl⟩ := kind_eq_ok.mp hk
    cases hn.symm.trans hl
    exact ⟨field, htakes, n, hn, hcat⟩
  · rintro ⟨field, htakes, n, hn, hcat⟩
    exact ⟨contains_iff.mpr ⟨_, hn⟩, owner?_eq_ok.mpr ⟨_, hn, rfl⟩, field, _, htakes,
      kind_eq_ok.mpr ⟨_, hn, rfl⟩, hcat⟩

theorem forall_ofChildren {cs : List (Field × Handle)} :
    (∀ r ∈ ofChildren f [] cs, r.holds) ↔
      (∀ e ∈ cs, f.Attachable e.1 e.2) ∧ (cs.map Prod.snd).Nodup := by
  have hcheck : f.checkChildren [] cs = .ok () ↔ _ := checkChildren_eq_ok
  simp only [List.not_mem_nil, not_false_eq_true, and_true] at hcheck
  rw [← (demands_checkChildren cs []).answered, ← hcheck]
  exact ⟨fun ⟨_, h⟩ => h, fun h => ⟨_, h⟩⟩

/-- **All requirements together** say when the operation is admissible. -/
theorem forall_requirements (hf : f.WellFormed) (x : Installation) :
    (∀ r ∈ x.requirements f, r.holds) ↔ x.Admissible f := by
  rw [requirements, List.forall_mem_append, List.forall_mem_singleton]
  cases x with
  | setSlot p field c =>
    rw [conditions, List.forall_mem_append, forall_field, forall_ofChild]
    simp [acyclic, Installs, Admissible, and_assoc]
  | insert p field i c =>
    have hlist : (insert p field i c).conditions f =
        [isLive f p, hasField f p field Kind.sequences] ++
          ([inBounds f p field i] ++ ofChild f c (· = field)) := rfl
    rw [hlist, List.forall_mem_append, List.forall_mem_append, forall_field, forall_ofChild]
    simp [acyclic, inBounds, Installs, Admissible, and_assoc]
  | replace old new =>
    rw [conditions, List.forall_mem_append, forall_ofChild]
    simp only [isLive, owned, acyclic, Installs, Admissible, List.forall_mem_cons, List.not_mem_nil,
      IsEmpty.forall_iff, implies_true, and_true]
    constructor
    · rintro ⟨⟨⟨-, p, hp⟩, field, ⟨q, hq⟩, ha⟩, hroot⟩
      have hown : f.owns p old := owner?_eq_some.mp hp
      obtain rfl := owner_unique (hf.owns_of_holds hq) hown
      exact ⟨q, field, hp, hq, ha, hf.rootOf_eq hown ▸ hroot q new ⟨hp, rfl⟩⟩
    · rintro ⟨p, field, hp, hq, ha, hroot⟩
      have hown : f.owns p old := owner?_eq_some.mp hp
      refine ⟨⟨⟨contains_of_owns hown, p, hp⟩, field, ⟨p, hq⟩, ha⟩, ?_⟩
      rintro q _ ⟨hq, rfl⟩
      rwa [hf.rootOf_eq (owner?_eq_some.mp hq)]
  | construct x => simp [conditions, forall_ofChildren, acyclic, Installs, Admissible]

/-- **An operation is accepted if and only if it is admissible.** -/
theorem accepted_iff (hf : f.WellFormed) (x : Installation) :
    (∃ a f', x.run f = .ok a f') ↔ x.Admissible f :=
  (x.demands hf).accepted.trans (x.forall_requirements hf)

theorem Installs.unique {x : Installation} {p q c d : Handle} (hp : x.Installs f p c)
    (hq : x.Installs f q d) : p = q ∧ c = d := by
  cases x with
  | setSlot | insert => exact ⟨hp.1.trans hq.1.symm, hp.2.trans hq.2.symm⟩
  | replace old new =>
    obtain ⟨hp, rfl⟩ := hp
    obtain ⟨hq, rfl⟩ := hq
    cases hp.symm.trans hq
    exact ⟨rfl, rfl⟩
  | construct => exact hp.elim

theorem not_cycle_ofChildren {p c : Handle} : ∀ (cs : List (Field × Handle)) (seen : List Handle),
    ∀ r ∈ ofChildren f seen cs, ¬ r.cause (.cycle p c)
  | [], _ => by simp [ofChildren]
  | (field, d) :: cs, seen => by
    have hrest := not_cycle_ofChildren (p := p) (c := c) cs (d :: seen)
    simpa [ofChildren, ofChild, isLive, unowned, fits, unseen] using hrest

/-- No other requirement fails for a cycle. -/
theorem not_cycle {p c : Handle} (x : Installation) :
    ∀ r ∈ x.conditions f, ¬ r.cause (.cycle p c) := by
  cases x with
  | setSlot => simp [conditions, ofChild, isLive, hasField, unowned, fits]
  | insert => simp [conditions, ofChild, isLive, hasField, inBounds, unowned, fits]
  | replace => simp [conditions, ofChild, isLive, owned, unowned, fits]
  | construct x => exact not_cycle_ofChildren x.given []

end Installation

namespace Forest

/-- **Installing is refused exactly when it must be**, in every forest that a run reaches. An operation
that puts a node under another one is accepted if and only if it is admissible. It is refused, with
the forest as it was, by the first of its requirements that fails. So it is refused for a cycle if and
only if all other requirements hold, and the node is the root of the tree that it would go into. -/
theorem installation_refused_iff (steps : List Step) (x : Installation) :
    ((∃ a f', x.run (empty.run steps) = .ok a f') ↔ x.Admissible (empty.run steps)) ∧
    (∀ e f', x.run (empty.run steps) = .error e f' ↔
      f' = empty.run steps ∧ FirstFailure (x.requirements (empty.run steps)) e) ∧
    ∀ p c, (∃ f', x.run (empty.run steps) = .error (.cycle p c) f') ↔
      x.Installs (empty.run steps) p c ∧ (∀ r ∈ x.conditions (empty.run steps), r.holds) ∧
        (empty.run steps).rootOf p = .ok c := by
  have hf : (empty.run steps).WellFormed := wellFormed_run steps wellFormed_empty
  generalize empty.run steps = f at *
  have hd := x.demands hf
  refine ⟨x.accepted_iff hf, hd.refused, fun p c => ?_⟩
  simp only [hd.refused, exists_eq_left, Installation.requirements, FirstFailure.append_iff]
  constructor
  · rintro (hfirst | ⟨hall, hlast⟩)
    · obtain ⟨r, hr, hcause⟩ := hfirst.exists_cause
      exact absurd hcause (x.not_cycle r hr)
    · cases hlast with
      | here hno hcause =>
        obtain ⟨q, d, hinstalls, hcycle⟩ := hcause
        cases hcycle
        refine ⟨hinstalls, hall, by_contra fun hroot => hno fun q d hinstalls' => ?_⟩
        obtain ⟨rfl, rfl⟩ := hinstalls.unique hinstalls'
        exact hroot
      | later _ hnil => exact absurd hnil FirstFailure.not_nil
  · rintro ⟨hinstalls, hall, hroot⟩
    exact .inr ⟨hall, .here (fun hacyclic => hacyclic p c hinstalls hroot) ⟨p, c, hinstalls, rfl⟩⟩

/-- A block does not come into a block that stands in it. -/
example : (Installation.insert ⟨0, 0⟩ .statements 0 ⟨1, 0⟩).run
    (empty.run [.operate (.block []), .operate (.block [⟨0, 0⟩])]) = .error (.cycle ⟨0, 0⟩ ⟨1, 0⟩)
      (empty.run [.operate (.block []), .operate (.block [⟨0, 0⟩])]) := rfl

end Forest

end SyntaxForest
