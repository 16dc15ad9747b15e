import SyntaxForest.Proofs.Ancestry
import SyntaxForest.Proofs.Aliasing

/-! # Requirements

An operation that checks before it changes anything has a list of requirements, in the order in which
they are checked: a condition, and what the operation is refused by when the condition fails. It is
accepted if all conditions hold, and refused by the first that fails (`Demands`, `Edit.Demands`).

The requirements of the checks that operations have in common are listed here: a node has a field
(`demands_slot`, `demands_seq`), a child may stand in it (`demands_checkAttachable`) and is not the
root above it (`demands_checkInstallable`), and the children of a new node may stand in their fields
together (`demands_checkChildren`). -/

namespace SyntaxForest

open Forest

/-! ### Lists of requirements -/

/-- **A requirement**: a condition, and the cause of the refusal if it fails. -/
structure Requirement where
  holds : Prop
  cause : TreeError → Prop

/-- The first requirement of a list that fails has the cause `e`. -/
inductive FirstFailure : List Requirement → TreeError → Prop
  | here {r : Requirement} {rs : List Requirement} {e : TreeError} (hr : ¬ r.holds)
      (hc : r.cause e) : FirstFailure (r :: rs) e
  | later {r : Requirement} {rs : List Requirement} {e : TreeError} (hr : r.holds)
      (hrs : FirstFailure rs e) : FirstFailure (r :: rs) e

namespace FirstFailure

variable {r : Requirement} {rs ss : List Requirement} {e : TreeError}

theorem not_nil : ¬ FirstFailure [] e := nofun

theorem cons_iff : FirstFailure (r :: rs) e ↔
    ¬ r.holds ∧ r.cause e ∨ r.holds ∧ FirstFailure rs e := by
  constructor
  · rintro (⟨hr, hc⟩ | ⟨hr, hrs⟩)
    · exact .inl ⟨hr, hc⟩
    · exact .inr ⟨hr, hrs⟩
  · rintro (⟨hr, hc⟩ | ⟨hr, hrs⟩)
    · exact .here hr hc
    · exact .later hr hrs

theorem append_iff : FirstFailure (rs ++ ss) e ↔
    FirstFailure rs e ∨ (∀ r ∈ rs, r.holds) ∧ FirstFailure ss e := by
  induction rs with
  | nil => simp [not_nil]
  | cons r rs ih =>
    rw [List.cons_append, cons_iff, cons_iff, ih, List.forall_mem_cons]
    tauto

theorem not_forall (h : FirstFailure rs e) : ¬ ∀ r ∈ rs, r.holds := by
  induction h with
  | here hr => exact fun hall => hr (hall _ List.mem_cons_self)
  | later _ _ ih => exact fun hall => ih fun r hr => hall r (List.mem_cons_of_mem _ hr)

theorem exists_cause (h : FirstFailure rs e) : ∃ r ∈ rs, r.cause e := by
  induction h with
  | here _ hc => exact ⟨_, List.mem_cons_self, hc⟩
  | later _ _ ih =>
    obtain ⟨r, hr, hc⟩ := ih
    exact ⟨r, List.mem_cons_of_mem _ hr, hc⟩

/-- When some requirement fails, those after the list are not looked at. -/
theorem append_left {e' : TreeError} (h : FirstFailure rs e') :
    FirstFailure (rs ++ ss) e ↔ FirstFailure rs e := by
  rw [append_iff, or_iff_left fun hss => h.not_forall hss.1]

theorem append_right (hall : ∀ r ∈ rs, r.holds) : FirstFailure (rs ++ ss) e ↔ FirstFailure ss e := by
  rw [append_iff, or_iff_right fun h => h.not_forall hall, and_iff_right hall]

end FirstFailure

/-! ### Questions and edits with requirements -/

section Demands

variable {α β : Type} {e : TreeError} {r : Requirement} {rs ss : List Requirement}

/-- **A question demands a list of requirements**: it is answered if all of them hold, and refused by
the first that fails. -/
structure Demands (x : Except TreeError α) (rs : List Requirement) : Prop where
  answered : (∃ a, x = .ok a) ↔ ∀ r ∈ rs, r.holds
  refused : ∀ e, x = .error e ↔ FirstFailure rs e

namespace Demands

variable {x : Except TreeError α} {k : α → Except TreeError β}

theorem of_ok (a : α) : Demands (.ok a) [] := ⟨by simp, by simp [FirstFailure.not_nil]⟩

theorem later (hr : r.holds) (hx : Demands x rs) : Demands x (r :: rs) where
  answered := by rw [hx.answered, List.forall_mem_cons, and_iff_right hr]
  refused e := by simp [hx.refused, FirstFailure.cons_iff, hr]

theorem of_error (hr : ¬ r.holds) (hc : ∀ e', r.cause e' ↔ e' = e) :
    Demands (.error e : Except TreeError α) (r :: rs) where
  answered := by simp [hr]
  refused e' := by simp [FirstFailure.cons_iff, hr, hc, eq_comm]

theorem bind (hx : Demands x rs) (hk : ∀ a, x = .ok a → Demands (k a) ss) :
    Demands (x >>= k) (rs ++ ss) := by
  rcases hv : x with e | a
  · -- some requirement of the first question fails
    have hfirst : FirstFailure rs e := (hx.refused e).mp hv
    have hno : ¬ ∀ r ∈ rs ++ ss, r.holds := (hfirst.append_left.mpr hfirst).not_forall
    refine ⟨iff_of_false (fun ⟨_, h⟩ => by cases h) hno, fun e' => ?_⟩
    rw [hfirst.append_left, ← hx.refused, hv]
    simp [Bind.bind, Except.bind]
  · have hall : ∀ r ∈ rs, r.holds := hx.answered.mp ⟨a, hv⟩
    refine ⟨?_, fun e' => ?_⟩
    · rw [List.forall_mem_append, and_iff_right hall]
      exact (hk a hv).answered
    · rw [FirstFailure.append_right hall]
      exact (hk a hv).refused e'

end Demands

namespace Edit

variable {f f' : Forest} {x : Edit α}

/-- **An edit demands a list of requirements**: it is accepted if all of them hold, and refused by the
first that fails, with the forest as it was. -/
structure Demands (x : Edit α) (f : Forest) (rs : List Requirement) : Prop where
  accepted : (∃ a f', x f = .ok a f') ↔ ∀ r ∈ rs, r.holds
  refused : ∀ e f', x f = .error e f' ↔ f' = f ∧ FirstFailure rs e

namespace Demands

theorem of_ok {a : α} (hx : x f = .ok a f') : x.Demands f [] :=
  ⟨by simp [hx], by simp [hx, FirstFailure.not_nil]⟩

theorem ask_bind {q : Forest → Except TreeError β} {k : β → Edit α}
    (hq : SyntaxForest.Demands (q f) rs) (hk : ∀ b, q f = .ok b → (k b).Demands f ss) :
    (ask q >>= k).Demands f (rs ++ ss) := by
  rcases hv : q f with e | b
  · have hfirst : FirstFailure rs e := (hq.refused e).mp hv
    have hno : ¬ ∀ r ∈ rs ++ ss, r.holds := (hfirst.append_left.mpr hfirst).not_forall
    have hrefuse : (ask q >>= k) f = .error e f := bind_of_error (ask_of_error hv)
    refine ⟨iff_of_false (fun ⟨a, f', h⟩ => ?_) hno, fun e' f' => ?_⟩
    · cases hrefuse.symm.trans h
    · rw [hrefuse, hfirst.append_left, ← hq.refused, hv]
      simp only [EStateM.Result.error.injEq, Except.error.injEq, eq_comm, and_comm]
  · have hall : ∀ r ∈ rs, r.holds := hq.answered.mp ⟨b, hv⟩
    refine ⟨?_, fun e' f' => ?_⟩
    · rw [bind_of_ok (ask_of_ok hv), List.forall_mem_append, and_iff_right hall]
      exact (hk b hv).accepted
    · rw [bind_of_ok (ask_of_ok hv), FirstFailure.append_right hall]
      exact (hk b hv).refused e' f'

theorem throw_if {p : Prop} [Decidable p] (hr : r.holds ↔ ¬ p) (hc : ∀ e', r.cause e' ↔ e' = e)
    (hx : x.Demands f rs) : (if p then throw e else x : Edit α).Demands f (r :: rs) := by
  by_cases hp : p
  · have hno : ¬ r.holds := fun h => hr.mp h hp
    have hthrow : (throw e : Edit α) f = .error e f := rfl
    rw [if_pos hp]
    refine ⟨iff_of_false (fun ⟨_, _, h⟩ => by cases h) fun h => hno (h r List.mem_cons_self),
      fun e' f' => ?_⟩
    rw [FirstFailure.cons_iff, or_iff_left fun h => hno h.1, hc, and_iff_right hno, hthrow]
    simp only [EStateM.Result.error.injEq, eq_comm, and_comm]
  · have hyes : r.holds := hr.mpr hp
    rw [if_neg hp]
    refine ⟨?_, fun e' f' => ?_⟩
    · rw [hx.accepted, List.forall_mem_cons, and_iff_right hyes]
    · rw [hx.refused, FirstFailure.cons_iff, or_iff_right fun h => h.1 hyes, and_iff_right hyes]

/-- A requirement that holds may be added at the end. -/
theorem also (hx : x.Demands f rs) (hr : r.holds) : x.Demands f (rs ++ [r]) where
  accepted := by
    rw [hx.accepted, List.forall_mem_append, List.forall_mem_singleton, and_iff_left hr]
  refused e f' := by
    simp [hx.refused, FirstFailure.append_iff, FirstFailure.cons_iff, FirstFailure.not_nil, hr]

theorem answering {answer : α → Answer} (hx : x.Demands f rs) :
    (Edit.answering answer x).Demands f rs := by
  refine ⟨?_, fun e f' => ?_⟩
  · rw [← hx.accepted]
    constructor
    · rintro ⟨_, f', hr⟩
      obtain ⟨a, ha, -⟩ := answering_eq_ok.mp hr
      exact ⟨a, f', ha⟩
    · rintro ⟨a, f', hr⟩
      exact ⟨_, f', answering_eq_ok.mpr ⟨a, hr, rfl⟩⟩
  · rw [← hx.refused]
    unfold Edit.answering
    rcases hr : x f with ⟨a, f₁⟩ | ⟨e₁, f₁⟩
    · rw [bind_of_ok hr]
      simp [pure, EStateM.pure]
    · rw [bind_of_error hr]
      simp

end Demands

end Edit

end Demands

/-! ### Fields of a kind -/

namespace Kind

/-- The slots that nodes of the kind have. -/
def slots : Kind → List Field
  | parenthesized | expressionStatement | returnStatement => [.expression]
  | chain => [.leftOperand, .rightOperand]
  | conditional => [.expression, .thenExpression, .elseExpression]
  | ifStatement => [.expression, .thenStatement, .elseStatement]
  | _ => []

/-- The sequences that nodes of the kind have. -/
def sequences : Kind → List Field
  | chain => [.extendedOperands]
  | block => [.statements]
  | _ => []

end Kind

namespace Payload

variable {p : Payload} {field : Field}

theorem mem_slots : field ∈ p.kind.slots ↔ ∃ o, p.slot? field = some o := by
  cases p <;> cases field <;> simp [kind, Kind.slots, slot?]

theorem mem_sequences : field ∈ p.kind.sequences ↔ ∃ xs, p.seq? field = some xs := by
  cases p <;> cases field <;> simp [kind, Kind.sequences, seq?]

end Payload

/-! ### Requirements of the checks -/

namespace Requirement

variable (f : Forest) (p c h : Handle) (field : Field)

/-- A handle names a node. -/
def isLive : Requirement := ⟨f.contains h, (· = .staleNode h)⟩

/-- A node has an owner. -/
def owned : Requirement := ⟨∃ p, f.owner? h = .ok (some p), (· = .detached h)⟩

/-- A node has a field, one of those that its kind has. -/
def hasField (fields : Kind → List Field) : Requirement where
  holds := ∃ k, f.kind p = .ok k ∧ field ∈ fields k
  cause e := ∃ k, f.kind p = .ok k ∧ e = .noSuchField k field

/-- A sequence is long enough for an index. -/
def inBounds (index : Nat) : Requirement where
  holds := ∃ xs, f.seq p field = .ok xs ∧ index ≤ xs.length
  cause e := ∃ xs, f.seq p field = .ok xs ∧ e = .indexOutOfBounds field index xs.length

/-- A node has no owner. -/
def unowned : Requirement where
  holds := f.owner? c = .ok none
  cause e := ∃ owner, f.owner? c = .ok (some owner) ∧ e = .alreadyOwned c owner

/-- A node is of the category of the fields in question. -/
def fits (takes : Field → Prop) : Requirement where
  holds := ∃ field k, takes field ∧ f.kind c = .ok k ∧ k.category = field.category
  cause e := ∃ field k, takes field ∧ f.kind c = .ok k ∧
    e = .categoryMismatch field field.category k

/-- A node is none of those listed before it. -/
def unseen (seen : List Handle) : Requirement := ⟨c ∉ seen, (· = .duplicateChild c)⟩

/-- A node is not the root of the tree that it goes into. -/
def acyclic (goes : Handle → Handle → Prop) : Requirement where
  holds := ∀ p c, goes p c → f.rootOf p ≠ .ok c
  cause e := ∃ p c, goes p c ∧ e = .cycle p c

/-- What a node that comes into a field has to be. -/
def ofChild (takes : Field → Prop) : List Requirement :=
  [isLive f c, unowned f c, fits f c takes]

/-- What the children of a new node have to be, when those in `seen` came before them. -/
def ofChildren (seen : List Handle) : List (Field × Handle) → List Requirement
  | [] => []
  | (field, child) :: rest =>
    ofChild f child (· = field) ++ unseen child seen :: ofChildren (child :: seen) rest

end Requirement

namespace Forest

open Requirement

variable {f : Forest} {p c h : Handle} {field : Field}

theorem demands_live : Demands (f.live h) [isLive f h] := by
  rcases hl : f.live? h with _ | l
  · rw [live_of_stale hl]
    exact .of_error (not_contains_iff.mpr hl) fun _ => Iff.rfl
  · rw [live_eq_ok.mpr hl]
    exact (Demands.of_ok l).later (contains_iff.mpr ⟨l, hl⟩)

theorem demands_payload : Demands (f.payload p) [isLive f p] := by
  rcases hl : f.live? p with _ | l
  · rw [payload_of_stale hl]
    exact .of_error (not_contains_iff.mpr hl) fun _ => Iff.rfl
  · rw [payload_eq_ok.mpr ⟨l, hl, rfl⟩]
    exact (Demands.of_ok _).later (contains_iff.mpr ⟨l, hl⟩)

theorem holds_hasField {l : LiveNode} (hl : f.live? p = some l) {fields : Kind → List Field} :
    (hasField f p field fields).holds ↔ field ∈ fields l.node.kind := by
  simp [hasField, kind_eq_ok, hl]

theorem demands_slot : Demands (f.slot p field) [isLive f p, hasField f p field Kind.slots] := by
  refine demands_payload.bind fun q hq => ?_
  obtain ⟨l, hl, rfl⟩ := payload_eq_ok.mp hq
  have hholds : (hasField f p field Kind.slots).holds ↔ _ :=
    (holds_hasField hl).trans Payload.mem_slots
  rcases hs : l.node.payload.slot? field with _ | o
  · refine .of_error (by simp [hholds, hs]) fun e => ?_
    simp [hasField, kind_eq_ok, hl, Node.kind]
  · exact (Demands.of_ok o).later (hholds.mpr ⟨o, hs⟩)

theorem demands_seq : Demands (f.seq p field) [isLive f p, hasField f p field Kind.sequences] := by
  refine demands_payload.bind fun q hq => ?_
  obtain ⟨l, hl, rfl⟩ := payload_eq_ok.mp hq
  have hholds : (hasField f p field Kind.sequences).holds ↔ _ :=
    (holds_hasField hl).trans Payload.mem_sequences
  rcases hs : l.node.payload.seq? field with _ | xs
  · refine .of_error (by simp [hholds, hs]) fun e => ?_
    simp [hasField, kind_eq_ok, hl, Node.kind]
  · exact (Demands.of_ok xs).later (hholds.mpr ⟨xs, hs⟩)

theorem demands_ownerOf : Demands (f.ownerOf h) [isLive f h, owned f h] := by
  have howner : Demands (f.owner? h) ([isLive f h] ++ []) :=
    demands_live.bind fun l _ => .of_ok l.owner?
  refine howner.bind fun o ho => ?_
  cases o with
  | none => exact .of_error (by simp [owned, ho]) fun e => Iff.rfl
  | some p => exact (Demands.of_ok p).later ⟨p, ho⟩

theorem demands_checkAttachable :
    Demands (f.checkAttachable field c) (ofChild f c (· = field)) := by
  unfold checkAttachable
  rcases hl : f.live? c with _ | ⟨n, _ | p⟩
  · exact .of_error (not_contains_iff.mpr hl) fun _ => Iff.rfl
  · have howner : f.owner? c = .ok none := owner?_eq_ok.mpr ⟨_, hl, rfl⟩
    refine .later (contains_iff.mpr ⟨_, hl⟩) (.later howner ?_)
    dsimp only
    split_ifs with hcat
    · exact (Demands.of_ok ()).later ⟨field, _, rfl, kind_eq_ok.mpr ⟨_, hl, rfl⟩, hcat⟩
    · exact .of_error (by simp [fits, kind_eq_ok, hl, hcat])
        fun e => by simp [fits, kind_eq_ok, hl]
  · have howner : f.owner? c = .ok (some p) := owner?_eq_ok.mpr ⟨_, hl, rfl⟩
    exact .later (contains_iff.mpr ⟨_, hl⟩)
      (.of_error (by simp [unowned, howner]) fun e => by simp [unowned, howner])

theorem under_iff_rootOf (hf : f.WellFormed) (hp : f.contains p) (hc : f.owner? c = .ok none) :
    f.Under p c ↔ f.rootOf p = .ok c := by
  obtain ⟨r, hr, hclimb⟩ := rootOf_eq_ok hf hp
  obtain ⟨⟨n, _⟩, hn, rfl⟩ := owner?_eq_ok.mp hc
  rw [hr, Except.ok.injEq]
  constructor
  · exact fun hu => (hclimb.eq_of_mem_roots (mem_roots.mpr ⟨n, hn⟩) hu).symm
  · rintro rfl
    exact hclimb.under

theorem demands_checkInstallable (hf : f.WellFormed) (hp : f.contains p) :
    Demands (f.checkInstallable p field c)
      (ofChild f c (· = field) ++ [acyclic f fun q d => q = p ∧ d = c]) := by
  refine demands_checkAttachable.bind fun _ hc => ?_
  obtain ⟨n, hn, -⟩ := checkAttachable_eq_ok.mp hc
  obtain ⟨b, hb, hunder⟩ := isAncestor_eq_ok hf (contains_iff.mpr ⟨_, hn⟩) hp
  rw [under_iff_rootOf hf hp (owner?_eq_ok.mpr ⟨_, hn, rfl⟩)] at hunder
  rw [hb]
  cases b with
  | true => exact .of_error (by simpa [acyclic] using hunder) fun e => by simp [acyclic]
  | false => exact (Demands.of_ok ()).later (by simpa [acyclic] using hunder)

theorem demands_checkChildren : ∀ (cs : List (Field × Handle)) (seen : List Handle),
    Demands (f.checkChildren seen cs) (ofChildren f seen cs)
  | [], _ => .of_ok ()
  | (field, c) :: cs, seen => by
    refine demands_checkAttachable.bind fun _ _ => ?_
    split_ifs with hc
    · exact .of_error (by simpa [unseen] using hc) fun _ => Iff.rfl
    · exact (demands_checkChildren cs (c :: seen)).later hc

end Forest

end SyntaxForest
