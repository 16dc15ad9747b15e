import SyntaxForest.Forest.Chains
import SyntaxForest.Forest.Moves
import SyntaxForest.Proofs.Storing
import SyntaxForest.Proofs.Lineage

/-! # What queries answer

A query looks a handle up and answers from its node; it is refused if the handle is stale or the node
has no such field. Each lemma `q_eq_ok` says of which nodes the query has which answer. -/

namespace SyntaxForest

theorem Except.bind_eq_ok {ε α β : Type} {x : Except ε α} {k : α → Except ε β} {b : β} :
    (x >>= k) = .ok b ↔ ∃ a, x = .ok a ∧ k a = .ok b := by
  cases x <;> simp [bind, Except.bind]

namespace Forest

variable {f : Forest} {h p c : Handle} {field : Field}

theorem live_eq_ok {l : LiveNode} : f.live h = .ok l ↔ f.live? h = some l := by
  unfold live; cases f.live? h <;> simp

theorem live_of_stale (hh : f.live? h = none) : f.live h = .error (.staleNode h) := by
  rw [live, hh]

theorem node_eq_ok {n : Node} : f.node h = .ok n ↔ ∃ l, f.live? h = some l ∧ l.node = n := by
  simp [node, Except.bind_eq_ok, live_eq_ok, pure, Except.pure]

theorem payload_eq_ok {q : Payload} :
    f.payload h = .ok q ↔ ∃ l, f.live? h = some l ∧ l.node.payload = q := by
  simp [payload, node, Except.bind_eq_ok, live_eq_ok, pure, Except.pure]

theorem payload_of_stale (hh : f.live? h = none) : f.payload h = .error (.staleNode h) := by
  simp [payload, node, live_of_stale hh, bind, Except.bind]

theorem kind_eq_ok {k : Kind} : f.kind h = .ok k ↔ ∃ l, f.live? h = some l ∧ l.node.kind = k := by
  simp [kind, node, Except.bind_eq_ok, live_eq_ok, pure, Except.pure]

theorem children_eq_ok {cs : List Handle} :
    f.children h = .ok cs ↔ ∃ l, f.live? h = some l ∧ l.node.children = cs := by
  simp [children, node, Except.bind_eq_ok, live_eq_ok, pure, Except.pure]

theorem owner?_eq_ok {o : Option Handle} :
    f.owner? h = .ok o ↔ ∃ l, f.live? h = some l ∧ l.owner? = o := by
  simp [owner?, Except.bind_eq_ok, live_eq_ok, pure, Except.pure]

theorem owner?_eq_some : f.owner? c = .ok (some p) ↔ f.owns p c := by
  rw [owner?_eq_ok, owns_iff]
  exact ⟨fun ⟨⟨n, _⟩, hn, ho⟩ => ⟨n, ho ▸ hn⟩, fun ⟨n, hn⟩ => ⟨_, hn, rfl⟩⟩

theorem ownerOf_eq_ok : f.ownerOf h = .ok p ↔ f.owns p h := by
  rw [owns_iff, ownerOf, Except.bind_eq_ok]
  constructor
  · rintro ⟨_, ho, hp⟩
    obtain ⟨⟨n, o⟩, hl, rfl⟩ := owner?_eq_ok.mp ho
    cases o with
    | none => cases hp
    | some q => cases hp; exact ⟨n, hl⟩
  · rintro ⟨n, hn⟩; exact ⟨_, owner?_eq_ok.mpr ⟨_, hn, rfl⟩, rfl⟩

theorem placeOf_eq_ok {place : Place} :
    f.placeOf p c = .ok place ↔
      ∃ l, f.live? p = some l ∧ l.node.payload.placeOf? c = some place := by
  rw [placeOf, Except.bind_eq_ok]
  constructor
  · rintro ⟨q, hq, hp⟩
    obtain ⟨l, hl, rfl⟩ := payload_eq_ok.mp hq
    rcases hplace : l.node.payload.placeOf? c with _ | q
    · simp [hplace, throw, throwThe, MonadExceptOf.throw] at hp
    · simp only [hplace, pure, Except.pure, Except.ok.injEq] at hp
      exact ⟨l, hl, hp ▸ hplace⟩
  · rintro ⟨l, hl, hp⟩
    exact ⟨_, payload_eq_ok.mpr ⟨l, hl, rfl⟩, by simp [hp, pure, Except.pure]⟩

theorem slot_eq_ok {o : Option Handle} :
    f.slot p field = .ok o ↔ ∃ l, f.live? p = some l ∧ l.node.payload.slot? field = some o := by
  rw [slot, Except.bind_eq_ok]
  constructor
  · rintro ⟨q, hq, ho⟩
    obtain ⟨l, hl, rfl⟩ := payload_eq_ok.mp hq
    rcases hs : l.node.payload.slot? field with _ | o'
    · simp [hs, throw, throwThe, MonadExceptOf.throw] at ho
    · simp only [hs, pure, Except.pure, Except.ok.injEq] at ho
      exact ⟨l, hl, ho ▸ hs⟩
  · rintro ⟨l, hl, hs⟩
    exact ⟨_, payload_eq_ok.mpr ⟨l, hl, rfl⟩, by simp [hs, pure, Except.pure]⟩

theorem optionalSlot_eq_ok {o : Option Handle} :
    f.optionalSlot p field = .ok o ↔ ∃ l, f.live? p = some l ∧
      l.node.payload.slot? field = some o ∧ l.node.payload.isOptional field := by
  rw [optionalSlot, Except.bind_eq_ok]
  constructor
  · rintro ⟨q, hq, ho⟩
    obtain ⟨l, hl, rfl⟩ := payload_eq_ok.mp hq
    rcases hs : l.node.payload.slot? field with _ | o'
    · simp [hs, throw, throwThe, MonadExceptOf.throw] at ho
    · simp only [hs] at ho
      split_ifs at ho with hopt
      · simp only [pure, Except.pure, Except.ok.injEq] at ho
        exact ⟨l, hl, ho ▸ hs, hopt⟩
  · rintro ⟨l, hl, hs, hopt⟩
    exact ⟨_, payload_eq_ok.mpr ⟨l, hl, rfl⟩, by simp [hs, hopt, pure, Except.pure]⟩

theorem seq_eq_ok {xs : List Handle} :
    f.seq p field = .ok xs ↔ ∃ l, f.live? p = some l ∧ l.node.payload.seq? field = some xs := by
  rw [seq, Except.bind_eq_ok]
  constructor
  · rintro ⟨q, hq, hx⟩
    obtain ⟨l, hl, rfl⟩ := payload_eq_ok.mp hq
    rcases hs : l.node.payload.seq? field with _ | xs'
    · simp [hs, throw, throwThe, MonadExceptOf.throw] at hx
    · simp only [hs, pure, Except.pure, Except.ok.injEq] at hx
      exact ⟨l, hl, hx ▸ hs⟩
  · rintro ⟨l, hl, hs⟩
    exact ⟨_, payload_eq_ok.mpr ⟨l, hl, rfl⟩, by simp [hs, pure, Except.pure]⟩

theorem slot_of_required (h : f.required p field = .ok c) : f.slot p field = .ok (some c) := by
  obtain ⟨o, ho, hc⟩ := Except.bind_eq_ok.mp h
  cases o with
  | none => cases hc
  | some d => cases hc; exact ho

theorem slotIsOptional_eq_ok {b : Bool} :
    f.slotIsOptional p field = .ok b ↔ ∃ l o, f.live? p = some l ∧
      l.node.payload.slot? field = some o ∧ l.node.payload.isOptional field = b := by
  rw [slotIsOptional, Except.bind_eq_ok]
  constructor
  · rintro ⟨q, hq, hb⟩
    obtain ⟨l, hl, rfl⟩ := payload_eq_ok.mp hq
    rcases hs : l.node.payload.slot? field with _ | o
    · simp [hs, throw, throwThe, MonadExceptOf.throw] at hb
    · simp only [hs, pure, Except.pure, Except.ok.injEq] at hb
      exact ⟨l, o, hl, hs, hb⟩
  · rintro ⟨l, o, hl, hs, hb⟩
    exact ⟨_, payload_eq_ok.mpr ⟨l, hl, rfl⟩, by simp [hs, hb, pure, Except.pure]⟩

theorem WellFormed.exists_required (hf : f.WellFormed) {l : LiveNode} (hl : f.live? p = some l)
    (field : Field) {o : Option Handle} (hs : l.node.payload.slot? field = some o)
    (hopt : l.node.payload.isOptional field = false) :
    ∃ c, o = some c ∧ f.required p field = .ok c := by
  cases o with
  | none =>
    have hoptional := hf.ownership.occupied hl hs
    rw [hopt] at hoptional
    cases hoptional
  | some c =>
    have hslot : f.slot p field = .ok (some c) := slot_eq_ok.mpr ⟨l, hl, hs⟩
    exact ⟨c, rfl, Except.bind_eq_ok.mpr ⟨_, hslot, rfl⟩⟩

/-- **When a node may be installed**: it may stand in the field, and the parent is not under it. -/
theorem checkInstallable_eq_ok (hf : f.WellFormed) (hp : f.contains p) :
    f.checkInstallable p field c = .ok () ↔ f.Attachable field c ∧ ¬ f.Under p c := by
  rw [checkInstallable, Except.bind_eq_ok]
  simp only [Except.bind_eq_ok]
  constructor
  · rintro ⟨_, hc, b, hb, hcycle⟩
    have ha := checkAttachable_eq_ok.mp hc
    obtain ⟨n, hn, -⟩ := id ha
    obtain ⟨b', hb', hiff⟩ := isAncestor_eq_ok hf (contains_iff.mpr ⟨_, hn⟩) hp
    rw [hb] at hb'; cases hb'
    refine ⟨ha, fun hu => ?_⟩
    rw [if_pos (hiff.mpr hu)] at hcycle; cases hcycle
  · rintro ⟨ha, hu⟩
    obtain ⟨n, hn, -⟩ := id ha
    obtain ⟨b, hb, hiff⟩ := isAncestor_eq_ok hf (contains_iff.mpr ⟨_, hn⟩) hp
    refine ⟨(), checkAttachable_eq_ok.mpr ha, b, hb, ?_⟩
    rw [if_neg (hiff.not.mpr hu)]; rfl

end Forest

end SyntaxForest
