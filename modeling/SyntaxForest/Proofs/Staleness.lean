import SyntaxForest.Proofs.Run
import SyntaxForest.Walk.Editor

/-! # Stale handles

A stale handle is refused by `staleNode` wherever it is looked up. Most operations and questions look
one handle up at once. Those that look up a second one do so when the first passes its checks, and a
new node looks its children up one after another: `Operation.LooksUp`, `Question.LooksUp`. -/

namespace SyntaxForest

open Forest

/-- Building a node over its children looks `h` up: the children before it pass the checks. -/
def Payload.LooksUp (p : Payload) (f : Forest) (h : Handle) : Prop :=
  ∃ before field after, p.childFields = before ++ (field, h) :: after ∧
    f.checkChildren [] before = .ok ()

/-- **An operation looks `h` up** among the handles given to it: all checks before pass. -/
def Operation.LooksUp (f : Forest) (h : Handle) : Operation → Prop
  | number _ | boolean _ | string _ | null | name _ => False
  | parenthesized e => (Payload.parenthesized (some e)).LooksUp f h
  | chain _ o l r => (Payload.chain o (some l) (some r) []).LooksUp f h
  | conditional _ c t e => (Payload.conditional (some c) (some t) (some e)).LooksUp f h
  | expressionStatement e => (Payload.expressionStatement (some e)).LooksUp f h
  | returnStatement e => (Payload.returnStatement e).LooksUp f h
  | block xs => (Payload.block xs).LooksUp f h
  | ifStatement c t e => (Payload.ifStatement (some c) (some t) e).LooksUp f h
  | setType k _ | setSpan k _ | take k _ | clearSlot k _ | remove k _ _ | clearSeq k _ | detach k
  | discard k | copy k => h = k
  | viewRemove v _ => h = v.parent
  | setSlot p field c => h = p ∨ h = c ∧ ∃ o, f.slot p field = .ok o
  | setLeftOperand p c | setRightOperand p c => h = p ∨ h = c ∧ ∃ o, f.operator p = .ok o
  | copySlotFrom p field source _ => h = p ∨ h = source ∧ ∃ b, f.slotIsOptional p field = .ok b
  | insert p field i c => h = p ∨ h = c ∧ ∃ xs, f.seq p field = .ok xs ∧ i ≤ xs.length
  | push p field c => h = p ∨ h = c ∧ ∃ xs, f.seq p field = .ok xs
  | viewInsert v i c => h = v.parent ∨ h = c ∧ ∃ xs, f.seq v.parent v.field = .ok xs ∧ i ≤ xs.length
  | viewPush v c => h = v.parent ∨ h = c ∧ ∃ xs, f.seq v.parent v.field = .ok xs
  | copySeqFrom p field source _ => h = p ∨ h = source ∧ ∃ xs, f.seq p field = .ok xs
  | replace old new => h = old ∨ h = new ∧ ∃ p, f.ownerOf old = .ok p

/-- **A question looks `h` up.** A view is made while its parent is live and used before that can
change, so that reading it looks nothing up. -/
def Question.LooksUp (f : Forest) (h : Handle) : Question → Prop
  | node k | kind k | type k | span k | identifier k | operator k | text k | owner k | isDetached k
  | rootOf k | children k | preorder k | postorder k | slot k _ | seq k _ | leftOperand k
  | rightOperand k | extendedOperands k | operands k | view k _ | viewOfChain k => h = k
  | isAncestor ancestor k => h = ancestor ∨ h = k ∧ f.contains ancestor
  | viewElements _ | roots => False

namespace Forest

variable {f : Forest} {h p : Handle} {field : Field}

/-! ### Queries -/

theorem kind_of_stale (hs : f.live? h = none) : f.kind h = .error (.staleNode h) := by
  simp [kind, node, live_of_stale hs, bind, Except.bind]

theorem owner?_of_stale (hs : f.live? h = none) : f.owner? h = .error (.staleNode h) := by
  simp [owner?, live_of_stale hs, bind, Except.bind]

theorem ownerOf_of_stale (hs : f.live? h = none) : f.ownerOf h = .error (.staleNode h) := by
  simp [ownerOf, owner?_of_stale hs, bind, Except.bind]

theorem slot_of_stale (hs : f.live? h = none) : f.slot h field = .error (.staleNode h) := by
  simp [slot, payload_of_stale hs, bind, Except.bind]

theorem slotIsOptional_of_stale (hs : f.live? h = none) :
    f.slotIsOptional h field = .error (.staleNode h) := by
  simp [slotIsOptional, payload_of_stale hs, bind, Except.bind]

theorem optionalSlot_of_stale (hs : f.live? h = none) :
    f.optionalSlot h field = .error (.staleNode h) := by
  simp [optionalSlot, payload_of_stale hs, bind, Except.bind]

theorem seq_of_stale (hs : f.live? h = none) : f.seq h field = .error (.staleNode h) := by
  simp [seq, payload_of_stale hs, bind, Except.bind]

theorem operator_of_stale (hs : f.live? h = none) : f.operator h = .error (.staleNode h) := by
  simp [operator, payload_of_stale hs, bind, Except.bind]

theorem checkAttachable_of_stale (hs : f.live? h = none) :
    f.checkAttachable field h = .error (.staleNode h) := by
  simp [checkAttachable, hs]

theorem checkInstallable_of_stale (hs : f.live? h = none) :
    f.checkInstallable p field h = .error (.staleNode h) := by
  simp [checkInstallable, checkAttachable_of_stale hs, bind, Except.bind]

theorem checkChildren_of_stale (hs : f.live? h = none) {after : List (Field × Handle)} :
    ∀ {before : List (Field × Handle)} {seen : List Handle}, f.checkChildren seen before = .ok () →
      f.checkChildren seen (before ++ (field, h) :: after) = .error (.staleNode h)
  | [], seen, _ => by simp [checkChildren, checkAttachable_of_stale hs, bind, Except.bind]
  | (g, c) :: before, seen, hc => by
    rw [checkChildren, Except.bind_eq_ok] at hc
    obtain ⟨_, ha, hc⟩ := hc
    split_ifs at hc with hm
    have ih : f.checkChildren (c :: seen) (before ++ (field, h) :: after) = _ :=
      checkChildren_of_stale hs hc
    simp only [List.cons_append, checkChildren, ha, bind, Except.bind, if_neg hm, ih]

theorem slot_of_operator {o : Operator} (ho : f.operator h = .ok o) :
    (∃ x, f.slot h .leftOperand = .ok x) ∧ ∃ x, f.slot h .rightOperand = .ok x := by
  obtain ⟨q, hq, ho⟩ := Except.bind_eq_ok.mp ho
  obtain ⟨l, hl, rfl⟩ := payload_eq_ok.mp hq
  split at ho
  · next heq =>
    exact ⟨⟨_, slot_eq_ok.mpr ⟨l, hl, by rw [heq]; rfl⟩⟩,
      ⟨_, slot_eq_ok.mpr ⟨l, hl, by rw [heq]; rfl⟩⟩⟩
  · cases ho

end Forest

/-! ### Operations -/

namespace Edit

variable {α : Type} {f : Forest} {h p c : Handle} {field : Field}

/-- The edit refuses the handle and changes nothing. -/
def Refuses (x : Edit α) (f : Forest) (h : Handle) : Prop := x f = .error (.staleNode h) f

theorem Refuses.bind {β : Type} {x : Edit β} (hx : x.Refuses f h) (k : β → Edit α) :
    (x >>= k).Refuses f h := bind_of_error hx

theorem refuses_ask {q : Forest → Except TreeError α} (hq : q f = .error (.staleNode h)) :
    (ask q).Refuses f h := ask_of_error hq

theorem Refuses.after_ask {β : Type} {q : Forest → Except TreeError β} {b : β} {k : β → Edit α}
    (hq : q f = .ok b) (hk : (k b).Refuses f h) : (ask q >>= k).Refuses f h :=
  (bind_of_ok (ask_of_ok hq)).trans hk

theorem refuses_build {node : Node} (hl : node.payload.LooksUp f h) (hs : f.live? h = none) :
    (build node).Refuses f h := by
  obtain ⟨before, field, after, heq, hc⟩ := hl
  refine (refuses_ask ?_).bind _
  rw [heq]; exact checkChildren_of_stale hs hc

theorem refuses_setSlot (hl : h = p ∨ h = c ∧ ∃ o, f.slot p field = .ok o) (hs : f.live? h = none) :
    (setSlot p field c).Refuses f h := by
  rcases hl with rfl | ⟨rfl, o, ho⟩
  · exact (refuses_ask (slot_of_stale hs)).bind _
  · exact .after_ask ho ((refuses_ask (checkInstallable_of_stale hs)).bind _)

theorem refuses_take (hs : f.live? h = none) : (take h field).Refuses f h :=
  (refuses_ask (optionalSlot_of_stale hs)).bind _

theorem refuses_insert {i : Nat} (hl : h = p ∨ h = c ∧ ∃ xs, f.seq p field = .ok xs ∧ i ≤ xs.length)
    (hs : f.live? h = none) : (insert p field i c).Refuses f h := by
  rcases hl with rfl | ⟨rfl, xs, hx, hi⟩
  · exact (refuses_ask (seq_of_stale hs)).bind _
  · refine .after_ask hx ?_
    rw [if_neg (Nat.not_lt.mpr hi)]
    exact (refuses_ask (checkInstallable_of_stale hs)).bind _

theorem refuses_push (hl : h = p ∨ h = c ∧ ∃ xs, f.seq p field = .ok xs) (hs : f.live? h = none) :
    (push p field c).Refuses f h := by
  rcases hl with rfl | ⟨rfl, xs, hx⟩
  · exact (refuses_ask (seq_of_stale hs)).bind _
  · exact .after_ask hx (refuses_insert (Or.inr ⟨rfl, xs, hx, le_rfl⟩) hs)

theorem refuses_remove {i : Nat} (hs : f.live? h = none) : (remove h field i).Refuses f h :=
  (refuses_ask (seq_of_stale hs)).bind _

theorem refuses_replace (hf : f.WellFormed) {old new : Handle}
    (hl : h = old ∨ h = new ∧ ∃ p, f.ownerOf old = .ok p) (hs : f.live? h = none) :
    (replace old new).Refuses f h := by
  rcases hl with rfl | ⟨rfl, p, hp⟩
  · exact (refuses_ask (ownerOf_of_stale hs)).bind _
  · obtain ⟨l, hl, hm⟩ := hf.ownership.owner (ownerOf_eq_ok.mp hp) (by simp)
    obtain ⟨place, hplace⟩ := Payload.exists_placeOf? hm
    refine .after_ask hp (.after_ask (placeOf_eq_ok.mpr ⟨l, hl, hplace⟩) ?_)
    exact (refuses_ask (checkInstallable_of_stale hs)).bind _

/-- An extension refuses a stale node when its turn comes, after the nodes before it. -/
theorem extend_of_stale {v : SequenceView} {after : List Handle} (hs : f.live? h = none)
    {xs : List Handle} (hx : f.seq v.parent v.field = .ok xs) : ∀ {before : List Handle} {g : Forest},
      v.extend before g = .ok () f → v.extend (before ++ h :: after) g = .error (.staleNode h) f
  | [], g, hb => by
    cases hb
    exact (refuses_push (Or.inr ⟨rfl, xs, hx⟩) hs : (v.push h).Refuses f h).bind _
  | c :: before, g, hb => by
    rw [SequenceView.extend] at hb
    rw [List.cons_append, SequenceView.extend]
    rcases hr : v.push c g with ⟨_, g'⟩ | ⟨e, g'⟩
    · rw [bind_of_ok hr] at hb ⊢
      exact extend_of_stale hs hx hb
    · rw [bind_of_error hr] at hb; cases hb

end Edit

open Edit in
/-- **A stale handle is refused** by every operation that looks it up. -/
theorem Operation.run_of_stale {f : Forest} {h : Handle} (hf : f.WellFormed) (hs : f.live? h = none) :
    ∀ {op : Operation}, op.LooksUp f h → op.run.Refuses f h := by
  intro op hl
  cases op with
  | number _ | boolean _ | string _ | null | name _ => exact absurd hl id
  | parenthesized _ | chain _ _ _ _ | conditional _ _ _ _ | expressionStatement _
  | returnStatement _ | block _ | ifStatement _ _ _ =>
    refine Refuses.bind ?_ _
    exact refuses_build hl hs
  | setType k _ | setSpan k _ =>
    obtain rfl : h = k := hl
    exact ((refuses_ask (live_of_stale hs)).bind _).bind _
  | setSlot p field c => exact (refuses_setSlot hl hs).bind _
  | setLeftOperand p c =>
    refine Refuses.bind ?_ _
    rcases hl with rfl | ⟨rfl, o, ho⟩
    · exact (refuses_ask (operator_of_stale hs)).bind _
    · exact .after_ask ho (refuses_setSlot (Or.inr ⟨rfl, (slot_of_operator ho).1⟩) hs)
  | setRightOperand p c =>
    refine Refuses.bind ?_ _
    rcases hl with rfl | ⟨rfl, o, ho⟩
    · exact (refuses_ask (operator_of_stale hs)).bind _
    · exact .after_ask ho (refuses_setSlot (Or.inr ⟨rfl, (slot_of_operator ho).2⟩) hs)
  | take k field =>
    obtain rfl : h = k := hl
    exact (refuses_take hs).bind _
  | clearSlot k field =>
    obtain rfl : h = k := hl
    exact ((refuses_take hs).bind _).bind _
  | copySlotFrom p field source sourceField =>
    refine Refuses.bind ?_ _
    rcases hl with rfl | ⟨rfl, b, hb⟩
    · exact (refuses_ask (slotIsOptional_of_stale hs)).bind _
    · exact .after_ask hb ((refuses_ask (slot_of_stale hs)).bind _)
  | insert p field i c => exact (refuses_insert hl hs).bind _
  | push p field c => exact (refuses_push hl hs).bind _
  | viewInsert v i c => exact (refuses_insert hl hs : (v.insert i c).Refuses f h).bind _
  | viewPush v c => exact (refuses_push hl hs : (v.push c).Refuses f h).bind _
  | remove k field i =>
    obtain rfl : h = k := hl
    exact (refuses_remove hs).bind _
  | viewRemove v i =>
    obtain rfl : h = v.parent := hl
    exact (refuses_remove hs : (v.remove i).Refuses f v.parent).bind _
  | clearSeq k field =>
    obtain rfl : h = k := hl
    exact ((refuses_ask (seq_of_stale hs)).bind _).bind _
  | copySeqFrom p field source sourceField =>
    refine Refuses.bind ?_ _
    rcases hl with rfl | ⟨rfl, xs, hx⟩
    · exact (refuses_ask (seq_of_stale hs)).bind _
    · exact .after_ask hx ((refuses_ask (seq_of_stale hs)).bind _)
  | replace old new => exact (refuses_replace hf hl hs).bind _
  | detach k =>
    obtain rfl : h = k := hl
    exact ((refuses_ask (ownerOf_of_stale hs)).bind _).bind _
  | discard k =>
    obtain rfl : h = k := hl
    exact ((refuses_ask (owner?_of_stale hs)).bind _).bind _
  | copy k =>
    obtain rfl : h = k := hl
    exact Refuses.bind (copy_eq_error hs) _

/-! ### Questions and walks -/

/-- **A stale handle is refused** by every question that looks it up. -/
theorem Question.answer_of_stale {f : Forest} {h : Handle} (hs : f.live? h = none) :
    ∀ {q : Question}, q.LooksUp f h → q.answer f = .error (.staleNode h) := by
  intro q hl
  cases q with
  | isAncestor ancestor k =>
    rcases hl with rfl | ⟨rfl, ha⟩
    · simp [answer, Forest.isAncestor, live_of_stale hs, bind, Except.bind]
    · obtain ⟨l, hl⟩ := contains_iff.mp ha
      simp [answer, Forest.isAncestor, live_eq_ok.mpr hl, live_of_stale hs, bind, Except.bind]
  | viewElements _ | roots => exact absurd hl id
  | preorder k =>
    obtain rfl : h = k := hl
    exact preorder_eq_error hs
  | postorder k =>
    obtain rfl : h = k := hl
    exact postorder_eq_error hs
  | text k =>
    obtain rfl : h = k := hl
    simp [answer, Forest.sourceText, Forest.fragment, kind_of_stale hs, bind, Except.bind]
  | leftOperand k | rightOperand k | extendedOperands k | operands k | viewOfChain k | operator k =>
    obtain rfl : h = k := hl
    simp [answer, Forest.leftOperand, Forest.rightOperand, Forest.extendedOperands, Forest.operands,
      SequenceView.ofChain, operator_of_stale hs, bind, Except.bind]
  | owner k | isDetached k =>
    obtain rfl : h = k := hl
    simp [answer, Forest.isDetached, owner?_of_stale hs, bind, Except.bind]
  | slot k _ | seq k _ | view k _ =>
    obtain rfl : h = k := hl
    simp [answer, SequenceView.of, slot_of_stale hs, seq_of_stale hs, bind, Except.bind]
  | node k | kind k | type k | span k | identifier k | rootOf k | children k =>
    obtain rfl : h = k := hl
    simp [answer, Forest.node, Forest.kind, Forest.type?, Forest.span?, Forest.identifier,
      Forest.payload, Forest.rootOf, Forest.children, live_of_stale hs, bind, Except.bind]

namespace Forest

variable {f : Forest} {h : Handle} {σ : Type}

theorem accept_of_stale (hs : f.live? h = none) (v : Visitor σ) (s : σ) :
    f.accept h v s = .error (.staleNode h) := by
  simp [accept, live_of_stale hs, bind, Except.bind]

theorem start_of_stale (hs : f.live? h = none) (e : Editor σ) (s : σ) :
    EditingWalk.start e h f s = .error (.staleNode h) := by
  simp [EditingWalk.start, live_of_stale hs, bind, Except.bind]

end Forest

end SyntaxForest
