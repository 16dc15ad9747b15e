import SyntaxForest.Proofs.FieldCopies
import SyntaxForest.Proofs.Undoing

/-! # Sequences are lists

A sequence of a live node holds a list, and the calls on it do to the forest what list operations do
to that list: `SequenceCall.Does` says which one, for a call that is accepted and for one that is
refused. All else stays as it is (`SequenceView.Keeps`), apart from what a cleared sequence held.

* The elements are distinct, so that an element that is looked for by its handle stands at one index.
* A call that is refused leaves the list, except that `extend` is a run of pushes up to the first one
  that is refused (`extend_cases`). -/

namespace SyntaxForest

open Forest

/-! ### Calls -/

/-- A call on a sequence. -/
inductive SequenceCall where
  | insert (index : Nat) (child : Handle)
  | push (child : Handle)
  | remove (index : Nat)
  | extend (children : List Handle)
  | clear
  | replace (old new : Handle)
  | detach (h : Handle)
deriving DecidableEq, Repr

namespace SequenceCall

open Answer Edit in
/-- Runs a call, through the view if there is the choice and `viewed` says so. -/
def run (v : SequenceView) (viewed : Bool) : SequenceCall → Edit Answer
  | insert i c => answering (fun _ => done)
      (if viewed then v.insert i c else Edit.insert v.parent v.field i c)
  | push c => answering (fun _ => done) (if viewed then v.push c else Edit.push v.parent v.field c)
  | remove i => answering (fun h => found (some h))
      (if viewed then v.remove i else Edit.remove v.parent v.field i)
  | extend cs => answering (fun _ => done) (v.extend cs)
  | clear => answering (fun _ => done) (Edit.clearSeq v.parent v.field)
  | replace old new => answering (fun _ => done) (Edit.replace old new)
  | detach h => answering (fun _ => done) (Edit.detach h)

/-- Whether a call is on the sequence that holds `xs`: what is replaced or detached is an element. -/
def On (xs : List Handle) : SequenceCall → Prop
  | replace old _ => old ∈ xs
  | detach h => h ∈ xs
  | _ => True

/-- The elements that go with everything below them when the call is accepted. -/
def cleared (xs : List Handle) : SequenceCall → List Handle
  | clear => xs
  | _ => []

end SequenceCall

namespace SequenceView

/-- Nodes that are pushed one after another, each of them accepted. -/
def Accepts (v : SequenceView) : List Handle → Forest → Forest → Prop
  | [], f, f' => f' = f
  | c :: cs, f, f' => ∃ f₁, v.push c f = .ok () f₁ ∧ v.Accepts cs f₁ f'

/-- **What the view reports** of a sequence that holds `xs`. -/
structure Reports (v : SequenceView) (f : Forest) (xs : List Handle) : Prop where
  seq : f.seq v.parent v.field = .ok xs
  elements : v.elements f = xs
  length : v.length f = xs.length
  isEmpty : v.isEmpty f = xs.isEmpty
  get? : ∀ i, v.get? f i = xs[i]?
  nodup : xs.Nodup

/-- **All else is kept**: the nodes, apart from those under the given roots, and with them their slots
and their sequences, apart from the one that the view is of. -/
structure Keeps (v : SequenceView) (f f' : Forest) (roots : List Handle) : Prop where
  live : ∀ k, f'.contains k ↔ f.contains k ∧ ∀ r ∈ roots, ¬ f.Under k r
  slots : ∀ k g, f'.contains k → f'.slot k g = f.slot k g
  seqs : ∀ k g, f'.contains k → k ≠ v.parent ∨ g ≠ v.field → f'.seq k g = f.seq k g

end SequenceView

/-- **What a call does** to the list `xs` that a sequence holds. -/
def SequenceCall.Does (v : SequenceView) (f : Forest) (xs ys : List Handle) :
    SequenceCall → EStateM.Result TreeError Forest Answer → Prop
  | insert i c, .ok a _ => a = .done ∧ i ≤ xs.length ∧ ys = xs.insertIdx i c
  | push c, .ok a _ => a = .done ∧ ys = xs ++ [c]
  | remove i, .ok a _ => ∃ c, a = .found (some c) ∧ xs[i]? = some c ∧ ys = xs.eraseIdx i
  | extend cs, .ok a f' => a = .done ∧ v.Accepts cs f f' ∧ ys = xs ++ cs
  | clear, .ok a _ => a = .done ∧ ys = []
  | replace old new, .ok a _ => a = .done ∧ ∃ i : Nat, xs[i]? = some old ∧ ys = xs.set i new
  | detach h, .ok a _ => a = .done ∧ ∃ i : Nat, xs[i]? = some h ∧ ys = xs.eraseIdx i
  | insert .., .error .. | push _, .error .. | replace .., .error .. => ys = xs
  | remove i, .error .. => ys = xs ∧ xs.length ≤ i
  | extend cs, .error e f' => ∃ accepted c rest g, cs = accepted ++ c :: rest ∧
      v.Accepts accepted f g ∧ v.push c g = .error e f' ∧ ys = xs ++ accepted ∧
      (c ∈ xs ++ accepted → e = .alreadyOwned c v.parent)
  | clear, .error .. | detach _, .error .. => False

/-- **The sequence behaves as a list** that holds `xs` at first, in a run of calls on it. -/
def SequenceView.BehavesAsList (v : SequenceView) :
    List (Bool × SequenceCall) → Forest → List Handle → Prop
  | [], f, xs => v.Reports f xs
  | (viewed, call) :: calls, f, xs => v.Reports f xs ∧ (call.On xs →
      ∃ ys, call.Does v f xs ys (call.run v viewed f) ∧
        v.Keeps f ((call.run v viewed).after f) (call.cleared xs) ∧
        v.BehavesAsList calls ((call.run v viewed).after f) ys)

/-! ### What is kept -/

namespace Forest

variable {f f' f'' : Forest} {k : Handle} {field g : Field} {l m : LiveNode}

theorem slot_congr (hl : f.live? k = some l) (hm : f'.live? k = some m)
    (hkind : m.node.payload.kind = l.node.payload.kind)
    (hslot : m.node.payload.slot? g = l.node.payload.slot? g) : f'.slot k g = f.slot k g := by
  have hp := payload_eq_ok.mpr ⟨l, hl, rfl⟩
  have hp' := payload_eq_ok.mpr ⟨m, hm, rfl⟩
  simp only [slot, hp, hp', Except.bind, bind, hslot, hkind]

theorem seq_congr (hl : f.live? k = some l) (hm : f'.live? k = some m)
    (hkind : m.node.payload.kind = l.node.payload.kind)
    (hseq : m.node.payload.seq? g = l.node.payload.seq? g) : f'.seq k g = f.seq k g := by
  have hp := payload_eq_ok.mpr ⟨l, hl, rfl⟩
  have hp' := payload_eq_ok.mpr ⟨m, hm, rfl⟩
  simp only [seq, hp, hp', Except.bind, bind, hseq, hkind]

end Forest

namespace SequenceView

variable {v : SequenceView} {f f' f'' : Forest} {c h : Handle}
  {before outs ins after xs ys roots : List Handle}

theorem reports (hf : f.WellFormed) (hx : f.seq v.parent v.field = .ok xs) : v.Reports f xs := by
  have helements : v.elements f = xs := by rw [SequenceView.elements, hx]
  obtain ⟨l, hl, hs⟩ := seq_eq_ok.mp hx
  have hnodup := (Payload.nodup_children.mp (hf.ownership.nodup hl)).1 v.field
  rw [Payload.content_of_seq? hs] at hnodup
  refine ⟨hx, helements, ?_, ?_, fun i => ?_, hnodup⟩
  · rw [SequenceView.length, helements]
  · rw [SequenceView.isEmpty, helements]
  · rw [SequenceView.get?, helements]

/-- A forest after which the sequence holds `ys`, with all else as it was. -/
structure Turns (v : SequenceView) (f f' : Forest) (roots ys : List Handle) : Prop where
  wellFormed : f'.WellFormed
  seq : f'.seq v.parent v.field = .ok ys
  keeps : v.Keeps f f' roots

/-- All else is kept when the payload of the one node has another content in the one field. -/
theorem Keeps.of_payload (ys : List Handle) (hx : f.seq v.parent v.field = .ok xs)
    (hlive : ∀ k, f'.contains k ↔ f.contains k ∧ ∀ r ∈ roots, ¬ f.Under k r)
    (hpayload : ∀ k l m, f.live? k = some l → f'.live? k = some m → m.node.payload =
      if k = v.parent then l.node.payload.withContent v.field ys else l.node.payload) :
    v.Keeps f f' roots := by
  have hboth : ∀ {k}, f'.contains k → ∃ l m, f.live? k = some l ∧ f'.live? k = some m ∧
      m.node.payload.kind = l.node.payload.kind ∧
      (∀ g, m.node.payload.slot? g = l.node.payload.slot? g) ∧
      ∀ g, k ≠ v.parent ∨ g ≠ v.field → m.node.payload.seq? g = l.node.payload.seq? g := by
    intro k hk
    obtain ⟨m, hm⟩ := contains_iff.mp hk
    obtain ⟨l, hl⟩ := contains_iff.mp ((hlive k).mp hk).1
    refine ⟨l, m, hl, hm, ?_⟩
    rw [hpayload k l m hl hm]
    split_ifs with hkp
    · subst hkp
      obtain ⟨l', hl', hs⟩ := seq_eq_ok.mp hx
      cases hl.symm.trans hl'
      rw [Payload.withContent_of_seq? hs]
      refine ⟨Payload.kind_setSeq .., fun g => Payload.slot?_setSeq .., fun g hg => ?_⟩
      rw [Payload.seq?_setSeq, if_neg (hg.resolve_left fun h => h rfl)]
    · exact ⟨rfl, fun _ => rfl, fun _ _ => rfl⟩
  refine ⟨hlive, fun k g hk => ?_, fun k g hk hg => ?_⟩
  · obtain ⟨l, m, hl, hm, hkind, hslot, -⟩ := hboth hk
    exact slot_congr hl hm hkind (hslot g)
  · obtain ⟨l, m, hl, hm, hkind, -, hseq⟩ := hboth hk
    exact seq_congr hl hm hkind (hseq g hg)

theorem Turns.of_alike (hf' : f'.WellFormed) (ha : f.Alike f')
    (hx : f.seq v.parent v.field = .ok xs) : v.Turns f f' [] xs := by
  have hslot : ∀ k g, f'.slot k g = f.slot k g := fun k g => by
    simp only [Forest.slot, Forest.payload, Forest.node, Forest.live, ha k]
  have hseq : ∀ k g, f'.seq k g = f.seq k g := fun k g => by
    simp only [Forest.seq, Forest.payload, Forest.node, Forest.live, ha k]
  refine ⟨hf', (hseq ..).trans hx, fun k => ?_, fun k g _ => hslot k g, fun k g _ _ => hseq k g⟩
  rw [ha.contains_eq]
  simp

theorem Turns.trans (h : v.Turns f f' [] xs) (h' : v.Turns f' f'' [] ys) : v.Turns f f'' [] ys := by
  have hback : ∀ {k}, f''.contains k → f'.contains k := fun hk => ((h'.keeps.live _).mp hk).1
  refine ⟨h'.wellFormed, h'.seq, fun k => ?_, fun k g hk => ?_, fun k g hk hg => ?_⟩
  · rw [h'.keeps.live, h.keeps.live]
    simp
  · exact (h'.keeps.slots k g hk).trans (h.keeps.slots k g (hback hk))
  · exact (h'.keeps.seqs k g hk hg).trans (h.keeps.seqs k g (hback hk) hg)

theorem Turns.of_swap (hf : f.WellFormed) (hx : f.seq v.parent v.field = .ok xs)
    (hs : f.Swap f' v.parent v.field before outs ins after) :
    xs = before ++ outs ++ after ∧ v.Turns f f' [] (before ++ ins ++ after) := by
  obtain ⟨l, hl, hseq⟩ := seq_eq_ok.mp hx
  have hcontent := hs.content_before hl
  rw [Payload.content_of_seq? hseq] at hcontent
  refine ⟨hcontent, hs.wellFormed hf, hs.seq_after hx,
    .of_payload (before ++ ins ++ after) hx (fun k => ?_) ?_⟩
  · rw [hs.exchange.contains_iff]
    simp
  · intro k l m hl hm
    rw [hs.live?_eq hl] at hm
    cases hm
    dsimp only
    split_ifs <;> rfl

/-- **An element** stands in the sequence and in no other field, at one index. -/
theorem place_of_swap (hf : f.WellFormed) (hx : f.seq v.parent v.field = .ok xs) (hc : c ∈ xs)
    {p : Handle} {field : Field} (hs : f.Swap f' p field before [c] ins after) :
    p = v.parent ∧ field = v.field := by
  obtain ⟨l, hl, hseq⟩ := seq_eq_ok.mp hx
  have hmem : c ∈ l.node.payload.content v.field := by rwa [Payload.content_of_seq? hseq]
  obtain rfl := owner_unique (hs.owns_of_outs hf (List.mem_singleton_self c))
    (hf.owns_of_content hl hmem)
  refine ⟨rfl, ?_⟩
  by_contra hne
  refine (Payload.nodup_children.mp (hf.ownership.nodup hl)).2 field v.field hne ?_ hmem
  simp [hs.content_before hl]

/-! ### Pushing one after another -/

theorem push_owned (hx : f.seq v.parent v.field = .ok xs) {p : Handle} (ho : f.owns p c) :
    v.push c f = .error (.alreadyOwned c p) f := by
  obtain ⟨n, hn⟩ := owns_iff.mp ho
  have hcheck : f.checkInstallable v.parent v.field c = .error (.alreadyOwned c p) := by
    simp only [checkInstallable, checkAttachable, hn, bind, Except.bind]
  rw [SequenceView.push, Edit.push, Edit.bind_of_ok (Edit.ask_of_ok hx), Edit.insert,
    Edit.bind_of_ok (Edit.ask_of_ok hx), if_neg (Nat.lt_irrefl _),
    Edit.bind_of_error (Edit.ask_of_error hcheck)]

theorem turns_push (hf : f.WellFormed) (hx : f.seq v.parent v.field = .ok xs)
    (hr : v.push c f = .ok () f') : v.Turns f f' [] (xs ++ [c]) := by
  obtain ⟨before, hs⟩ := Edit.swap_push hf hr
  obtain ⟨rfl, ht⟩ := Turns.of_swap hf hx hs
  simpa using ht

/-- **Extending is pushing** one node after another, up to the first one that is refused. -/
theorem extend_cases (cs : List Handle) (hf : f.WellFormed)
    (hx : f.seq v.parent v.field = .ok xs) :
    (∃ f', v.extend cs f = .ok () f' ∧ v.Accepts cs f f' ∧ v.Turns f f' [] (xs ++ cs)) ∨
    ∃ accepted c rest g e f', v.extend cs f = .error e f' ∧ cs = accepted ++ c :: rest ∧
      v.Accepts accepted f g ∧ v.Turns f g [] (xs ++ accepted) ∧ v.push c g = .error e f' ∧
      v.Turns f f' [] (xs ++ accepted) := by
  induction cs generalizing f xs with
  | nil => exact .inl ⟨f, rfl, rfl, by simpa using Turns.of_alike hf (.refl f) hx⟩
  | cons c cs ih =>
    have hkept : v.Turns f f [] xs := .of_alike hf (.refl f) hx
    rcases hr : v.push c f with ⟨⟨⟩, f₁⟩ | ⟨e, f₁⟩
    · have ht := turns_push hf hx hr
      obtain ⟨f', hrun, hacc, ht'⟩ | ⟨accepted, d, rest, g, e, f', hrun, rfl, hacc, hg, hd, ht'⟩ :=
        ih ht.wellFormed ht.seq
      · refine .inl ⟨f', ?_, ⟨f₁, hr, hacc⟩, by simpa using ht.trans ht'⟩
        rw [SequenceView.extend, Edit.bind_of_ok hr, hrun]
      · refine .inr ⟨c :: accepted, d, rest, g, e, f', ?_, rfl, ⟨f₁, hr, hacc⟩,
          by simpa using ht.trans hg, hd, by simpa using ht.trans ht'⟩
        rw [SequenceView.extend, Edit.bind_of_ok hr, hrun]
    · obtain ⟨hf₁, ha⟩ := (Edit.safe_push hf v.parent v.field c).refused hr
      refine .inr ⟨[], c, cs, f, e, f₁, ?_, rfl, rfl, by simpa using hkept, hr,
        by simpa using Turns.of_alike hf₁ ha hx⟩
      rw [SequenceView.extend, Edit.bind_of_error hr]

/-! ### One call -/

theorem turns_clear (hf : f.WellFormed) (hx : f.seq v.parent v.field = .ok xs) :
    ∃ f', Edit.clearSeq v.parent v.field f = .ok () f' ∧ v.Turns f f' xs [] := by
  obtain ⟨f', hr⟩ : ∃ f', Edit.clearSeq v.parent v.field f = .ok () f' :=
    ⟨_, Edit.bind_of_ok (Edit.ask_of_ok hx)⟩
  obtain ⟨f₁, zs, hz, hd, rfl⟩ := Edit.displacement_clearSeq hf hr
  cases hx.symm.trans hz
  have hlive : ∀ k, (f₁.freeSubtrees xs).contains k ↔
      f.contains k ∧ ∀ r ∈ xs, ¬ f.Under k r := fun k => by
    rw [contains_freeSubtrees_iff hd.books hd.ownership, hd.exchange.contains_iff]
    exact and_congr_right fun _ => forall₂_congr fun r hr => not_congr (hd.under_iff hf hr)
  refine ⟨_, hr, hd.wellFormed_freed, hd.seq_after hf hx, .of_payload [] hx hlive ?_⟩
  intro k l m hl hm
  -- what is left is as it was before anything was freed
  have hnot : ∀ r ∈ xs, ¬ f₁.Under k r := fun r hr hu =>
    ((hlive k).mp (contains_iff.mpr ⟨m, hm⟩)).2 r hr ((hd.under_iff hf hr).mp hu)
  rw [live?_freeSubtrees_of_not_under hd.ownership hnot, hd.live?_old hl] at hm
  cases hm
  dsimp only
  split_ifs <;> rfl

theorem turns_remove (hf : f.WellFormed) (hx : f.seq v.parent v.field = .ok xs) {i : Nat}
    (hi : xs[i]? = some c) :
    ∃ f', Edit.remove v.parent v.field i f = .ok c f' ∧ v.Turns f f' [] (xs.eraseIdx i) := by
  obtain ⟨f', hr⟩ : ∃ f', Edit.remove v.parent v.field i f = .ok c f' := by
    rw [Edit.remove, Edit.bind_of_ok (Edit.ask_of_ok hx)]
    simp only [hi]
    exact ⟨_, rfl⟩
  obtain ⟨before, after, rfl, hs⟩ := Edit.swap_remove hf hr
  obtain ⟨rfl, ht⟩ := Turns.of_swap hf hx hs
  refine ⟨f', hr, ?_⟩
  simpa [List.eraseIdx_append_of_length_le] using ht

theorem turns_detach (hf : f.WellFormed) (hx : f.seq v.parent v.field = .ok xs) (hh : h ∈ xs) :
    ∃ f' i, Edit.detach h f = .ok () f' ∧ xs[i]? = some h ∧ v.Turns f f' [] (xs.eraseIdx i) := by
  obtain ⟨l, hl, hseq⟩ := seq_eq_ok.mp hx
  have hmem : h ∈ l.node.payload.content v.field := by rwa [Payload.content_of_seq? hseq]
  have ho : f.owns v.parent h := hf.owns_of_content hl hmem
  obtain ⟨m, place, hm, hplace⟩ := hf.exists_place ho
  cases hl.symm.trans hm
  obtain ⟨field, index?⟩ := place
  obtain rfl : v.field = field :=
    (hf.holds_iff hl hplace).mp ⟨_, _, payload_eq_ok.mpr ⟨l, hl, rfl⟩, hmem⟩
  have hstands := Payload.stands_of_placeOf? hplace
  cases index? with
  | none => cases (Payload.slot?_eq_none_of_seq? hseq).symm.trans hstands
  | some i =>
    obtain ⟨zs, hz, hi⟩ := hstands
    cases hseq.symm.trans hz
    obtain ⟨f', hr, ht⟩ := turns_remove hf hx hi
    refine ⟨f', i, ?_, hi, ht⟩
    rw [Edit.detach, Edit.bind_of_ok (Edit.ask_of_ok (ownerOf_eq_ok.mpr ho)),
      Edit.bind_of_ok (Edit.ask_of_ok (placeOf_eq_ok.mpr ⟨l, hl, hplace⟩))]
    exact Edit.bind_of_ok hr

end SequenceView

namespace SequenceCall

variable {v : SequenceView} {f f' : Forest} {xs ys : List Handle}

theorem exists_turn_of_ok {x : Edit Answer} {call : SequenceCall} {a : Answer}
    (hr : x f = .ok a f') (hdoes : call.Does v f xs ys (.ok a f'))
    (ht : v.Turns f f' (call.cleared xs) ys) :
    ∃ ys, call.Does v f xs ys (x f) ∧ v.Turns f (x.after f) (call.cleared xs) ys :=
  ⟨ys, by rw [hr]; exact hdoes, by rw [Edit.after, hr]; exact ht⟩

theorem exists_turn_of_error {x : Edit Answer} {call : SequenceCall} {e : TreeError}
    (hr : x f = .error e f') (hdoes : call.Does v f xs ys (.error e f'))
    (ht : v.Turns f f' (call.cleared xs) ys) :
    ∃ ys, call.Does v f xs ys (x f) ∧ v.Turns f (x.after f) (call.cleared xs) ys :=
  ⟨ys, by rw [hr]; exact hdoes, by rw [Edit.after, hr]; exact ht⟩

theorem run_viewed (v : SequenceView) (viewed : Bool) (call : SequenceCall) :
    call.run v viewed = call.run v false := by
  cases viewed <;> cases call <;> rfl

/-- **One call on a sequence** does to its list what it says, and keeps all else. -/
theorem exists_turn (hf : f.WellFormed) (hx : f.seq v.parent v.field = .ok xs) (viewed : Bool)
    (call : SequenceCall) (hon : call.On xs) :
    ∃ ys, call.Does v f xs ys (call.run v viewed f) ∧
      v.Turns f ((call.run v viewed).after f) (call.cleared xs) ys := by
  rw [run_viewed]
  cases call with
  | insert i c =>
    rcases hr : Edit.insert v.parent v.field i c f with ⟨⟨⟩, f'⟩ | ⟨e, f'⟩
    · obtain ⟨before, after, rfl, hs⟩ := Edit.swap_insert hf hr
      obtain ⟨rfl, ht⟩ := SequenceView.Turns.of_swap hf hx hs
      refine exists_turn_of_ok (Edit.bind_of_ok hr) ⟨rfl, by simp, ?_⟩ ht
      rw [List.append_nil, Edit.insertIdx_append]
    · obtain ⟨hf', ha⟩ := (Edit.safe_insert hf v.parent v.field i c).refused hr
      exact exists_turn_of_error (Edit.bind_of_error hr) rfl (.of_alike hf' ha hx)
  | push c =>
    rcases hr : Edit.push v.parent v.field c f with ⟨⟨⟩, f'⟩ | ⟨e, f'⟩
    · exact exists_turn_of_ok (Edit.bind_of_ok hr) ⟨rfl, rfl⟩ (SequenceView.turns_push hf hx hr)
    · obtain ⟨hf', ha⟩ := (Edit.safe_push hf v.parent v.field c).refused hr
      exact exists_turn_of_error (Edit.bind_of_error hr) rfl (.of_alike hf' ha hx)
  | remove i =>
    cases hi : xs[i]? with
    | some c =>
      obtain ⟨f', hr, ht⟩ := SequenceView.turns_remove hf hx hi
      exact exists_turn_of_ok (Edit.bind_of_ok hr) ⟨c, rfl, hi, rfl⟩ ht
    | none =>
      have hr : Edit.remove v.parent v.field i f =
          .error (.indexOutOfBounds v.field i xs.length) f := by
        rw [Edit.remove, Edit.bind_of_ok (Edit.ask_of_ok hx)]
        simp only [hi]
        rfl
      exact exists_turn_of_error (Edit.bind_of_error hr) ⟨rfl, List.getElem?_eq_none_iff.mp hi⟩
        (.of_alike hf (.refl f) hx)
  | extend cs =>
    obtain ⟨f', hr, hacc, ht⟩ | ⟨accepted, c, rest, g, e, f', hr, rfl, hacc, hg, hc, ht⟩ :=
      SequenceView.extend_cases cs hf hx
    · exact exists_turn_of_ok (Edit.bind_of_ok hr) ⟨rfl, hacc, rfl⟩ ht
    · refine exists_turn_of_error (Edit.bind_of_error hr)
        ⟨accepted, c, rest, g, rfl, hacc, hc, rfl, fun hmem => ?_⟩ ht
      obtain ⟨l, hl, hseq⟩ := seq_eq_ok.mp hg.seq
      have ho : g.owns v.parent c := hg.wellFormed.owns_of_content hl
        (by rwa [Payload.content_of_seq? hseq])
      rw [SequenceView.push_owned hg.seq ho] at hc
      cases hc
      rfl
  | clear =>
    obtain ⟨f', hr, ht⟩ := SequenceView.turns_clear hf hx
    exact exists_turn_of_ok (Edit.bind_of_ok hr) ⟨rfl, rfl⟩ ht
  | replace old new =>
    rcases hr : Edit.replace old new f with ⟨⟨⟩, f'⟩ | ⟨e, f'⟩
    · obtain ⟨p, field, before, after, -, hs⟩ := Edit.swap_replace hf hr
      obtain ⟨rfl, rfl⟩ := SequenceView.place_of_swap hf hx hon hs
      obtain ⟨rfl, ht⟩ := SequenceView.Turns.of_swap hf hx hs
      exact exists_turn_of_ok (Edit.bind_of_ok hr) ⟨rfl, before.length, by simp, by simp⟩ ht
    · obtain ⟨hf', ha⟩ := (Edit.safe_replace hf old new).refused hr
      exact exists_turn_of_error (Edit.bind_of_error hr) rfl (.of_alike hf' ha hx)
  | detach h =>
    obtain ⟨f', i, hr, hi, ht⟩ := SequenceView.turns_detach hf hx hon
    exact exists_turn_of_ok (Edit.bind_of_ok hr) ⟨rfl, i, hi, rfl⟩ ht

end SequenceCall

namespace Forest

/-- **A run of calls**, by induction on the calls. -/
theorem behavesAsList {v : SequenceView} {f : Forest} {xs : List Handle} (hf : f.WellFormed)
    (hx : f.seq v.parent v.field = .ok xs) (calls : List (Bool × SequenceCall)) :
    v.BehavesAsList calls f xs := by
  induction calls generalizing f xs with
  | nil => exact SequenceView.reports hf hx
  | cons call calls ih =>
    refine ⟨SequenceView.reports hf hx, fun hon => ?_⟩
    obtain ⟨ys, hdoes, ht⟩ := call.2.exists_turn hf hx call.1 hon
    exact ⟨ys, hdoes, ht.keeps, ih ht.wellFormed ht.seq⟩

/-- **Sequences behave as lists**, in every forest that a run reaches and in every run of calls from
there on. Take a sequence of a live node that holds `xs`. Before and after each call the view reports
the list that the calls so far have made of `xs`, whose elements are distinct. Each call does to the
list what it says, and keeps all other sequences and slots. -/
theorem sequences_behave_as_lists (steps : List Step) (v : SequenceView) {xs : List Handle}
    (hx : (empty.run steps).seq v.parent v.field = .ok xs) (calls : List (Bool × SequenceCall)) :
    v.BehavesAsList calls (empty.run steps) xs :=
  behavesAsList (wellFormed_run steps wellFormed_empty) hx calls

/-- A block of one return: another one is inserted before it, `extend` stops at the return that is
repeated, and the first one is detached. -/
theorem sequences_behave_as_lists_block : ∃ f v, f = empty.run [.operate (.returnStatement none),
      .operate (.returnStatement none), .operate (.returnStatement none),
      .operate (.returnStatement none), .operate (.block [⟨0, 0⟩])] ∧
    v = SequenceView.mk ⟨4, 0⟩ .statements ∧
    v.BehavesAsList [(true, .insert 0 ⟨1, 0⟩), (true, .extend [⟨2, 0⟩, ⟨2, 0⟩, ⟨3, 0⟩]),
      (false, .detach ⟨0, 0⟩)] f [⟨0, 0⟩] ∧
    v.elements (f.run [.operate (.viewInsert v 0 ⟨1, 0⟩),
      .extend v [⟨2, 0⟩, ⟨2, 0⟩, ⟨3, 0⟩], .operate (.detach ⟨0, 0⟩)]) = [⟨1, 0⟩, ⟨2, 0⟩] :=
  ⟨_, _, rfl, rfl, sequences_behave_as_lists [.operate (.returnStatement none),
    .operate (.returnStatement none), .operate (.returnStatement none),
    .operate (.returnStatement none), .operate (.block [⟨0, 0⟩])] ⟨⟨4, 0⟩, .statements⟩ rfl _, rfl⟩

end Forest

end SyntaxForest
