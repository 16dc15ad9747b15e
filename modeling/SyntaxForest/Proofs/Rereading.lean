import SyntaxForest.Proofs.Counterparts
import SyntaxForest.Proofs.SourceText

/-! # What counterparts read as

A tree and the tree of its counterparts are listed and read in the same way, whatever the forests
around them are: each node is read as its counterpart, if the children are
(`Counterparts.expressionWithin`, `Counterparts.statementWithin`). So they have the same source text
(`Counterparts.sourceText_eq`).

The depth down to which a tree is read plays no part: a reading that succeeds succeeds with more
levels too, with the same result. -/

namespace SyntaxForest

theorem Payload.mapChildren_id (p : Payload) : p.mapChildren id = p := by
  cases p <;> simp [mapChildren]

theorem Node.mapChildren_id (n : Node) : n.mapChildren id = n := by
  rw [mapChildren, Payload.mapChildren_id]

theorem Node.children_mapChildren (g : Handle → Handle) (n : Node) :
    (n.mapChildren g).children = n.children.map g := by
  rw [← withChildren_map]
  exact children_withChildren (List.length_map g)

theorem Payload.slot?_mapChildren (g : Handle → Handle) (p : Payload) (field : Field) :
    (p.mapChildren g).slot? field = (p.slot? field).map (Option.map g) := by
  cases p <;> cases field <;> rfl

theorem Payload.kind_mapChildren (g : Handle → Handle) (p : Payload) :
    (p.mapChildren g).kind = p.kind := by
  cases p <;> rfl

/-! ### Readings of listed nodes -/

/-- What the first reader reads off a listed handle, the second reads off its image. -/
def Transfers {α : Type} (xs : List Handle) (g : Handle → Handle)
    (read read' : Handle → Except TreeError α) : Prop :=
  ∀ c ∈ xs, ∀ a, read c = .ok a → read' (g c) = .ok a

namespace Transfers

variable {α : Type} {xs : List Handle} {g : Handle → Handle}
  {read read' : Handle → Except TreeError α}

theorem mapM (ht : Transfers xs g read read') : ∀ (cs : List Handle) {as : List α},
    (∀ c ∈ cs, c ∈ xs) → cs.mapM read = .ok as → (cs.map g).mapM read' = .ok as
  | [], _, _, hr => hr
  | c :: cs, as, hcs, hr => by
    obtain ⟨hc, hcs⟩ := List.forall_mem_cons.mp hcs
    rw [List.mapM_cons] at hr
    obtain ⟨a, ha, hr⟩ := Except.bind_eq_ok.mp hr
    obtain ⟨rest, hrest, hr⟩ := Except.bind_eq_ok.mp hr
    rw [List.map_cons, List.mapM_cons]
    exact Except.bind_eq_ok.mpr ⟨a, ht c hc a ha,
      Except.bind_eq_ok.mpr ⟨rest, mapM ht cs hcs hrest, hr⟩⟩

theorem optionMapM (ht : Transfers xs g read read') (c? : Option Handle) {a? : Option α}
    (hc : ∀ c, c? = some c → c ∈ xs) (hr : c?.mapM read = .ok a?) :
    (c?.map g).mapM read' = .ok a? := by
  cases c? with
  | none => exact hr
  | some c =>
    rw [Option.mapM_some] at hr
    rcases ha : read c with e | a <;> rw [ha] at hr
    · cases hr
    · rw [Option.map_some, Option.mapM_some, ht c (hc c rfl) a ha]
      exact hr

end Transfers

namespace Forest

variable {f f' : Forest} {hs xs ys : List Handle} {g : Handle → Handle} {h : Handle}
  {field : Field}

theorem Listing.head? (hl : f.Listing (h :: hs) xs) : xs.head? = some h := by
  cases hl
  rfl

theorem Listing.head_mem (hl : f.Listing (h :: hs) xs) : h ∈ xs := List.mem_of_head? hl.head?

namespace Counterparts

theorem listing (hc : f.Counterparts f' xs g) (hl : f.Listing hs xs) :
    f'.Listing (hs.map g) (xs.map g) := by
  induction hl with
  | nil => exact .nil
  | @cons h l hs below after hh _ _ ih₁ ih₂ =>
    obtain ⟨l', m, hh', hm, hnode⟩ := hc h List.mem_cons_self
    cases hh.symm.trans hh'
    have hchildren : m.node.children = l.node.children.map g := by
      rw [hnode, Node.children_mapChildren]
    have hbelow := ih₁ fun x hx => hc x (List.mem_cons_of_mem h (List.mem_append_left after hx))
    have hafter := ih₂ fun x hx => hc x (List.mem_cons_of_mem h (List.mem_append_right below hx))
    rw [List.map_cons, List.map_cons, List.map_append]
    exact .cons hm (hchildren ▸ hbelow) hafter

theorem required (hc : f.Counterparts f' xs g) (hf : f.WellFormed) (hl : f.Listing hs xs)
    (hh : h ∈ xs) {α : Type} {read read' : Handle → Except TreeError α}
    (ht : Transfers xs g read read') {a : α} (hr : (f.required h field >>= read) = .ok a) :
    (f'.required (g h) field >>= read') = .ok a := by
  obtain ⟨c, hrequired, hr⟩ := Except.bind_eq_ok.mp hr
  obtain ⟨l, hlive, hslot⟩ := slot_eq_ok.mp (slot_of_required hrequired)
  obtain ⟨l', m, hlive', hm, hnode⟩ := hc h hh
  cases hlive.symm.trans hlive'
  have hslot' : f'.slot (g h) field = .ok (some (g c)) := by
    refine slot_eq_ok.mpr ⟨m, hm, ?_⟩
    rw [hnode, Node.mapChildren, Payload.slot?_mapChildren, hslot]
    rfl
  have hmem : c ∈ xs := hl.child_mem hf hh hlive
    (Payload.mem_children.mpr ⟨field, Payload.mem_content_of_slot? hslot⟩)
  have hrequired' : f'.required (g h) field = .ok (g c) :=
    Except.bind_eq_ok.mpr ⟨some (g c), hslot', rfl⟩
  exact Except.bind_eq_ok.mpr ⟨g c, hrequired', ht c hmem a hr⟩

theorem expressionWithin (hc : f.Counterparts f' xs g) (hf : f.WellFormed)
    (hl : f.Listing hs xs) : ∀ {n n' : Nat}, n ≤ n' →
      Transfers xs g (f.expressionWithin n) (f'.expressionWithin n')
  | 0, _, _ => fun _ _ _ hr => by cases hr
  | n + 1, n' + 1, hn => fun h hh e hr => by
    have ht := expressionWithin hc hf hl (Nat.le_of_succ_le_succ hn)
    have hchild (field : Field) {e : Expression} :
        (f.required h field >>= f.expressionWithin n) = .ok e →
          (f'.required (g h) field >>= f'.expressionWithin n') = .ok e :=
      hc.required hf hl hh ht
    obtain ⟨node, hnode, hr⟩ := Except.bind_eq_ok.mp hr
    obtain ⟨l, hlive, rfl⟩ := node_eq_ok.mp hnode
    obtain ⟨l', m, hlive', hm, hsame⟩ := hc h hh
    cases hlive.symm.trans hlive'
    have hmem (field : Field) {c : Handle} (hcontent : c ∈ l.node.payload.content field) : c ∈ xs :=
      hl.child_mem hf hh hlive (Payload.mem_children.mpr ⟨field, hcontent⟩)
    refine Except.bind_eq_ok.mpr ⟨_, node_eq_ok.mpr ⟨m, hm, hsame⟩, ?_⟩
    obtain ⟨⟨p, type?, span?⟩, owner?⟩ := l
    cases p with
    | parenthesized =>
      obtain ⟨inner, hinner, hr⟩ := Except.bind_eq_ok.mp hr
      exact Except.bind_eq_ok.mpr ⟨inner, hchild _ hinner, hr⟩
    | chain o left right extended =>
      obtain ⟨d, hd, hr⟩ := Except.bind_eq_ok.mp hr
      obtain ⟨e, he, hr⟩ := Except.bind_eq_ok.mp hr
      obtain ⟨es, hes, hr⟩ := Except.bind_eq_ok.mp hr
      have hes' := ht.mapM extended (fun c hc => hmem .extendedOperands hc) hes
      exact Except.bind_eq_ok.mpr ⟨d, hchild _ hd, Except.bind_eq_ok.mpr ⟨e, hchild _ he,
        Except.bind_eq_ok.mpr ⟨es, hes', hr⟩⟩⟩
    | conditional =>
      obtain ⟨c, hcond, hr⟩ := Except.bind_eq_ok.mp hr
      obtain ⟨d, hd, hr⟩ := Except.bind_eq_ok.mp hr
      obtain ⟨e, he, hr⟩ := Except.bind_eq_ok.mp hr
      exact Except.bind_eq_ok.mpr ⟨c, hchild _ hcond, Except.bind_eq_ok.mpr ⟨d, hchild _ hd,
        Except.bind_eq_ok.mpr ⟨e, hchild _ he, hr⟩⟩⟩
    | expressionStatement | returnStatement | block | ifStatement => cases hr
    | _ => exact hr

theorem statementWithin (hc : f.Counterparts f' xs g) (hf : f.WellFormed)
    (hl : f.Listing hs xs) : ∀ {n n' : Nat}, n ≤ n' →
      Transfers xs g (f.statementWithin n) (f'.statementWithin n')
  | 0, _, _ => fun _ _ _ hr => by cases hr
  | n + 1, n' + 1, hn => fun h hh s hr => by
    have hle : n ≤ n' := Nat.le_of_succ_le_succ hn
    have ht := statementWithin hc hf hl hle
    have hte := hc.expressionWithin hf hl hle
    have hexpression (field : Field) {e : Expression} :
        (f.required h field >>= f.expressionWithin n) = .ok e →
          (f'.required (g h) field >>= f'.expressionWithin n') = .ok e :=
      hc.required hf hl hh hte
    obtain ⟨node, hnode, hr⟩ := Except.bind_eq_ok.mp hr
    obtain ⟨l, hlive, rfl⟩ := node_eq_ok.mp hnode
    obtain ⟨l', m, hlive', hm, hsame⟩ := hc h hh
    cases hlive.symm.trans hlive'
    have hmem (field : Field) {c : Handle} (hcontent : c ∈ l.node.payload.content field) : c ∈ xs :=
      hl.child_mem hf hh hlive (Payload.mem_children.mpr ⟨field, hcontent⟩)
    refine Except.bind_eq_ok.mpr ⟨_, node_eq_ok.mpr ⟨m, hm, hsame⟩, ?_⟩
    obtain ⟨⟨p, type?, span?⟩, owner?⟩ := l
    cases p with
    | expressionStatement =>
      obtain ⟨e, he, hr⟩ := Except.bind_eq_ok.mp hr
      exact Except.bind_eq_ok.mpr ⟨e, hexpression _ he, hr⟩
    | returnStatement value =>
      obtain ⟨e, he, hr⟩ := Except.bind_eq_ok.mp hr
      have he' := hte.optionMapM value
        (fun c hc => hmem .expression (Payload.mem_content_of_slot? (congrArg some hc))) he
      exact Except.bind_eq_ok.mpr ⟨e, he', hr⟩
    | block statements =>
      obtain ⟨ss, hss, hr⟩ := Except.bind_eq_ok.mp hr
      have hss' := ht.mapM statements (fun c hc => hmem .statements hc) hss
      exact Except.bind_eq_ok.mpr ⟨ss, hss', hr⟩
    | ifStatement condition thenStatement elseStatement =>
      obtain ⟨c, hcond, hr⟩ := Except.bind_eq_ok.mp hr
      obtain ⟨k, hk, hr⟩ := Except.bind_eq_ok.mp hr
      obtain ⟨s, hs, hr⟩ := Except.bind_eq_ok.mp hr
      obtain ⟨e, he, hr⟩ := Except.bind_eq_ok.mp hr
      -- the slot is looked up in one step and its tree read in the next
      obtain ⟨k', hk', hs'⟩ := Except.bind_eq_ok.mp
        (hc.required hf hl hh ht (Except.bind_eq_ok.mpr ⟨k, hk, hs⟩))
      have he' := ht.optionMapM elseStatement
        (fun c hc => hmem .elseStatement (Payload.mem_content_of_slot? (congrArg some hc))) he
      exact Except.bind_eq_ok.mpr ⟨c, hexpression _ hcond, Except.bind_eq_ok.mpr ⟨k', hk',
        Except.bind_eq_ok.mpr ⟨s, hs', Except.bind_eq_ok.mpr ⟨e, he', hr⟩⟩⟩⟩
    | _ => cases hr

end Counterparts

theorem counterparts_id (hl : f.Listing hs xs) (hsame : ∀ x ∈ xs, f'.live? x = f.live? x) :
    f.Counterparts f' xs id := fun x hx => by
  obtain ⟨l, hlive⟩ := contains_iff.mp (hl.live x hx)
  exact ⟨l, l, hlive, (hsame x hx).trans hlive, l.node.mapChildren_id.symm⟩

/-! ### Trees and texts -/

namespace Counterparts

/-- A reading of a node and one of its counterpart have the same result, whatever their levels. -/
theorem eq_of_reads {α : Type} {read : Forest → Nat → Handle → Except TreeError α}
    (hread : ∀ {f f' : Forest} {hs xs : List Handle} {g : Handle → Handle},
      f.Counterparts f' xs g → f.WellFormed → f.Listing hs xs → ∀ {n n' : Nat}, n ≤ n' →
        Transfers xs g (read f n) (read f' n'))
    (hc : f.Counterparts f' xs g) (hf : f.WellFormed) (hf' : f'.WellFormed)
    (hl : f.Listing [h] xs) (hl' : f'.Listing [g h] ys) {n n' : Nat} {a b : α}
    (ha : read f n h = .ok a) (hb : read f' n' (g h) = .ok b) : a = b := by
  -- both can be read with as many levels as the deeper reading has
  have ha' : read f' (max n n') (g h) = .ok a :=
    hread hc hf hl (Nat.le_max_left n n') h hl.head_mem a ha
  have hb' : read f' (max n n') (g h) = .ok b :=
    hread (counterparts_id hl' fun _ _ => rfl) hf' hl' (Nat.le_max_right n n') _ hl'.head_mem b hb
  exact Except.ok.inj (ha'.symm.trans hb')

theorem fragment_eq (hc : f.Counterparts f' xs g) (hf : f.WellFormed) (hf' : f'.WellFormed)
    (hl : f.Listing [h] xs) (hl' : f'.Listing [g h] ys) :
    ∃ t, f.fragment h = .ok t ∧ f'.fragment (g h) = .ok t := by
  obtain ⟨l, m, hlive, hm, hnode⟩ := hc h hl.head_mem
  have hsame : m.node.kind = l.node.kind := by
    rw [hnode]
    exact Payload.kind_mapChildren g l.node.payload
  have hkind : f.kind h = .ok l.node.kind := kind_eq_ok.mpr ⟨l, hlive, rfl⟩
  have hkind' : f'.kind (g h) = .ok l.node.kind := kind_eq_ok.mpr ⟨m, hm, hsame⟩
  obtain ⟨t, ht⟩ := exists_fragment hf hkind
  obtain ⟨t', ht'⟩ := exists_fragment hf' hkind'
  suffices he : t = t' from ⟨t, ht, he ▸ ht'⟩
  -- both are trees of the category of the node
  obtain ⟨_, ha, ht⟩ := Except.bind_eq_ok.mp ht
  cases hkind.symm.trans ha
  obtain ⟨_, ha', ht'⟩ := Except.bind_eq_ok.mp ht'
  cases hkind'.symm.trans ha'
  cases hcategory : l.node.kind.category with
  | expression =>
    rw [hcategory] at ht ht'
    obtain ⟨d, hd, ht⟩ := Except.bind_eq_ok.mp ht
    obtain ⟨e, he, ht'⟩ := Except.bind_eq_ok.mp ht'
    have hde : d = e :=
      eq_of_reads (fun hc hf hl => hc.expressionWithin hf hl) hc hf hf' hl hl' hd he
    cases ht; cases ht'
    rw [hde]
  | statement =>
    rw [hcategory] at ht ht'
    obtain ⟨d, hd, ht⟩ := Except.bind_eq_ok.mp ht
    obtain ⟨e, he, ht'⟩ := Except.bind_eq_ok.mp ht'
    have hde : d = e :=
      eq_of_reads (fun hc hf hl => hc.statementWithin hf hl) hc hf hf' hl hl' hd he
    cases ht; cases ht'
    rw [hde]

/-- **A tree and the tree of its counterparts have the same source text.** -/
theorem sourceText_eq (hc : f.Counterparts f' xs g) (hf : f.WellFormed) (hf' : f'.WellFormed)
    (hl : f.Listing [h] xs) (hl' : f'.Listing [g h] ys) :
    ∃ text, f.sourceText h = .ok text ∧ f'.sourceText (g h) = .ok text := by
  obtain ⟨t, ht, ht'⟩ := hc.fragment_eq hf hf' hl hl'
  exact ⟨_, sourceText_eq_ok ht, sourceText_eq_ok ht'⟩

end Counterparts

end Forest

end SyntaxForest
