import SyntaxForest.Proofs.Ownership

/-! # Exchanging the content of a field

The operations that move nodes put another content in one field of one node: a node comes in, a node
goes out, or both. `Exchange` collects what their checks make sure of, and `Exchange.ownership` says
that owners and children agree afterwards, the nodes that went out without becoming roots being
loose. -/

namespace SyntaxForest

/-! ### Well-founded relations with more pairs -/

section WellFounded
variable {α : Type} {r s : α → α → Prop} {p : α}

/-- New pairs that all start at one accessible element make no infinite descent. -/
theorem wellFounded_of_source (hr : WellFounded r) (hs : ∀ a b, s a b → r a b ∨ a = p)
    (hp : Acc s p) : WellFounded s :=
  ⟨fun b => hr.induction b fun b ih => Acc.intro b fun a hab =>
    (hs a b hab).elim (ih a) fun h => h ▸ hp⟩

/-- An element above which nothing is new stays accessible. -/
theorem acc_of_same_above (hr : WellFounded r)
    (hs : ∀ k, Relation.ReflTransGen (flip r) p k → ∀ a, s a k → r a k) : Acc s p := by
  suffices h : ∀ k, Relation.ReflTransGen (flip r) p k → Acc s k from h p .refl
  intro k
  induction k using hr.induction with
  | _ k ih =>
    intro hk
    exact Acc.intro k fun a hak => ih a (hs k hk a hak) (hk.tail (hs k hk a hak))

end WellFounded

namespace Forest

variable {f f' : Forest} {loose : List Handle}

/-- The look-up after a change of the payload of `p`, by which the nodes `ins` go to `p` and the nodes
`outs` become roots. -/
def exchanged (f : Forest) (p : Handle) (payload : Payload) (ins outs : List Handle) (k : Handle) :
    Option LiveNode :=
  (f.live? k).map fun l =>
    { node := if k = p then { l.node with payload } else l.node
      owner? := if k ∈ outs then none else if k ∈ ins then some p else l.owner? }

/-- **An exchange**: the content `xs` of a field of `p` gives way to `ys`. The nodes `ins` come in,
roots of the right category that `p` is not under; of those that go out, the nodes `outs` become
roots and the nodes `loose` loose. -/
structure Exchange (f f' : Forest) (p : Handle) (field : Field) (xs ys ins outs loose : List Handle) :
    Prop where
  refilled : ∃ l payload, f.live? p = some l ∧ l.node.payload.Refilled payload field xs ys ∧
    ∀ k, f'.live? k = f.exchanged p payload ins outs k
  nodup : ys.Nodup
  comes : ∀ y ∈ ys, y ∈ ins ∨ y ∈ xs ∧ y ∉ outs ∧ y ∉ loose
  goes : ∀ x ∈ xs, x ∈ ys ∨ x ∈ outs ∨ x ∈ loose
  ins : ∀ c ∈ ins, c ∈ ys ∧ (∃ n, f.live? c = some ⟨n, none⟩ ∧ n.kind.category = field.category) ∧
    ¬ f.Under p c
  outs : ∀ c ∈ outs, c ∈ xs
  loose : ∀ c ∈ loose, c ∈ xs
  occupied : ys = [] → ∀ l, f.live? p = some l → ∀ o, l.node.payload.slot? field = some o →
    l.node.payload.isOptional field

namespace Exchange

variable {p : Handle} {field : Field} {xs ys ins outs : List Handle}

theorem owns_of_mem (hx : Exchange f f' p field xs ys ins outs loose) (hf : f.Ownership [])
    {c : Handle} (hc : c ∈ xs) : f.owns p c := by
  obtain ⟨l, payload, hp, hr, -⟩ := hx.refilled
  rw [← hr.before] at hc
  exact (hf.child hp (Payload.mem_children.mpr ⟨field, hc⟩)).1

theorem not_mem_ins (hx : Exchange f f' p field xs ys ins outs loose) {q c : Handle}
    (hc : f.owns q c) : c ∉ ins := fun hin => by
  obtain ⟨-, ⟨n, hn, -⟩, -⟩ := hx.ins c hin
  exact not_owns_of_root hn hc

theorem owns_iff (hx : Exchange f f' p field xs ys ins outs loose) {q c : Handle} :
    f'.owns q c ↔ c ∉ outs ∧ (c ∈ ins ∧ q = p ∨ c ∉ ins ∧ f.owns q c) := by
  obtain ⟨l, payload, hp, -, hview⟩ := hx.refilled
  rw [Forest.owns_iff, Forest.owns_iff, hview, exchanged]
  by_cases ho : c ∈ outs
  · simp [ho]
  · by_cases hi : c ∈ ins
    · obtain ⟨-, ⟨n, hn, -⟩, -⟩ := hx.ins c hi
      simp [ho, hi, hn, eq_comm]
    · rcases f.live? c with _ | ⟨n, o⟩ <;> simp [ho, hi]

theorem owns_of_ins (hx : Exchange f f' p field xs ys ins outs loose) (hf : f.Ownership [])
    {c : Handle} (hc : c ∈ ins) : f'.owns p c := by
  obtain ⟨-, ⟨n, hn, -⟩, -⟩ := hx.ins c hc
  -- a root does not stand in the field, so it does not go out
  have hout : c ∉ outs := fun ho => not_owns_of_root hn (hx.owns_of_mem hf (hx.outs c ho))
  exact hx.owns_iff.mpr ⟨hout, Or.inl ⟨hc, rfl⟩⟩

theorem wellFounded (hx : Exchange f f' p field xs ys ins outs loose) (hf : f.Ownership []) :
    WellFounded fun q c => (f'.owns q c : Prop) := by
  refine wellFounded_of_source (p := p) hf.grounded (fun q c h => ?_) ?_
  · obtain ⟨-, ⟨-, h⟩ | ⟨-, h⟩⟩ := hx.owns_iff.mp h
    · exact Or.inr h
    · exact Or.inl h
  · refine acc_of_same_above hf.grounded fun k hk a ha => ?_
    obtain ⟨-, ⟨hin, -⟩ | ⟨-, h⟩⟩ := hx.owns_iff.mp ha
    · exact absurd hk (hx.ins k hin).2.2
    · exact h

theorem live?_before (hx : Exchange f f' p field xs ys ins outs loose) {k : Handle} {m : LiveNode}
    (hk : f'.live? k = some m) : ∃ l, f.live? k = some l ∧ m.node.kind = l.node.kind ∧
      (k ≠ p → m.node = l.node) := by
  obtain ⟨l, payload, hp, hr, hview⟩ := hx.refilled
  rw [hview, exchanged, Option.map_eq_some_iff] at hk
  obtain ⟨l', hl', rfl⟩ := hk
  refine ⟨l', hl', ?_, fun h => if_neg h⟩
  by_cases h : k = p
  · subst h
    rw [hp] at hl'; cases hl'
    simpa [Node.kind] using hr.kind
  · simp [h]

theorem live?_target (hx : Exchange f f' p field xs ys ins outs loose) {m : LiveNode}
    (hp : f'.live? p = some m) : ∃ l, f.live? p = some l ∧
      l.node.payload.Refilled m.node.payload field xs ys := by
  obtain ⟨l, payload, hl, hr, hview⟩ := hx.refilled
  rw [hview, exchanged, hl] at hp
  cases hp
  exact ⟨l, hl, by simpa using hr⟩

theorem nodup_children (hx : Exchange f f' p field xs ys ins outs loose) (hf : f.Ownership [])
    {m : LiveNode} (hp : f'.live? p = some m) : m.node.children.Nodup := by
  obtain ⟨l, hl, hr⟩ := hx.live?_target hp
  obtain ⟨hnd, hdis⟩ := Payload.nodup_children.mp (hf.nodup hl)
  -- what stands in another field is a child of `p` before, so it did not come in
  have hys : ∀ g, g ≠ field → ys.Disjoint (l.node.payload.content g) := by
    intro g hg y hy hyg
    rcases hx.comes y hy with hin | ⟨hxs, -⟩
    · exact hx.not_mem_ins (hf.child hl (Payload.mem_children.mpr ⟨g, hyg⟩)).1 hin
    · exact hdis field g hg.symm (hr.before ▸ hxs) hyg
  refine Payload.nodup_children.mpr ⟨fun g => ?_, fun g g' hne => ?_⟩
  · by_cases hg : g = field
    · rw [hg, hr.after]; exact hx.nodup
    · rw [hr.others g hg]; exact hnd g
  · by_cases hg : g = field
    · subst hg
      rw [hr.after, hr.others g' hne.symm]; exact hys g' hne.symm
    · by_cases hg' : g' = field
      · subst hg'
        rw [hr.after, hr.others g hg]
        exact fun _ ha hb => hys g hg hb ha
      · rw [hr.others g hg, hr.others g' hg']; exact hdis g g' hne

theorem child (hx : Exchange f f' p field xs ys ins outs loose) (hf : f.Ownership [])
    {q c : Handle} {m : LiveNode} (hq : f'.live? q = some m) (hc : c ∈ m.node.children) :
    f'.owns q c ∧ c ∉ loose := by
  have hkeep : f.owns q c → c ∉ outs → c ∉ loose → f'.owns q c ∧ c ∉ loose := fun ho hout hl =>
    ⟨hx.owns_iff.mpr ⟨hout, Or.inr ⟨hx.not_mem_ins ho, ho⟩⟩, hl⟩
  by_cases hqp : q = p
  · subst hqp
    obtain ⟨l, hl, hr⟩ := hx.live?_target hq
    obtain ⟨g, hg⟩ := Payload.mem_children.mp hc
    by_cases hgf : g = field
    · rw [hgf, hr.after] at hg
      rcases hx.comes c hg with hin | ⟨hxs, hout, hloose⟩
      · obtain ⟨-, ⟨n, hn, -⟩, -⟩ := hx.ins c hin
        exact ⟨hx.owns_of_ins hf hin,
          fun h => not_owns_of_root hn (hx.owns_of_mem hf (hx.loose c h))⟩
      · exact hkeep (hx.owns_of_mem hf hxs) hout hloose
    · rw [hr.others g hgf] at hg
      have hno : c ∉ xs := fun h =>
        (Payload.nodup_children.mp (hf.nodup hl)).2 g field hgf hg (hr.before ▸ h)
      exact hkeep (hf.child hl (Payload.mem_children.mpr ⟨g, hg⟩)).1 (fun h => hno (hx.outs c h))
        fun h => hno (hx.loose c h)
  · obtain ⟨l, hl, -, hnode⟩ := hx.live?_before hq
    rw [hnode hqp] at hc
    have ho := (hf.child hl hc).1
    have hno : c ∉ xs := fun h => hqp (owner_unique ho (hx.owns_of_mem hf h))
    exact hkeep ho (fun h => hno (hx.outs c h)) fun h => hno (hx.loose c h)

theorem owner (hx : Exchange f f' p field xs ys ins outs loose) (hf : f.Ownership [])
    {q c : Handle} (ho : f'.owns q c) (hc : c ∉ loose) :
    ∃ m, f'.live? q = some m ∧ c ∈ m.node.children := by
  obtain ⟨l, payload, hp, hr, hview⟩ := hx.refilled
  have htarget : ∀ g, c ∈ payload.content g → ∃ m, f'.live? p = some m ∧ c ∈ m.node.children := by
    intro g hg
    refine ⟨_, by rw [hview, exchanged, hp]; rfl, ?_⟩
    simp only [if_true]
    exact Payload.mem_children.mpr ⟨g, hg⟩
  obtain ⟨hout, ⟨hin, rfl⟩ | ⟨-, ho⟩⟩ := hx.owns_iff.mp ho
  · exact htarget field (hr.after ▸ (hx.ins c hin).1)
  · obtain ⟨l', hl', hmem⟩ := hf.owner ho (by simp)
    by_cases hqp : q = p
    · subst hqp
      rw [hp] at hl'; cases hl'
      obtain ⟨g, hg⟩ := Payload.mem_children.mp hmem
      by_cases hgf : g = field
      · rw [hgf, hr.before] at hg
        have hys := (hx.goes c hg).resolve_right (by simp [hout, hc])
        exact htarget field (hr.after ▸ hys)
      · exact htarget g (by rw [hr.others g hgf]; exact hg)
    · exact ⟨_, by rw [hview, exchanged, hl']; rfl, by simpa [hqp] using hmem⟩

/-- **An exchange keeps ownership**; the nodes that went out and did not become roots are loose. -/
theorem ownership (hx : Exchange f f' p field xs ys ins outs loose) (hf : f.Ownership []) :
    f'.Ownership loose where
  child := hx.child hf
  nodup {q m} hq := by
    by_cases hqp : q = p
    · subst hqp; exact hx.nodup_children hf hq
    · obtain ⟨l, hl, -, hnode⟩ := hx.live?_before hq
      rw [hnode hqp]; exact hf.nodup hl
  owner := hx.owner hf
  grounded := hx.wellFounded hf
  category {q m g c mc} hq hg hc := by
    obtain ⟨lc, hlc, hkind, -⟩ := hx.live?_before hc
    rw [hkind]
    by_cases hqp : q = p
    · subst hqp
      obtain ⟨l, hl, hr⟩ := hx.live?_target hq
      by_cases hgf : g = field
      · subst hgf
        rw [hr.after] at hg
        rcases hx.comes c hg with hin | ⟨hxs, -⟩
        · obtain ⟨-, ⟨n, hn, hcat⟩, -⟩ := hx.ins c hin
          rw [hn] at hlc; cases hlc; exact hcat
        · exact hf.category hl (hr.before ▸ hxs) hlc
      · rw [hr.others g hgf] at hg
        exact hf.category hl hg hlc
    · obtain ⟨l, hl, -, hnode⟩ := hx.live?_before hq
      rw [hnode hqp] at hg
      exact hf.category hl hg hlc
  occupied {q m g} hq hg := by
    by_cases hqp : q = p
    · subst hqp
      obtain ⟨l, hl, hr⟩ := hx.live?_target hq
      rw [Payload.isOptional_eq_of_kind_eq hr.kind]
      rcases hr.emptySlot g hg with h | ⟨rfl, hys, o, ho⟩
      · exact hf.occupied hl h
      · exact hx.occupied hys l hl o ho
    · obtain ⟨l, hl, -, hnode⟩ := hx.live?_before hq
      rw [hnode hqp] at hg ⊢
      exact hf.occupied hl hg

end Exchange

end Forest

end SyntaxForest
