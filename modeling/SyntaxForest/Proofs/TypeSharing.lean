import SyntaxForest.Proofs.Interning

/-!
# One reference for each type

A table answers requests one after another (`TypeRequest`, `TypeTable.run`). What a caller holds
are the answers and everything reached from them through element types (`Gives`).

* `Interned`: no two places store the same type, and the element of a stored array type is stored.
  Every request keeps it, and whatever it stores anew is reached from its answer (`Adds`);
* `Own.stores_iff`: after any requests the stored references are exactly those given out;
* `same_iff_alike_run`: among them identity is structural equality, none of them changes later,
  and the table is as large as the number of their shapes.
-/

namespace SyntaxForest

/-- A request to a table of types. -/
inductive TypeRequest where
  | resolve (text : String)
  | declared (name : String)
  | primitive (p : Primitive)
  | boolean
  | int
  | long
  | double
  | array (element : TypeRef)
  | null
deriving DecidableEq, Repr

/-- `r.Reaches s`: the reference `s` is `r`, or the element type of one that `r` reaches. -/
inductive TypeRef.Reaches (r : TypeRef) : TypeRef → Prop
  | refl : r.Reaches r
  | element {s e : TypeRef} (h : r.Reaches s) (he : s.binding.element? = some e) : r.Reaches e

theorem TypeRef.Reaches.trans {r s e : TypeRef} (h : r.Reaches s) (h' : s.Reaches e) :
    r.Reaches e := by
  induction h' with
  | refl => exact h
  | element _ he ih => exact .element ih he

theorem TypeRef.exists_element?_of_shape {r : TypeRef} {shape : TypeShape}
    (h : r.shape = .array shape) : ∃ e, r.binding.element? = some e ∧ e.shape = shape := by
  obtain ⟨place, binding⟩ := r
  cases binding with
  | array place b => exact ⟨⟨place, b⟩, rfl, TypeShape.array.inj h⟩
  | _ => cases h

namespace TypeTable

/-- The answer to a request, and the table after it. -/
def answer (t : TypeTable) : TypeRequest → TypeRef × TypeTable
  | .resolve text => t.resolve text
  | .declared name => t.declared name
  | .primitive p => t.primitive p
  | .boolean => t.boolean
  | .int => t.int
  | .long => t.long
  | .double => t.double
  | .array element => t.array element
  | .null => t.null

/-- The table after a list of requests. -/
def run (t : TypeTable) (requests : List TypeRequest) : TypeTable :=
  requests.foldl (fun t request => (t.answer request).2) t

/-- The answers to a list of requests. -/
def answers (t : TypeTable) : List TypeRequest → List TypeRef
  | [] => []
  | request :: requests => (t.answer request).1 :: (t.answer request).2.answers requests

/-- `t.Gives requests r`: the reference `r` is an answer to one of the requests, or is reached from
an answer through element types. -/
def Gives (t : TypeTable) (requests : List TypeRequest) (r : TypeRef) : Prop :=
  ∃ a ∈ t.answers requests, a.Reaches r

/-- **Requests about the table's own types**: array types are asked for by references that the
table gave out before. -/
inductive Own (t : TypeTable) : List TypeRequest → Prop
  | nil : t.Own []
  | snoc {requests : List TypeRequest} {request : TypeRequest} (h : t.Own requests)
      (given : ∀ e, request = .array e → t.Gives requests e) : t.Own (requests ++ [request])

variable {t t' : TypeTable} {r s e : TypeRef}

theorem run_append (t : TypeTable) (xs ys : List TypeRequest) :
    t.run (xs ++ ys) = (t.run xs).run ys := List.foldl_append

theorem answers_append (t : TypeTable) (xs ys : List TypeRequest) :
    t.answers (xs ++ ys) = t.answers xs ++ (t.run xs).answers ys := by
  induction xs generalizing t with
  | nil => rfl
  | cons request xs ih =>
    show _ :: (t.answer request).2.answers (xs ++ ys) = _
    rw [ih]; rfl

theorem gives_snoc {requests : List TypeRequest} {request : TypeRequest} :
    t.Gives (requests ++ [request]) r ↔
      t.Gives requests r ∨ ((t.run requests).answer request).1.Reaches r := by
  unfold Gives
  rw [answers_append]
  simp [answers, or_and_right, exists_or]

theorem extends_answer (t : TypeTable) (request : TypeRequest) :
    t.Extends (t.answer request).2 := by
  cases request with
  | resolve text => exact t.extends_resolve text
  | _ => exact t.extends_intern _

theorem extends_run (t : TypeTable) (requests : List TypeRequest) : t.Extends (t.run requests) := by
  induction requests generalizing t with
  | nil => exact .refl t
  | cons request requests ih => exact (t.extends_answer request).trans (ih _)

/-! ### What is stored -/

/-- A table stores a reference: the binding stands at the place that the reference names. -/
def Stores (t : TypeTable) (r : TypeRef) : Prop :=
  r.place.table = t.name ∧ t.bindings[r.place.index]? = some r.binding

theorem Stores.extends (hr : t.Stores r) (h : t.Extends t') : t'.Stores r := by
  obtain ⟨more, hmore⟩ := h.bindings
  have hlt : r.place.index < t.bindings.size := (Array.getElem?_eq_some_iff.mp hr.2).1
  refine ⟨hr.1.trans h.name.symm, ?_⟩
  rw [hmore, Array.getElem?_append_left hlt]
  exact hr.2

theorem Stores.binding_eq (hr : t.Stores r) (hs : t.Stores s) (hplace : r.place = s.place) :
    r.binding = s.binding := by
  have hbinding : some r.binding = some s.binding := by rw [← hr.2, ← hs.2, hplace]
  exact Option.some.inj hbinding

/-- A type is found where its shape is stored, or its shape is new and it gets the next place. -/
theorem intern_cases (t : TypeTable) (b : TypeBinding) :
    (∃ (i : Nat) (c : TypeBinding), t.bindings[i]? = some c ∧ c.shape = b.shape ∧
      t.intern b = (⟨⟨t.name, i⟩, c⟩, t)) ∨
    ((∀ (i : Nat) (c : TypeBinding), t.bindings[i]? = some c → c.shape ≠ b.shape) ∧
      t.intern b = (⟨⟨t.name, t.size⟩, b⟩, { t with bindings := t.bindings.push b })) := by
  cases hi : t.index? b with
  | some i =>
    obtain ⟨hlt, hshape, -⟩ := Array.findIdx?_eq_some_iff_getElem.mp hi
    refine .inl ⟨i, t.bindings[i], Array.getElem?_eq_getElem hlt, by simpa using hshape, ?_⟩
    simp [intern, hi, Array.getD, hlt]
  | none =>
    refine .inr ⟨fun i c hc => ?_, by simp only [intern, hi]⟩
    have hmem : c ∈ t.bindings := Array.mem_of_getElem? hc
    simpa using Array.findIdx?_eq_none_iff.mp hi c hmem

theorem stores_intern (t : TypeTable) (b : TypeBinding) :
    (t.intern b).2.Stores (t.intern b).1 := by
  obtain ⟨i, c, hc, -, h⟩ | ⟨-, h⟩ := t.intern_cases b
  · rw [h]; exact ⟨rfl, hc⟩
  · rw [h]; exact ⟨rfl, by simp [size]⟩

theorem shape_intern (t : TypeTable) (b : TypeBinding) : (t.intern b).1.shape = b.shape := by
  obtain ⟨i, c, -, hshape, h⟩ | ⟨-, h⟩ := t.intern_cases b
  · rw [h]; exact hshape
  · rw [h]; rfl

theorem stores_intern_iff {b : TypeBinding} :
    (t.intern b).2.Stores r ↔ t.Stores r ∨ r = (t.intern b).1 := by
  refine ⟨fun hr => ?_, ?_⟩
  · obtain ⟨i, c, -, -, h⟩ | ⟨-, h⟩ := t.intern_cases b
    · rw [h] at hr
      exact .inl hr
    · rw [h] at hr ⊢
      have hindex := hr.2
      rw [Array.getElem?_push] at hindex
      split at hindex
      · next hnew =>
        obtain ⟨⟨table, index⟩, binding⟩ := r
        obtain rfl : b = binding := Option.some.inj hindex
        obtain rfl : table = t.name := hr.1
        obtain rfl : index = t.size := hnew
        exact .inr rfl
      · exact .inl ⟨hr.1, hindex⟩
  · rintro (hr | rfl)
    · exact hr.extends (t.extends_intern b)
    · exact t.stores_intern b

theorem Stores.intern (hr : t.Stores r) {b : TypeBinding} (hshape : r.shape = b.shape) :
    t.Stores (t.intern b).1 := by
  obtain ⟨i, c, hc, -, h⟩ | ⟨hnew, -⟩ := t.intern_cases b
  · rw [h]; exact ⟨rfl, hc⟩
  · exact absurd hshape (hnew _ _ hr.2)

/-! ### Interned tables -/

/-- **Interned tables**: each shape is stored once, and with an array type its element. -/
structure Interned (t : TypeTable) : Prop where
  distinct : ∀ {r s}, t.Stores r → t.Stores s → r.shape = s.shape → r = s
  element : ∀ {r e}, t.Stores r → r.binding.element? = some e → t.Stores e

/-- **What a request does**: the table stays interned, the answer is stored, and every reference
stored anew is reached from the answer. -/
structure Adds (t : TypeTable) (a : TypeRef × TypeTable) : Prop where
  interned : a.2.Interned
  later : t.Extends a.2
  stored : a.2.Stores a.1
  reached : ∀ {r}, a.2.Stores r → t.Stores r ∨ a.1.Reaches r

theorem interned_empty (name : Nat) : (empty name).Interned where
  distinct hr := by simp [empty, Stores] at hr
  element hr := by simp [empty, Stores] at hr

namespace Interned

theorem stores_of_reaches (h : t.Interned) (hr : t.Stores r) (hs : r.Reaches s) : t.Stores s := by
  induction hs with
  | refl => exact hr
  | element _ he ih => exact h.element ih he

theorem same_iff_alike (h : t.Interned) (hr : t.Stores r) (hs : t.Stores s) :
    r.same s ↔ r.alike s := by
  have hsame : r.same s ↔ r.place = s.place := by simp [TypeRef.same]
  have halike : r.alike s ↔ r.shape = s.shape := by
    simp [TypeRef.alike, TypeBinding.alike, TypeRef.shape]
  rw [hsame, halike]
  exact ⟨fun hplace => congrArg TypeBinding.shape (hr.binding_eq hs hplace),
    fun hshape => congrArg TypeRef.place (h.distinct hr hs hshape)⟩

theorem adds_intern (h : t.Interned) {b : TypeBinding}
    (hb : ∀ e, b.element? = some e → t.Stores e) : t.Adds (t.intern b) where
  interned := by
    have hlater := t.extends_intern b
    -- the answer is the only reference of its shape
    have hanswer : ∀ {r}, t.Stores r → r.shape = (t.intern b).1.shape → r = (t.intern b).1 :=
      fun hr hshape => h.distinct hr (hr.intern (hshape.trans (t.shape_intern b))) hshape
    refine ⟨fun {r s} hr hs hshape => ?_, fun {r e} hr he => ?_⟩
    · obtain hr | rfl := stores_intern_iff.mp hr
      · obtain hs | rfl := stores_intern_iff.mp hs
        · exact h.distinct hr hs hshape
        · exact hanswer hr hshape
      · obtain hs | rfl := stores_intern_iff.mp hs
        · exact (hanswer hs hshape.symm).symm
        · rfl
    · obtain hr | rfl := stores_intern_iff.mp hr
      · exact (h.element hr he).extends hlater
      · obtain ⟨i, c, hc, -, hi⟩ | ⟨-, hi⟩ := t.intern_cases b
        · rw [hi] at he ⊢
          exact h.element ⟨rfl, hc⟩ he
        · rw [hi] at he
          exact (hb e he).extends hlater
  later := t.extends_intern b
  stored := t.stores_intern b
  reached hr := (stores_intern_iff.mp hr).imp_right fun h => by rw [h]; exact .refl

theorem adds_array (h : t.Interned) (he : t.Stores e) : t.Adds (t.array e) :=
  h.adds_intern fun _ hb => Option.some.inj hb ▸ he

/-- **The element type of an array type** that was asked for is the reference it was asked by. -/
theorem element?_array (h : t.Interned) (he : t.Stores e) :
    (t.array e).1.binding.element? = some e := by
  have hadds := h.adds_array he
  have hshape : (t.array e).1.shape = .array e.shape := t.shape_intern _
  obtain ⟨s, hs, hsame⟩ := TypeRef.exists_element?_of_shape hshape
  have hstored : (t.array e).2.Stores s := hadds.interned.element hadds.stored hs
  rw [hs, hadds.interned.distinct hstored (he.extends hadds.later) hsame]

end Interned

/-- The array type over an answer, whose own additions are reached through it. -/
theorem Adds.array {a : TypeRef × TypeTable} (h : t.Adds a) :
    t.Adds (a.2.array a.1) ∧ (a.2.array a.1).1.Reaches a.1 := by
  have houter := h.interned.adds_array h.stored
  have hreach : (a.2.array a.1).1.Reaches a.1 :=
    .element .refl (h.interned.element?_array h.stored)
  refine ⟨⟨houter.interned, h.later.trans houter.later, houter.stored, fun hr => ?_⟩, hreach⟩
  obtain hr | hr := houter.reached hr
  · exact (h.reached hr).imp_right hreach.trans
  · exact .inr hr

theorem Adds.arrays {a : TypeRef × TypeTable} (h : t.Adds a) (n : Nat) :
    t.Adds (a.2.arrays a.1 n) := by
  induction n with
  | zero => exact h
  | succ n ih => exact ih.array.1

theorem element?_baseBinding (parts : TypeText) : parts.baseBinding.element? = none := by
  simp only [TypeText.baseBinding]
  split
  · rfl
  · split <;> rfl

theorem Interned.adds_resolve (h : t.Interned) (text : String) : t.Adds (t.resolve text) := by
  have hbase : ∀ e, (TypeText.read text).baseBinding.element? = some e → t.Stores e :=
    fun e he => by rw [element?_baseBinding] at he; cases he
  exact (h.adds_intern hbase).arrays _

/-- **Every request**, made by a stored reference if it is for an array type. -/
theorem Interned.adds_answer (h : t.Interned) {request : TypeRequest}
    (given : ∀ e, request = .array e → t.Stores e) : t.Adds (t.answer request) := by
  cases request with
  | resolve text => exact h.adds_resolve text
  | array e => exact h.adds_array (given e rfl)
  | _ => exact h.adds_intern (fun e he => by cases he)

/-! ### Runs -/

/-- **Everything that a table stores was given out, and the other way round.** -/
theorem Own.stores_iff {name : Nat} {requests : List TypeRequest}
    (own : (empty name).Own requests) :
    ((empty name).run requests).Interned ∧
      ∀ r, ((empty name).run requests).Stores r ↔ (empty name).Gives requests r := by
  induction own with
  | nil => exact ⟨interned_empty name, by simp [run, answers, Gives, empty, Stores]⟩
  | @snoc requests request own given ih =>
    obtain ⟨hinterned, hstores⟩ := ih
    have hadds := hinterned.adds_answer fun e he => (hstores e).mpr (given e he)
    rw [run_append]
    refine ⟨hadds.interned, fun r => ?_⟩
    rw [gives_snoc, ← hstores]
    refine ⟨hadds.reached, ?_⟩
    rintro (hr | hr)
    · exact hr.extends hadds.later
    · exact hadds.interned.stores_of_reaches hadds.stored hr

/-- The shapes of the stored types, in the order of their storing. -/
def shapes (t : TypeTable) : List TypeShape := t.bindings.toList.map TypeBinding.shape

theorem mem_shapes {shape : TypeShape} : shape ∈ t.shapes ↔ ∃ r, t.Stores r ∧ r.shape = shape := by
  unfold shapes
  rw [List.mem_map]
  constructor
  · rintro ⟨b, hb, rfl⟩
    obtain ⟨i, hi⟩ := List.getElem?_of_mem hb
    exact ⟨⟨⟨t.name, i⟩, b⟩, ⟨rfl, by simpa using hi⟩, rfl⟩
  · rintro ⟨r, hr, rfl⟩
    exact ⟨r.binding, (Array.mem_of_getElem? hr.2).val, rfl⟩

theorem Interned.nodup_shapes (h : t.Interned) : t.shapes.Nodup := by
  have hplace : ∀ (i : Nat) (hi : i < t.bindings.size), t.Stores ⟨⟨t.name, i⟩, t.bindings[i]⟩ :=
    fun i hi => ⟨rfl, Array.getElem?_eq_getElem hi⟩
  refine List.pairwise_iff_getElem.mpr fun i j hi hj hij hshape => ?_
  have hi' : i < t.bindings.size := by simpa [shapes] using hi
  have hj' : j < t.bindings.size := by simpa [shapes] using hj
  have hsame : t.bindings[i].shape = t.bindings[j].shape := by simpa [shapes] using hshape
  have href := h.distinct (hplace i hi') (hplace j hj') hsame
  have hindex : i = j := congrArg (fun r => r.place.index) href
  omega

/-- **Identity is structural equality.** Take any requests to a new table, array types being asked
for by references that the table gave out. Among the answers and everything reached from them:

* two references are the same if and only if they are structurally equal;
* what a reference refers to is the same after any further requests;
* the size of the table is the number of their shapes, which contain all element types. -/
theorem same_iff_alike_run (name : Nat) {requests : List TypeRequest}
    (own : (empty name).Own requests) :
    (∀ r s, (empty name).Gives requests r → (empty name).Gives requests s →
      (r.same s ↔ r.alike s)) ∧
    (∀ r, (empty name).Gives requests r → ∀ later,
      ((empty name).run (requests ++ later)).bindings[r.place.index]? = some r.binding) ∧
    ∃ shapes : List TypeShape, shapes.Nodup ∧
      shapes.length = ((empty name).run requests).size ∧
      (∀ shape, shape ∈ shapes ↔ ∃ r, (empty name).Gives requests r ∧ r.shape = shape) ∧
      ∀ e, .array e ∈ shapes → e ∈ shapes := by
  obtain ⟨hinterned, hstores⟩ := own.stores_iff
  have hmem : ∀ shape, shape ∈ ((empty name).run requests).shapes ↔
      ∃ r, (empty name).Gives requests r ∧ r.shape = shape := by
    intro shape
    simp only [mem_shapes, hstores]
  refine ⟨fun r s hr hs => ?_, fun r hr later => ?_, _, hinterned.nodup_shapes, ?_, hmem, ?_⟩
  · exact hinterned.same_iff_alike ((hstores r).mpr hr) ((hstores s).mpr hs)
  · rw [run_append]
    exact (((hstores r).mpr hr).extends (extends_run _ later)).2
  · simp [shapes, size]
  · intro e he
    obtain ⟨r, hr, hshape⟩ := (hmem _).mp he
    obtain ⟨s, hs, rfl⟩ := TypeRef.exists_element?_of_shape hshape
    obtain ⟨a, ha, hreach⟩ := hr
    exact (hmem _).mpr ⟨s, ⟨a, ha, hreach.element hs⟩, rfl⟩

/-- `int []` by its text, then the array type over the element of the answer: both are the one
array type of the table. -/
theorem same_iff_alike_run_element :
    (∀ r s, (empty 0).Gives [.resolve "int []", .array ⟨⟨0, 0⟩, .primitive .int⟩] r →
      (empty 0).Gives [.resolve "int []", .array ⟨⟨0, 0⟩, .primitive .int⟩] s →
      (r.same s ↔ r.alike s)) ∧
    ((empty 0).run [.resolve "int []", .array ⟨⟨0, 0⟩, .primitive .int⟩]).size = 2 := by
  have own : (empty 0).Own ([.resolve "int []"] ++ [.array ⟨⟨0, 0⟩, .primitive .int⟩]) := by
    refine .snoc (.snoc .nil (fun e he => by cases he)) fun e he => ?_
    obtain rfl : ⟨⟨0, 0⟩, .primitive .int⟩ = e := TypeRequest.array.inj he
    refine ⟨⟨⟨0, 1⟩, .array ⟨0, 0⟩ (.primitive .int)⟩, by decide +kernel, ?_⟩
    exact .element .refl rfl
  exact ⟨(same_iff_alike_run 0 own).1, by decide +kernel⟩

end TypeTable

end SyntaxForest
