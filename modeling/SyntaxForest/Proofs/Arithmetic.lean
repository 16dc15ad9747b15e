import SyntaxForest.Proofs.Grouping
import SyntaxForest.Proofs.Integers

/-! # Values of groupings

A grouping of names by one of the operators `*`, `+`, `^`, `&`, `|` is computed as it groups
(`Grouping.value?`), every name having type `int` or `long`. It falls into *parts*
(`Grouping.parts`): the largest operands that are computed at `int`, and the single names of type
`long`.

* `exists_value`: the value is that of the parts, combined at 64 bits.
* `value?_eq_of_isBitwise`: with `^`, `&`, `|` it does not depend on the grouping.
* `value?_eq_of_parts_eq`: it depends on the grouping by the parts only.
* `parts_eq_of_value?_eq`: with `*` and `+` it does depend on the parts, if no name occurs twice. -/

namespace SyntaxForest

/-! ### Values of groupings -/

/-- A value of its type for each name. -/
abbrev Values (w : String → Width) := (x : String) → BitVec (w x).bits

variable {w : String → Width}

namespace Grouping

/-- The names in a grouping, from left to right. -/
def names : Grouping → List String
  | name x => [x]
  | binary l _ r => l.names ++ r.names
  | conditional c t e => c.names ++ t.names ++ e.names
  | _ => []

/-- Whether a grouping consists of names and the given operator. -/
def isOver (o : Operator) : Grouping → Bool
  | name _ => true
  | binary l o' r => decide (o' = o) && l.isOver o && r.isOver o
  | _ => false

/-- **The value of a grouping** of names, as it groups. -/
def value? (values : Values w) : Grouping → Option Integer
  | name x => some ⟨w x, values x⟩
  | binary l o r => do
    let o ← IntegralOperator.of? o
    let a ← l.value? values
    let b ← r.value? values
    return o.step a b
  | _ => none

/-- Whether all names are of type `int`. -/
def isNarrow (w : String → Width) (g : Grouping) : Bool := g.names.all fun x => w x = .int

/-- **The parts of a grouping**: the names of the largest operands that are computed at `int`, and
the other names one by one. -/
def parts (w : String → Width) : Grouping → List (List String)
  | binary l o r =>
    if (binary l o r).isNarrow w then [(binary l o r).names] else l.parts w ++ r.parts w
  | g => [g.names]

variable {g h l r : Grouping} {o : Operator}

theorem of_isNarrow (hg : g.isNarrow w) : ∀ x ∈ g.names, w x = .int := by
  simpa [isNarrow] using hg

theorem isNarrow_binary : (binary l o r).isNarrow w = (l.isNarrow w && r.isNarrow w) := by
  simp [isNarrow, names]

theorem parts_of_isNarrow (hg : g.isNarrow w) : g.parts w = [g.names] := by
  cases g with
  | binary => rw [parts, if_pos hg]
  | _ => rfl

theorem parts_binary (h : (binary l o r).isNarrow w = false) :
    (binary l o r).parts w = l.parts w ++ r.parts w := by
  rw [parts, h, if_neg Bool.false_ne_true]

theorem flatten_parts (w : String → Width) (g : Grouping) : (g.parts w).flatten = g.names := by
  induction g with
  | binary l o r ihl ihr =>
    rw [parts]
    split
    · simp
    · rw [List.flatten_append, ihl, ihr, names]
  | _ => simp [parts]

theorem names_ne_nil (hg : g.isOver o) : g.names ≠ [] := by
  induction g with
  | name => simp [names]
  | binary l o' r ihl =>
    simp only [isOver, Bool.and_eq_true] at hg
    simp [names, ihl hg.1.2]
  | _ => cases hg

theorem of_mem_parts (hg : g.isOver o) {p : List String} (hp : p ∈ g.parts w) :
    p ≠ [] ∧ ((∀ x ∈ p, w x = .int) ∨ ∃ x, p = [x]) := by
  induction g with
  | name x =>
    obtain rfl : p = [x] := by simpa [parts, names] using hp
    exact ⟨by simp, .inr ⟨x, rfl⟩⟩
  | binary l o' r ihl ihr =>
    cases hn : (binary l o' r).isNarrow w with
    | true =>
      rw [parts_of_isNarrow hn, List.mem_singleton] at hp
      subst hp
      exact ⟨names_ne_nil hg, .inl (of_isNarrow hn)⟩
    | false =>
      simp only [isOver, Bool.and_eq_true] at hg
      rw [parts_binary hn, List.mem_append] at hp
      exact hp.elim (ihl hg.1.2) (ihr hg.2)
  | _ => cases hg

theorem parts_of_long (hg : g.isOver o) (hw : ∀ x ∈ g.names, w x = .long) :
    g.parts w = g.names.map fun x => [x] := by
  induction g with
  | name => rfl
  | binary l o' r ihl ihr =>
    simp only [isOver, Bool.and_eq_true] at hg
    obtain ⟨hl, hr⟩ := List.forall_mem_append.mp hw
    have hn : (binary l o' r).isNarrow w = false := by
      obtain ⟨x, hx⟩ := List.exists_mem_of_ne_nil _ (names_ne_nil hg.2)
      have hlong : w x ≠ .int := by rw [hr x hx]; decide
      exact List.all_eq_false.mpr ⟨x, List.mem_append_right _ hx, by simpa using hlong⟩
    rw [parts_binary hn, ihl hg.1.2 hl, ihr hg.2 hr, names, List.map_append]
  | _ => cases hg

theorem parts_eq_of_same_width {u : Width} (hg : g.isOver o) (hh : h.isOver o)
    (hnames : g.names = h.names) (hw : ∀ x ∈ g.names, w x = u) : g.parts w = h.parts w := by
  have hw' : ∀ x ∈ h.names, w x = u := hnames ▸ hw
  cases u with
  | int =>
    have hgn : g.isNarrow w := List.all_eq_true.mpr fun x hx => decide_eq_true (hw x hx)
    have hhn : h.isNarrow w := List.all_eq_true.mpr fun x hx => decide_eq_true (hw' x hx)
    rw [parts_of_isNarrow hgn, parts_of_isNarrow hhn, hnames]
  | long => rw [parts_of_long hg hw, parts_of_long hh hw', hnames]

end Grouping

/-! ### Values of parts -/

namespace IntegralOperator

variable (o : IntegralOperator) {values : Values w} {p q : List String} {x y : String}

/-- The value of a part, extended to 64 bits. -/
def partValue (values : Values w) (p : List String) : BitVec 64 :=
  if p.all fun x => w x = .int then
    (o.combine (p.map fun x => (values x).signExtend 32)).signExtend 64
  else
    o.combine (p.map fun x => (values x).signExtend 64)

theorem partValue_of_narrow (hp : ∀ x ∈ p, w x = .int) : o.partValue values p =
    (o.combine (p.map fun x => (values x).signExtend 32)).signExtend 64 :=
  if_pos (by simpa using hp)

theorem signExtend_of_int (values : Values w) (hx : w x = .int) :
    ((values x).signExtend 32).signExtend 64 = (values x).signExtend 64 :=
  signExtend_signExtend (by rw [hx]; exact Nat.le_refl 32) _

theorem combine_eq_neutral_of_int (h : ∀ z ∈ p, values z = o.neutral _)
    (hp : ∀ z ∈ p, w z = .int) :
    o.combine (p.map fun z => (values z).signExtend 32) = o.neutral 32 := by
  refine o.combine_eq_neutral fun b hb => ?_
  obtain ⟨z, hz, rfl⟩ := List.mem_map.mp hb
  rw [h z hz, hp z hz]
  exact BitVec.signExtend_eq _

/-- The other names of a part do not matter if their values change nothing. -/
theorem partValue_cons (h : ∀ z ∈ p, values z = o.neutral _) :
    o.partValue values (x :: p) = (values x).signExtend 64 := by
  rw [partValue]
  split
  · rename_i hall
    obtain ⟨hx, hp⟩ : w x = .int ∧ ∀ z ∈ p, w z = .int := by simpa using hall
    rw [List.map_cons, combine_cons, o.combine_eq_neutral_of_int h hp, apply_neutral,
      signExtend_of_int values hx]
  · have hrest : o.combine (p.map fun z => (values z).signExtend 64) = o.neutral 64 := by
      refine o.combine_eq_neutral fun b hb => ?_
      obtain ⟨z, hz, rfl⟩ := List.mem_map.mp hb
      rw [h z hz, signExtend_neutral]
    rw [List.map_cons, combine_cons, hrest, apply_neutral]

theorem partValue_eq_neutral (h : ∀ z ∈ p, values z = o.neutral _) :
    o.partValue values p = o.neutral 64 := by
  cases p with
  | nil => exact o.signExtend_neutral .int
  | cons x p =>
    obtain ⟨hx, hp⟩ := List.forall_mem_cons.mp h
    rw [o.partValue_cons hp, hx, signExtend_neutral]

theorem partValue_of_isBitwise (ho : o.isBitwise) (p : List String) :
    o.partValue values p = o.combine (p.map fun x => (values x).signExtend 64) := by
  rw [partValue]
  split
  · rename_i hp
    have hint : ∀ x ∈ p, w x = .int := by simpa using hp
    rw [o.signExtend_combine ho, List.map_map]
    exact congrArg o.combine (List.map_congr_left fun x hx => signExtend_of_int values (hint x hx))
  · rfl

end IntegralOperator

/-! ### The value of a grouping is that of its parts -/

namespace IntegralOperator

variable (o : IntegralOperator) {a b : Integer}

theorem extend_step_of_int (ha : a.width = .int) (hb : b.width = .int) :
    (o.step a b).extend =
      (o.apply (a.value.signExtend 32) (b.value.signExtend 32)).signExtend 64 := by
  obtain ⟨_, x⟩ := a
  obtain ⟨_, y⟩ := b
  cases ha
  cases hb
  rfl

theorem extend_step_of_long (h : a.width.join b.width = .long) :
    (o.step a b).extend = o.apply a.extend b.extend := by
  rw [Integer.extend, step, h]
  exact BitVec.signExtend_eq _

theorem value_of_narrow {p : List String} {values : Values w} (ha : a.width = .int)
    (hp : ∀ x ∈ p, w x = .int) (hv : a.extend = o.partValue values p) :
    a.value.signExtend 32 = o.combine (p.map fun x => (values x).signExtend 32) := by
  refine signExtend_injective (n := 64) (by decide) ?_
  rw [← o.partValue_of_narrow hp, ← hv]
  exact signExtend_signExtend (by rw [ha]; exact Nat.le_refl 32) _

end IntegralOperator

namespace Grouping

variable {g h : Grouping} {o : IntegralOperator}

/-- **The value of a grouping**: it is of type `int` if all names are, and at 64 bits it is the
values of the parts combined. -/
theorem exists_value (hg : g.isOver o.operator) (values : Values w) :
    ∃ a, g.value? values = some a ∧ (a.width = .int ↔ g.isNarrow w) ∧
      a.extend = o.combine ((g.parts w).map (o.partValue values)) := by
  induction g with
  | name x =>
    refine ⟨_, rfl, by simp [isNarrow, names], ?_⟩
    have hx : o.partValue values [x] = (values x).signExtend 64 := o.partValue_cons (by simp)
    simp [parts, names, hx, Integer.extend]
  | binary l o' r ihl ihr =>
    simp only [isOver, Bool.and_eq_true, decide_eq_true_eq] at hg
    obtain ⟨⟨rfl, hl⟩, hr⟩ := hg
    obtain ⟨a, ha, haw, hav⟩ := ihl hl
    obtain ⟨b, hb, hbw, hbv⟩ := ihr hr
    refine ⟨o.step a b, by simp [value?, ha, hb], ?_, ?_⟩
    · rw [isNarrow_binary, Bool.and_eq_true, ← haw, ← hbw]
      exact Width.join_eq_int
    · cases hn : (binary l o.operator r).isNarrow w with
      | true =>
        -- each operand is one part, and the part of the whole is the two together, at 32 bits
        obtain ⟨hln, hrn⟩ : l.isNarrow w ∧ r.isNarrow w := by
          simpa [isNarrow_binary] using hn
        have hl' := o.value_of_narrow (haw.mpr hln) (of_isNarrow hln)
          (by simpa [parts_of_isNarrow hln] using hav)
        have hr' := o.value_of_narrow (hbw.mpr hrn) (of_isNarrow hrn)
          (by simpa [parts_of_isNarrow hrn] using hbv)
        rw [o.extend_step_of_int (haw.mpr hln) (hbw.mpr hrn), hl', hr', ← o.combine_append,
          ← List.map_append, parts_of_isNarrow hn, List.map_singleton, o.combine_cons,
          o.combine_nil, o.apply_neutral, o.partValue_of_narrow (of_isNarrow hn)]
        rfl
      | false =>
        have hlong : a.width.join b.width = .long := by
          rw [← Width.ne_int_iff, ne_eq, Width.join_eq_int, haw, hbw, ← Bool.and_eq_true,
            ← isNarrow_binary (o := o.operator), hn]
          exact Bool.false_ne_true
        rw [o.extend_step_of_long hlong, hav, hbv, parts_binary hn, List.map_append,
          o.combine_append]
  | _ => cases hg

/-- Groupings of the same names have the same value exactly if their parts have, combined. -/
theorem value?_eq_iff (hg : g.isOver o.operator) (hh : h.isOver o.operator)
    (hnames : g.names = h.names) (values : Values w) :
    g.value? values = h.value? values ↔ o.combine ((g.parts w).map (o.partValue values)) =
      o.combine ((h.parts w).map (o.partValue values)) := by
  obtain ⟨a, ha, haw, hav⟩ := exists_value hg values
  obtain ⟨b, hb, hbw, hbv⟩ := exists_value hh values
  have hwidth : a.width = .int ↔ b.width = .int := by
    rw [haw, hbw, isNarrow, isNarrow, hnames]
  rw [ha, hb, ← hav, ← hbv, Option.some_inj]
  exact ⟨congrArg Integer.extend, Integer.ext_extend (Width.eq_of_iff hwidth)⟩

/-- **Values depend on the groupings by their parts only.** -/
theorem value?_eq_of_parts_eq (hg : g.isOver o.operator) (hh : h.isOver o.operator)
    (hparts : g.parts w = h.parts w) (values : Values w) : g.value? values = h.value? values := by
  have hnames : g.names = h.names := by rw [← flatten_parts w, hparts, flatten_parts]
  rw [value?_eq_iff hg hh hnames, hparts]

/-- **Operators that compute each bit on its own do not depend on the grouping.** -/
theorem value?_eq_of_isBitwise (ho : o.isBitwise) (hg : g.isOver o.operator)
    (hh : h.isOver o.operator) (hnames : g.names = h.names) (values : Values w) :
    g.value? values = h.value? values := by
  have hflat (k : Grouping) : o.combine ((k.parts w).map (o.partValue values)) =
      o.combine (k.names.map fun x => (values x).signExtend 64) := by
    rw [← k.flatten_parts w, List.map_flatten, o.combine_flatten, List.map_map]
    exact congrArg o.combine (List.map_congr_left fun p _ => o.partValue_of_isBitwise ho p)
  rw [value?_eq_iff hg hh hnames, hflat, hflat, hnames]

end Grouping

/-! ### Different parts -/

/-- Two partitions of a list begin alike, and where they first differ the first one has the shorter
part. -/
inductive Splits {α : Type} : List (List α) → List (List α) → Prop
  | here (x : α) (p : List α) (y : α) (q p' : List α) (ps qs : List (List α)) :
    Splits ((x :: p) :: (y :: q) :: ps) ((x :: (p ++ y :: p')) :: qs)
  | there (p : List α) {ps qs : List (List α)} : Splits ps qs → Splits (p :: ps) (p :: qs)

theorem splits_of_longer {α : Type} {p a rest : List α} {ps : List (List α)} (hp : p ≠ [])
    (ha : a ≠ []) (hps : ∀ q ∈ ps, q ≠ []) (hflat : ps.flatten = a ++ rest) (qs : List (List α)) :
    Splits (p :: ps) ((p ++ a) :: qs) := by
  obtain ⟨x, p, rfl⟩ := List.exists_cons_of_ne_nil hp
  obtain ⟨y, a, rfl⟩ := List.exists_cons_of_ne_nil ha
  cases ps with
  | nil => cases hflat
  | cons q ps =>
    obtain ⟨z, q, rfl⟩ := List.exists_cons_of_ne_nil (hps q (by simp))
    obtain rfl : z = y := (List.cons.inj hflat).1
    exact .here x p z q a ps qs

/-- Different partitions of one list differ at a first place. -/
theorem eq_or_splits {α : Type} : ∀ {ps qs : List (List α)}, (∀ p ∈ ps, p ≠ []) →
    (∀ q ∈ qs, q ≠ []) → ps.flatten = qs.flatten → ps = qs ∨ Splits ps qs ∨ Splits qs ps
  | [], [], _, _, _ => .inl rfl
  | [], q :: qs, _, hq, hflat => absurd (List.append_eq_nil_iff.mp hflat.symm).1 (hq q (by simp))
  | p :: ps, [], hp, _, hflat => absurd (List.append_eq_nil_iff.mp hflat).1 (hp p (by simp))
  | p :: ps, q :: qs, hp, hq, hflat => by
    obtain ⟨hp, hps⟩ := List.forall_mem_cons.mp hp
    obtain ⟨hq, hqs⟩ := List.forall_mem_cons.mp hq
    rcases List.append_eq_append_iff.mp hflat with ⟨a, rfl, hrest⟩ | ⟨a, rfl, hrest⟩
    · by_cases ha : a = []
      · subst ha
        rw [List.append_nil]
        rcases eq_or_splits hps hqs hrest with rfl | h | h
        · exact .inl rfl
        · exact .inr (.inl (h.there p))
        · exact .inr (.inr (h.there p))
      · exact .inr (.inl (splits_of_longer hp ha hps hrest qs))
    · by_cases ha : a = []
      · subst ha
        rw [List.append_nil]
        rcases eq_or_splits hps hqs hrest.symm with rfl | h | h
        · exact .inl rfl
        · exact .inr (.inl (h.there q))
        · exact .inr (.inr (h.there q))
      · exact .inr (.inr (splits_of_longer hq ha hqs hrest ps))

namespace IntegralOperator

variable (o : IntegralOperator)

/-- An operand that overflows together with itself at `int`, but not at `long`. -/
def probe : IntegralOperator → (n : Nat) → BitVec n
  | plus, n => .twoPow n 30
  | _, n => .twoPow n 16

/-- Values with which only two names change anything. -/
def probing (w : String → Width) (x y : String) : Values w := fun z =>
  if z = x ∨ z = y then o.probe _ else o.neutral _

theorem probe_overflows (ho : o.isBitwise = false) :
    o.apply (o.probe 64) (o.probe 64) ≠ (o.apply (o.probe 32) (o.probe 32)).signExtend 64 := by
  cases o with
  | times | plus => decide
  | _ => cases ho

theorem signExtend_probe : (o.probe 32).signExtend 64 = o.probe 64 := by
  cases o <;> decide

variable {o} {x y z : String} {p : List String}

theorem probing_of_ne (h : z ≠ x ∧ z ≠ y) : o.probing w x y z = o.neutral _ :=
  if_neg (not_or.mpr h)

theorem signExtend_probing (hz : z = x ∨ z = y) (hw : w z = .int) :
    (o.probing w x y z).signExtend 32 = o.probe 32 := by
  rw [probing, if_pos hz, hw]
  exact BitVec.signExtend_eq _

theorem partValue_probing (hz : z = x ∨ z = y) (hw : w z = .int)
    (hp : ∀ t ∈ p, t ≠ x ∧ t ≠ y) : o.partValue (o.probing w x y) (z :: p) = o.probe 64 := by
  rw [o.partValue_cons fun t ht => probing_of_ne (hp t ht), ← signExtend_of_int _ hw,
    signExtend_probing hz hw, signExtend_probe]

theorem partValue_probing_both {q : List String} (hw : ∀ z ∈ x :: (p ++ y :: q), w z = .int)
    (hp : ∀ t ∈ p, t ≠ x ∧ t ≠ y) (hq : ∀ t ∈ q, t ≠ x ∧ t ≠ y) :
    o.partValue (o.probing w x y) (x :: (p ++ y :: q)) =
      (o.apply (o.probe 32) (o.probe 32)).signExtend 64 := by
  have hp' := o.combine_eq_neutral_of_int (fun t ht => probing_of_ne (o := o) (w := w) (hp t ht))
    fun t ht => hw t (by simp [ht])
  have hq' := o.combine_eq_neutral_of_int (fun t ht => probing_of_ne (o := o) (w := w) (hq t ht))
    fun t ht => hw t (by simp [ht])
  rw [o.partValue_of_narrow hw, List.map_cons, List.map_append, List.map_cons, o.combine_cons,
    o.combine_append, o.combine_cons, hp', hq', signExtend_probing (.inl rfl) (hw x (by simp)),
    signExtend_probing (.inr rfl) (hw y (by simp)), o.apply_neutral, o.neutral_apply]

theorem combine_probing {ps : List (List String)} (h : ∀ z ∈ ps.flatten, z ≠ x ∧ z ≠ y) :
    o.combine (ps.map (o.partValue (o.probing w x y))) = o.neutral 64 := by
  refine o.combine_eq_neutral fun b hb => ?_
  obtain ⟨p, hp, rfl⟩ := List.mem_map.mp hb
  exact o.partValue_eq_neutral fun z hz =>
    probing_of_ne (h z (List.mem_flatten.mpr ⟨p, hp, hz⟩))

end IntegralOperator

/-- **Where partitions differ, overflow shows it**: with two names of type `int` that are in one
part of the second partition and in different parts of the first one. -/
theorem Splits.exists_probing (o : IntegralOperator) {ps qs : List (List String)}
    (h : Splits ps qs) (hps : ps.flatten.Nodup) (hqs : qs.flatten.Nodup)
    (hnarrow : ∀ q ∈ qs, (∀ x ∈ q, w x = .int) ∨ ∃ x, q = [x]) :
    ∃ x ∈ ps.flatten, ∃ y ∈ ps.flatten,
      o.combine (ps.map (o.partValue (o.probing w x y))) = o.apply (o.probe 64) (o.probe 64) ∧
      o.combine (qs.map (o.partValue (o.probing w x y))) =
        (o.apply (o.probe 32) (o.probe 32)).signExtend 64 := by
  induction h with
  | here x p y q p' ps qs =>
    have hint : ∀ z ∈ x :: (p ++ y :: p'), w z = .int :=
      (hnarrow _ (by simp)).resolve_right (by simp)
    refine ⟨x, by simp, y, by simp, ?_, ?_⟩
    · have hp : ∀ z ∈ p, z ≠ x ∧ z ≠ y := by grind
      have hq : ∀ z ∈ q, z ≠ x ∧ z ≠ y := by grind
      have hrest : ∀ z ∈ ps.flatten, z ≠ x ∧ z ≠ y := by grind
      rw [List.map_cons, List.map_cons, o.combine_cons, o.combine_cons,
        IntegralOperator.partValue_probing (.inl rfl) (hint x (by simp)) hp,
        IntegralOperator.partValue_probing (.inr rfl) (hint y (by simp)) hq,
        IntegralOperator.combine_probing hrest, o.apply_neutral]
    · have hp : ∀ z ∈ p, z ≠ x ∧ z ≠ y := by grind
      have hp' : ∀ z ∈ p', z ≠ x ∧ z ≠ y := by grind
      have hrest : ∀ z ∈ qs.flatten, z ≠ x ∧ z ≠ y := by grind
      rw [List.map_cons, o.combine_cons, IntegralOperator.partValue_probing_both hint hp hp',
        IntegralOperator.combine_probing hrest, o.apply_neutral]
  | @there p ps qs h ih =>
    rw [List.flatten_cons, List.nodup_append] at hps hqs
    obtain ⟨x, hx, y, hy, hvps, hvqs⟩ := ih hps.2.1 hqs.2.1 fun q hq => hnarrow q (by simp [hq])
    have hp : o.partValue (o.probing w x y) p = o.neutral 64 :=
      o.partValue_eq_neutral fun z hz =>
        IntegralOperator.probing_of_ne ⟨hps.2.2 z hz x hx, hps.2.2 z hz y hy⟩
    refine ⟨x, by simp [hx], y, by simp [hy], ?_, ?_⟩
    · rw [List.map_cons, o.combine_cons, hp, o.neutral_apply, hvps]
    · rw [List.map_cons, o.combine_cons, hp, o.neutral_apply, hvqs]

namespace Grouping

variable {g h : Grouping} {o : IntegralOperator}

theorem value?_ne_of_splits (ho : o.isBitwise = false) (hg : g.isOver o.operator)
    (hh : h.isOver o.operator) (hnames : g.names = h.names) (hnodup : g.names.Nodup)
    (hs : Splits (g.parts w) (h.parts w)) : ∃ values : Values w,
      g.value? values ≠ h.value? values := by
  rw [← flatten_parts w] at hnodup
  have hnodup' : (h.parts w).flatten.Nodup := by
    rwa [flatten_parts, ← hnames, ← flatten_parts w]
  obtain ⟨x, -, y, -, hvg, hvh⟩ :=
    hs.exists_probing o hnodup hnodup' fun q hq => (of_mem_parts hh hq).2
  refine ⟨o.probing w x y, fun hv => ?_⟩
  rw [value?_eq_iff hg hh hnames, hvg, hvh] at hv
  exact o.probe_overflows ho hv

/-- **Different parts have different values**, for `*` and `+` and names that occur once. -/
theorem parts_eq_of_value?_eq (ho : o.isBitwise = false) (hg : g.isOver o.operator)
    (hh : h.isOver o.operator) (hnames : g.names = h.names) (hnodup : g.names.Nodup)
    (hv : ∀ values : Values w, g.value? values = h.value? values) : g.parts w = h.parts w := by
  have hflat : (g.parts w).flatten = (h.parts w).flatten := by
    rw [flatten_parts, flatten_parts, hnames]
  rcases eq_or_splits (fun p hp => (of_mem_parts hg hp).1) (fun p hp => (of_mem_parts hh hp).1)
    hflat with heq | hs | hs
  · exact heq
  · obtain ⟨values, hne⟩ := value?_ne_of_splits ho hg hh hnames hnodup hs
    exact absurd (hv values) hne
  · obtain ⟨values, hne⟩ := value?_ne_of_splits ho hh hg hnames.symm (hnames ▸ hnodup) hs
    exact absurd (hv values).symm hne

end Grouping

end SyntaxForest
