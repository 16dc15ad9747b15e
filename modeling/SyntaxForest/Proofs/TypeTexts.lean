import SyntaxForest.Proofs.TypeSharing

/-!
# Types and their texts

Resolving a text and writing the type down again loses white space only. What is left of a text is
its canonical text: white space is trimmed at both ends and before each `[]` at the end
(`canonical`).

* `canonical_eq_write`, `read_canonical`: the canonical text is what a text is read as, and it is
  read as the same base name and brackets again;
* `text_resolve`: the type that a text names is written as the canonical text;
* `text_resolve_canonical`: therefore the canonical text names the same type, and two texts name
  one type if and only if their canonical texts are equal.
-/

namespace SyntaxForest

open Text

theorem Text.trimEnd_reverse (cs : List Char) :
    trimEnd cs.reverse = (cs.dropWhile isBlank).reverse := by
  rw [trimEnd, List.reverse_reverse]

theorem Text.length_trimEnd_le (cs : List Char) : (trimEnd cs).length ≤ cs.length := by
  have hle := (List.dropWhile_suffix (l := cs.reverse) isBlank).length_le
  simpa [trimEnd] using hle

namespace TypeText

/-! ### Canonical texts -/

/-- A text without the white space before each `[]` at its end. -/
def tighten (cs : List Char) : List Char :=
  if ['[', ']'] <:+ cs then tighten (trimEnd (cs.take (cs.length - 2))) ++ ['[', ']'] else cs
termination_by cs.length
decreasing_by
  rename_i h
  have hlong : 2 ≤ cs.length := h.length_le
  have hshort := length_trimEnd_le (cs.take (cs.length - 2))
  simp only [List.length_take] at hshort
  omega

/-- **The canonical text**: without white space at both ends and before each `[]` at the end. -/
def canonical (text : String) : String :=
  String.ofList (tighten (trimEnd (trimStart text.toList)))

theorem tighten_brackets (cs : List Char) :
    tighten (cs ++ ['[', ']']) = tighten (trimEnd cs) ++ ['[', ']'] := by
  rw [tighten, if_pos (List.suffix_append _ _)]
  simp

theorem tighten_base {cs : List Char} (h : ¬ ['[', ']'] <:+ cs) : tighten cs = cs := by
  rw [tighten, if_neg h]

/-- The brackets of a number of dimensions. -/
def brackets (n : Nat) : List Char := (List.replicate n ['[', ']']).flatten

theorem brackets_succ (n : Nat) : brackets (n + 1) = brackets n ++ ['[', ']'] := by
  simp [brackets, List.replicate_succ']

theorem reverse_brackets_succ (n : Nat) :
    (brackets (n + 1)).reverse = ']' :: '[' :: (brackets n).reverse := by
  rw [brackets_succ, List.reverse_append]
  rfl

/-- Reading a reversed text takes off what the canonical text has moved together. -/
theorem tighten_reverse (cs : List Char) :
    tighten (trimEnd cs.reverse) = (peel cs).base.reverse ++ brackets (peel cs).dimensions := by
  fun_induction peel cs with
  | case1 cs inner ih =>
    have hends : trimEnd (']' :: '[' :: cs).reverse = cs.reverse ++ ['[', ']'] := by
      rw [trimEnd_reverse]
      simp [List.dropWhile, isBlank]
    rw [hends, tighten_brackets, ih, brackets_succ, List.append_assoc]
  | case2 c cs hne hblank ih =>
    rw [trimEnd_reverse, List.dropWhile_cons_of_pos hblank, ← trimEnd_reverse]
    exact ih
  | case3 c cs hne hblank =>
    have hbase : ¬ ['[', ']'] <:+ (c :: cs).reverse := by
      rintro ⟨rest, hrest⟩
      have hfirst : c :: cs = ']' :: '[' :: rest.reverse := by
        rw [← List.reverse_reverse (c :: cs), ← hrest]
        simp
      obtain ⟨rfl, rfl⟩ := List.cons.inj hfirst
      exact hne _ rfl rfl
    rw [trimEnd_reverse, List.dropWhile_cons_of_neg hblank, tighten_base hbase]
    simp [brackets]
  | case4 =>
    have hbase : ¬ ['[', ']'] <:+ trimEnd [].reverse := by simp [trimEnd]
    rw [tighten_base hbase]
    rfl

theorem canonical_eq_write (text : String) : canonical text = (read text).write := by
  have h := tighten_reverse (trimStart text.toList).reverse
  rw [List.reverse_reverse] at h
  rw [canonical, h]
  rfl

example : canonical "  int [] []\t" = "int[][]" := by
  rw [canonical_eq_write]
  decide +kernel

/-! ### Reading a canonical text -/

theorem base_peel_suffix (cs : List Char) : (peel cs).base <:+ cs := by
  fun_induction peel cs with
  | case1 cs inner ih => exact ih.trans ((List.suffix_cons _ _).trans (List.suffix_cons _ _))
  | case2 c cs _ _ ih => exact ih.trans (List.suffix_cons _ _)
  | case3 c cs => exact List.suffix_rfl
  | case4 => exact List.suffix_rfl

theorem peel_brackets (cs : List Char) :
    peel (']' :: '[' :: cs) = ⟨(peel cs).base, (peel cs).dimensions + 1⟩ := rfl

theorem peel_of_base {c : Char} {cs : List Char}
    (hne : ∀ rest, c = ']' → cs = '[' :: rest → False) (hblank : ¬ isBlank c) :
    peel (c :: cs) = ⟨c :: cs, 0⟩ := by
  unfold peel
  split
  · next rest h =>
    obtain ⟨rfl, rfl⟩ := List.cons.inj h
    exact (hne rest rfl rfl).elim
  · next h =>
    obtain ⟨rfl, rfl⟩ := List.cons.inj h
    exact if_neg hblank
  · next h => cases h

theorem peel_base_peel (cs : List Char) : peel (peel cs).base = ⟨(peel cs).base, 0⟩ := by
  fun_induction peel cs with
  | case1 cs inner ih => exact ih
  | case2 c cs _ _ ih => exact ih
  | case3 c cs hne hblank => exact peel_of_base hne hblank
  | case4 => rfl

theorem peel_brackets_append (n : Nat) (cs : List Char) :
    peel ((brackets n).reverse ++ cs) = ⟨(peel cs).base, (peel cs).dimensions + n⟩ := by
  induction n with
  | zero => rfl
  | succ n ih =>
    rw [reverse_brackets_succ, List.cons_append, List.cons_append, peel_brackets, ih]
    rfl

theorem not_isBlank_of_trimStart {cs base : List Char} {c : Char}
    (h : c :: base <+: trimStart cs) : isBlank c = false := by
  obtain ⟨rest, hrest⟩ := h
  have hhead := List.head?_dropWhile_not isBlank cs
  rw [show cs.dropWhile isBlank = c :: (base ++ rest) from hrest.symm] at hhead
  exact hhead

theorem trimStart_write (text : String) :
    trimStart (read text).write.toList = (read text).write.toList := by
  have hprefix : (read text).base <+: trimStart text.toList := by
    have h := List.reverse_prefix.mpr (base_peel_suffix (trimStart text.toList).reverse)
    rw [List.reverse_reverse] at h
    exact h
  have hwrite : (read text).write.toList = (read text).base ++ brackets (read text).dimensions := by
    simp [write, brackets]
  rw [hwrite]
  cases hbase : (read text).base with
  | nil =>
    cases (read text).dimensions with
    | zero => rfl
    | succ n =>
      show trimStart ('[' :: ']' :: brackets n) = _
      exact List.dropWhile_cons_of_neg (by decide)
  | cons c base =>
    have hc : isBlank c = false := not_isBlank_of_trimStart (hbase ▸ hprefix)
    exact List.dropWhile_cons_of_neg (by simp [hc])

/-- **The canonical text is read as the same base name and brackets.** -/
theorem read_canonical (text : String) : read (canonical text) = read text := by
  have hwritten : (read text).write.toList.reverse =
      (brackets (read text).dimensions).reverse ++ (read text).base.reverse := by
    simp [write, brackets]
  have hbase : peel (read text).base.reverse = ⟨(read text).base.reverse, 0⟩ := by
    show peel (peel _).base.reverse.reverse = ⟨(peel _).base.reverse.reverse, 0⟩
    rw [List.reverse_reverse]
    exact peel_base_peel _
  rw [canonical_eq_write]
  show ({ peel (trimStart (read text).write.toList).reverse with base := _ } : TypeText) = _
  rw [trimStart_write, hwritten, peel_brackets_append, hbase]
  simp

theorem canonical_eq_iff {s u : String} : canonical s = canonical u ↔ read s = read u := by
  refine ⟨fun h => ?_, fun h => by rw [canonical_eq_write, canonical_eq_write, h]⟩
  rw [← read_canonical s, ← read_canonical u, h]

/-! ### Writing the type -/

theorem text_baseBinding (parts : TypeText) :
    parts.baseBinding.text = String.ofList parts.base := by
  simp only [baseBinding]
  split
  · next h => exact h.symm
  · split
    · next p h => exact Primitive.name_of_ofName? h
    · rfl

end TypeText

namespace TypeTable

open TypeText

variable {t : TypeTable} {e : TypeRef}

theorem text_intern (t : TypeTable) (b : TypeBinding) : (t.intern b).1.binding.text = b.text :=
  congrArg TypeShape.text (shape_intern t b)

theorem text_arrays (t : TypeTable) (e : TypeRef) (n : Nat) :
    (t.arrays e n).1.binding.text = e.binding.text ++ String.ofList (brackets n) := by
  induction n with
  | zero => simp [arrays, brackets]
  | succ n ih =>
    have htext : (t.arrays e (n + 1)).1.binding.text = (t.arrays e n).1.binding.text ++ "[]" :=
      text_intern _ _
    rw [htext, ih, brackets_succ, String.append_assoc, String.ofList_append]

theorem stores_arrays (he : t.Stores e) (n : Nat) : (t.arrays e n).2.Stores (t.arrays e n).1 := by
  cases n with
  | zero => exact he
  | succ n => exact stores_intern _ _

theorem stores_resolve (t : TypeTable) (text : String) :
    (t.resolve text).2.Stores (t.resolve text).1 := stores_arrays (stores_intern _ _) _

/-- **A text is resolved to the type that its canonical text spells.** -/
theorem text_resolve (t : TypeTable) (text : String) :
    (t.resolve text).1.binding.text = canonical text := by
  have hbase : (t.intern (read text).baseBinding).1.binding.text =
      String.ofList (read text).base := by
    rw [text_intern, text_baseBinding]
  have harrays := text_arrays (t.intern (read text).baseBinding).2
    (t.intern (read text).baseBinding).1 (read text).dimensions
  rw [hbase, ← String.ofList_append] at harrays
  exact harrays.trans (canonical_eq_write text).symm

/-- **Resolving and writing are inverse up to white space.** In any table, the type that a text is
resolved to is written as the canonical text. In every later table the canonical text is resolved to
the same reference, with nothing stored; and another text is resolved to it if and only if it has
the same canonical text. -/
theorem text_resolve_canonical (t : TypeTable) (s u : String) (requests : List TypeRequest) :
    let later := (t.resolve s).2.run requests
    (t.resolve s).1.binding.text = canonical s ∧
    later.resolve (t.resolve s).1.binding.text = ((t.resolve s).1, later) ∧
    ((t.resolve s).1.same (later.resolve u).1 ↔ canonical s = canonical u) := by
  intro later
  have hsettled : later.resolve s = ((t.resolve s).1, later) :=
    resolve_settled ((t.resolve s).2.extends_run requests)
  have hcongr : ∀ v, canonical s = canonical v → later.resolve v = ((t.resolve s).1, later) := by
    intro v hv
    rw [← hsettled, resolve, resolve, canonical_eq_iff.mp hv]
  refine ⟨text_resolve t s, ?_, fun hsame => ?_, fun h => ?_⟩
  · refine hcongr _ ?_
    rw [text_resolve, canonical_eq_iff, read_canonical]
  · -- both references are stored in the last table, at one place
    have hs : (later.resolve u).2.Stores (t.resolve s).1 :=
      ((stores_resolve t s).extends (extends_run _ requests)).extends (extends_resolve later u)
    have hu := stores_resolve later u
    have hplace : (t.resolve s).1.place = (later.resolve u).1.place := by
      simpa [TypeRef.same] using hsame
    rw [← text_resolve t s, ← text_resolve later u, hs.binding_eq hu hplace]
  · rw [hcongr u h]
    simp [TypeRef.same]

end TypeTable

end SyntaxForest
