import SyntaxForest.Tree.Text
import Mathlib.Data.List.Basic
import Mathlib.Tactic.SplitIfs

/-! # Lines and indentation

A text is cut into lines at its line feeds. Indenting a text puts spaces in front of every line; a
text that is written inside `k` blocks has its new lines shifted by `4 * k` spaces instead, its first
line being part of what stands before it.

* `indent_eq`: indenting is shifting, with the spaces in front of the first line;
* `shift_shift`: texts inside blocks inside blocks are shifted once by the number of all blocks;
* `Encloses.lines_eq`: what is enclosed in a text on lines of its own is found among its lines. -/

namespace SyntaxForest

namespace Text

/-! ### Lines -/

/-- The lines of a text: what stands between its line feeds. -/
def lines (cs : List Char) : List (List Char) := cs.splitOn '\n'

/-- The text with `n` spaces in front of every line. -/
def indent (n : Nat) (cs : List Char) : List Char :=
  ['\n'].intercalate ((lines cs).map (List.replicate n ' ' ++ ·))

/-- The text with every new line `k` blocks further in. -/
def shift (k : Nat) (cs : List Char) : List Char :=
  cs.flatMap fun c => if c = '\n' then newLine k else [c]

variable {cs : List Char} {k n : Nat}

theorem shift_append (k : Nat) (as bs : List Char) : shift k (as ++ bs) = shift k as ++ shift k bs :=
  List.flatMap_append

theorem shift_cons_newLine (k : Nat) (cs : List Char) :
    shift k ('\n' :: cs) = newLine k ++ shift k cs := rfl

theorem shift_cons {c : Char} (hc : c ≠ '\n') (k : Nat) (cs : List Char) :
    shift k (c :: cs) = c :: shift k cs := by
  rw [shift, List.flatMap_cons, if_neg hc]
  rfl

theorem shift_of_not_mem (h : '\n' ∉ cs) (k : Nat) : shift k cs = cs := by
  induction cs with
  | nil => rfl
  | cons c cs ih =>
    rw [List.mem_cons, not_or] at h
    rw [shift_cons (Ne.symm h.1), ih h.2]

theorem shift_zero (cs : List Char) : shift 0 cs = cs := by
  induction cs with
  | nil => rfl
  | cons c cs ih =>
    by_cases hc : c = '\n'
    · rw [hc, shift_cons_newLine, ih]; rfl
    · rw [shift_cons hc, ih]

theorem shift_newLine (k depth : Nat) : shift k (newLine depth) = newLine (depth + k) := by
  have hspaces : '\n' ∉ List.replicate (4 * depth) ' ' := by simp
  rw [newLine, shift_cons_newLine, shift_of_not_mem hspaces, newLine, newLine, List.cons_append,
    List.replicate_append_replicate]
  congr 2
  omega

theorem shift_shift (k n : Nat) (cs : List Char) : shift k (shift n cs) = shift (n + k) cs := by
  induction cs with
  | nil => rfl
  | cons c cs ih =>
    by_cases hc : c = '\n'
    · rw [hc, shift_cons_newLine, shift_cons_newLine, shift_append, shift_newLine, ih]
    · rw [shift_cons hc, shift_cons hc, shift_cons hc, ih]

theorem lines_ne_nil (cs : List Char) : lines cs ≠ [] := List.splitOn_ne_nil '\n' cs

theorem lines_append (as bs : List Char) : lines (as ++ '\n' :: bs) = lines as ++ lines bs :=
  List.splitOn_append_cons_self as bs

theorem intercalate_cons_eq (line : List Char) (rest : List (List Char)) :
    ['\n'].intercalate (line :: rest) = line ++ rest.flatMap ('\n' :: ·) := by
  induction rest generalizing line with
  | nil => simp
  | cons next rest ih => rw [List.intercalate_cons_cons, ih, List.flatMap_cons]; simp

theorem lines_cons (c : Char) (cs : List Char) :
    lines (c :: cs) = if c = '\n' then [] :: lines cs else (lines cs).modifyHead (c :: ·) := by
  rw [lines, List.splitOn_cons_eq_if_modifyHead]
  simp [lines]

theorem not_mem_of_mem_lines : ∀ {cs line : List Char}, line ∈ lines cs → '\n' ∉ line
  | [], line, h => by
    obtain rfl : line = [] := by simpa [lines] using h
    simp
  | c :: cs, line, h => by
    have ih : ∀ l ∈ lines cs, '\n' ∉ l := fun l hl => not_mem_of_mem_lines hl
    rw [lines_cons] at h
    obtain ⟨first, rest, hlines⟩ := List.exists_cons_of_ne_nil (lines_ne_nil cs)
    rw [hlines] at h ih
    split_ifs at h with hc
    · rcases List.mem_cons.mp h with rfl | h
      · simp
      · exact ih line h
    · rcases List.mem_cons.mp h with rfl | h
      · simp [Ne.symm hc, ih first]
      · exact ih line (List.mem_cons_of_mem first h)

/-- **Indenting a text** is shifting its new lines and putting the spaces in front of the first. -/
theorem indent_eq (k : Nat) (cs : List Char) :
    indent (4 * k) cs = List.replicate (4 * k) ' ' ++ shift k cs := by
  induction cs with
  | nil => simp [indent, lines, shift]
  | cons c cs ih =>
    obtain ⟨first, rest, hlines⟩ := List.exists_cons_of_ne_nil (lines_ne_nil cs)
    rw [indent, hlines, List.map_cons, intercalate_cons_eq] at ih
    rw [indent, lines_cons, hlines]
    by_cases hc : c = '\n'
    · rw [if_pos hc, hc, shift_cons_newLine, newLine, List.cons_append, ← ih, List.map_cons,
        intercalate_cons_eq]
      simp
    · rw [List.append_assoc, List.append_cancel_left_eq] at ih
      rw [if_neg hc, shift_cons hc, ← ih, List.modifyHead_cons, List.map_cons, intercalate_cons_eq]
      simp

theorem lines_indent (n : Nat) (cs : List Char) :
    lines (indent n cs) = (lines cs).map (List.replicate n ' ' ++ ·) := by
  refine List.splitOn_intercalate '\n' ?_ (by simpa using lines_ne_nil cs)
  intro line hline
  obtain ⟨l, hl, rfl⟩ := List.mem_map.mp hline
  simp [not_mem_of_mem_lines hl]

/-! ### Texts in texts -/

/-- Texts between braces, each of them indented and on lines of its own. -/
def inBraces (texts : List (List Char)) : List Char :=
  if texts.isEmpty then ['\x7b', '\x7d']
  else '\x7b' :: texts.flatMap (fun text => '\n' :: indent 4 text) ++ ['\n', '\x7d']

/-- The inner text is part of the outer one, with its new lines shifted. -/
def Contains (k : Nat) (outer inner : List Char) : Prop :=
  ∃ before after, outer = before ++ shift k inner ++ after

/-- The inner text is part of the outer one, indented and on lines of its own. -/
def Encloses (k : Nat) (outer inner : List Char) : Prop :=
  ∃ before after, outer = before ++ '\n' :: indent (4 * k) inner ++ '\n' :: after

variable {outer middle inner : List Char} {texts : List (List Char)}

theorem Contains.refl (cs : List Char) : Contains 0 cs cs := ⟨[], [], by simp [shift_zero]⟩

theorem Contains.trans (h : Contains k outer middle) (h' : Contains n middle inner) :
    Contains (k + n) outer inner := by
  obtain ⟨before, after, rfl⟩ := h
  obtain ⟨before', after', rfl⟩ := h'
  refine ⟨before ++ shift k before', shift k after' ++ after, ?_⟩
  rw [shift_append, shift_append, shift_shift, Nat.add_comm n k]
  simp only [List.append_assoc]

theorem Contains.encloses (h : Contains k outer middle) (h' : Encloses n middle inner) :
    Encloses (k + n) outer inner := by
  obtain ⟨before, after, rfl⟩ := h
  obtain ⟨before', after', rfl⟩ := h'
  refine ⟨before ++ shift k before', List.replicate (4 * k) ' ' ++ shift k after' ++ after, ?_⟩
  have hspaces : '\n' ∉ List.replicate (4 * n) ' ' := by simp
  rw [shift_append, shift_append, shift_cons_newLine, shift_cons_newLine, indent_eq, indent_eq,
    shift_append, shift_of_not_mem hspaces, shift_shift, Nat.add_comm n k, newLine, Nat.mul_add,
    ← List.replicate_append_replicate]
  simp only [List.append_assoc, List.cons_append]

theorem Encloses.contains (h : Encloses k outer inner) : Contains k outer inner := by
  obtain ⟨before, after, rfl⟩ := h
  refine ⟨before ++ newLine k, '\n' :: after, ?_⟩
  rw [indent_eq, newLine]
  simp only [List.append_assoc, List.cons_append]

/-- **The lines of an enclosed text** are among the lines around it, indented. -/
theorem Encloses.lines_eq (h : Encloses k outer inner) : ∃ before after,
    lines outer = before ++ (lines inner).map (List.replicate (4 * k) ' ' ++ ·) ++ after := by
  obtain ⟨before, after, rfl⟩ := h
  exact ⟨lines before, lines after, by rw [lines_append, lines_append, lines_indent]⟩

theorem encloses_inBraces (h : inner ∈ texts) : Encloses 1 (inBraces texts) inner := by
  obtain ⟨l₁, l₂, rfl⟩ := List.append_of_mem h
  obtain ⟨after, hafter⟩ : ∃ after, l₂.flatMap (fun text => '\n' :: indent 4 text) ++ ['\n', '\x7d'] =
      '\n' :: after := by
    cases l₂ with
    | nil => exact ⟨_, rfl⟩
    | cons text l₂ => exact ⟨_, rfl⟩
  refine ⟨'\x7b' :: l₁.flatMap fun text => '\n' :: indent 4 text, after, ?_⟩
  rw [← hafter]
  simp [inBraces]

end Text

end SyntaxForest
