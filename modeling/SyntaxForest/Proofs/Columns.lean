import SyntaxForest.Report.SourceLine
import Mathlib.Data.List.Basic
import Mathlib.Tactic.SplitIfs

/-! # Lines and columns of a source text

The lines that a text is cut into agree with the lines and columns that are counted from one character
to the next: the line that a character belongs to has the number of its line, and starts as many
characters before it as its column says (`exists_lineAt?`). So no two characters have the same place
(`lineColumn_injective`). -/

namespace SyntaxForest.Report

/-! ### Cutting a text into lines -/

theorem cut_cons (line : List Char) (c : Char) (rest : List Char) :
    cut line (c :: rest) =
      if endsLine c rest then (c :: line).reverse :: cut [] rest else cut (c :: line) rest := by
  by_cases hpair : c = '\r' ∧ rest.head? = some '\n'
  · obtain ⟨rfl, hhead⟩ := hpair
    obtain ⟨rest, rfl⟩ := List.head?_eq_some_iff.mp hhead
    have hreturn : endsLine '\r' ('\n' :: rest) = false := by simp [endsLine]
    have hfeed : isTerminator '\n' = true := by decide
    rw [hreturn, if_neg (by decide), cut, cut, if_pos hfeed]
    simp
  · have hends : endsLine c rest = isTerminator c := by
      rw [endsLine, ← Bool.decide_and, decide_eq_false hpair]
      simp
    rw [cut, hends]
    rintro rest' rfl rfl
    exact hpair ⟨rfl, rfl⟩

theorem exists_cut_cons (text : List Char) : ∀ (line : List Char) (c : Char),
    ∃ chars rest, cut line (c :: text) = chars :: rest ∧ line.length < chars.length := by
  induction text with
  | nil =>
    intro line c
    rw [cut_cons]
    split_ifs <;> exact ⟨_, [], rfl, by simp⟩
  | cons d text ih =>
    intro line c
    rw [cut_cons]
    split_ifs
    · exact ⟨_, _, rfl, by simp⟩
    · obtain ⟨chars, rest, hcut, hlt⟩ := ih (c :: line) d
      exact ⟨chars, rest, hcut, Nat.lt_of_succ_lt hlt⟩

theorem le_offset_of_mem_place {offset : Nat} {chunks : List (List Char)} {l : SourceLine}
    (h : l ∈ SourceLine.place offset chunks) : offset ≤ l.offset := by
  induction chunks generalizing offset with
  | nil => cases h
  | cons chars rest ih =>
    rcases List.mem_cons.mp h with rfl | h
    · exact Nat.le_refl offset
    · exact Nat.le_trans (Nat.le_add_right offset chars.length) (ih h)

/-! ### Looking up a line -/

/-- The last line that starts at or before a position, with its index, counted from `index` on. -/
def lastFrom (index : Nat) (lines : List SourceLine) (position : Nat) : Option (SourceLine × Nat) :=
  ((lines.zipIdx index).filter fun (line, _) => line.offset ≤ position).getLast?

section LastLine

variable {l : SourceLine} {rest lines : List SourceLine} {index position i : Nat}

theorem lastFrom_cons (h : l.offset ≤ position) : lastFrom index (l :: rest) position =
    some ((lastFrom (index + 1) rest position).getD (l, index)) := by
  simp [lastFrom, List.zipIdx_cons, h, List.getLast?_cons]

theorem lastFrom_of_lt (h : ∀ a ∈ rest, position < a.offset) : lastFrom index rest position = none := by
  rw [lastFrom, List.getLast?_eq_none_iff, List.filter_eq_nil_iff]
  rintro ⟨a, k⟩ ha
  have hlt := h a (List.fst_mem_of_mem_zipIdx ha)
  simpa using hlt

theorem lastFrom_zero_eq_some (h : lastFrom 0 lines position = some (l, i)) :
    lines[i]? = some l ∧ l.offset ≤ position := by
  have hmem := List.mem_filter.mp (List.mem_of_getLast? h)
  exact ⟨List.mem_zipIdx_iff_getElem?.mp hmem.1, by simpa using hmem.2⟩

end LastLine

/-- **The line of a character** is the last one that starts at or before it. Its first `line.length`
characters come before the text. -/
theorem exists_lastFrom (text : List Char) : ∀ (line : List Char) (offset index position : Nat),
    position < text.length → ∃ l i,
      lastFrom index (SourceLine.place offset (cut line text)) (offset + line.length + position) =
        some (l, i) ∧
      offset + line.length + position < l.stop ∧
      lineColumnFrom ⟨index + 1, line.length + 1⟩ text position =
        ⟨i + 1, offset + line.length + position - l.offset + 1⟩ := by
  induction text with
  | nil => intro _ _ _ _ h; simp at h
  | cons c text ih =>
    intro line offset index position hposition
    cases position with
    | zero =>
      -- the character is in the first line, and all others start behind that
      obtain ⟨chars, rest, hcut, hlt⟩ := exists_cut_cons text line c
      have hrest : ∀ a ∈ SourceLine.place (offset + chars.length) rest,
          offset + line.length < a.offset := fun a ha => by
        have := le_offset_of_mem_place ha
        omega
      refine ⟨⟨offset, chars⟩, index, ?_, ?_, ?_⟩
      · have hfirst : offset ≤ offset + line.length := Nat.le_add_right offset line.length
        rw [hcut, SourceLine.place, Nat.add_zero (offset + line.length), lastFrom_cons hfirst,
          lastFrom_of_lt hrest]
        rfl
      · simp only [SourceLine.stop, SourceLine.length]; omega
      · simp [lineColumnFrom]
    | succ position =>
      have hposition : position < text.length := by simpa using hposition
      rw [cut_cons, lineColumnFrom, LineColumn.next]
      split_ifs with hends
      · -- the line ends, and the next one is started
        obtain ⟨l, i, hlast, hlt, hcolumn⟩ :=
          ih [] (offset + (c :: line).reverse.length) (index + 1) position hposition
        have hsum : offset + (c :: line).reverse.length + ([] : List Char).length + position =
          offset + line.length + (position + 1) := by simp; omega
        rw [hsum] at hlast hlt hcolumn
        have hfirst : offset ≤ offset + line.length + (position + 1) := by omega
        exact ⟨l, i, by rw [SourceLine.place, lastFrom_cons hfirst, hlast]; rfl, hlt, hcolumn⟩
      · obtain ⟨l, i, hlast, hlt, hcolumn⟩ := ih (c :: line) offset index position hposition
        have hsum : offset + (c :: line).length + position =
          offset + line.length + (position + 1) := by simp; omega
        rw [hsum] at hlast hlt hcolumn
        exact ⟨l, i, hlast, hlt, hcolumn⟩

variable {text : List Char} {position i : Nat} {l : SourceLine}

theorem ofText_of_ne_nil (h : text ≠ []) :
    SourceLine.ofText text = SourceLine.place 0 (cut [] text) := by
  obtain ⟨c, text, rfl⟩ := List.exists_cons_of_ne_nil h
  obtain ⟨chars, rest, hcut, -⟩ := exists_cut_cons text [] c
  rw [SourceLine.ofText, hcut, SourceLine.place]

/-- **The line that a character belongs to** has the number of its line and starts as many characters
before it as its column says. -/
theorem exists_lineAt? (h : position < text.length) : ∃ l i, lineAt? text position = some (l, i) ∧
    l.offset ≤ position ∧ position < l.stop ∧
    lineColumn text position = ⟨i + 1, position - l.offset + 1⟩ := by
  obtain ⟨l, i, hlast, hlt, hcolumn⟩ := exists_lastFrom text [] 0 0 position h
  have hsum : 0 + ([] : List Char).length + position = position := by simp
  rw [hsum] at hlast hlt hcolumn
  refine ⟨l, i, ?_, (lastFrom_zero_eq_some hlast).2, hlt, hcolumn⟩
  rw [lineAt?, if_neg (by omega), ofText_of_ne_nil (List.ne_nil_of_length_pos (by omega))]
  exact hlast

theorem lineAt?_eq_some (h : lineAt? text position = some (l, i)) :
    position ≤ text.length ∧ (SourceLine.ofText text)[i]? = some l ∧ l.offset ≤ position := by
  unfold lineAt? at h
  split_ifs at h with hposition
  exact ⟨by omega, lastFrom_zero_eq_some h⟩

/-- **No two characters have the same place.** -/
theorem lineColumn_injective {j : Nat} (hi : i < text.length) (hj : j < text.length)
    (h : lineColumn text i = lineColumn text j) : i = j := by
  obtain ⟨l, a, hl, hle, -, hplace⟩ := exists_lineAt? hi
  obtain ⟨m, b, hm, hle', -, hplace'⟩ := exists_lineAt? hj
  rw [hplace, hplace', LineColumn.mk.injEq, Nat.add_right_cancel_iff] at h
  obtain ⟨rfl, hcolumn⟩ := h
  have hline : some l = some m := (lineAt?_eq_some hl).2.1.symm.trans (lineAt?_eq_some hm).2.1
  cases hline
  omega

end SyntaxForest.Report
