import SyntaxForest.Proofs.Columns
import SyntaxForest.Report.Render

/-! # What is taken for granted of a report library

What is proved about reports holds for every library of which two things are known. It refuses a label
exactly for a span that starts after it ends, and it draws all other reports, with their messages in
the text (`Library.Draws`). And it places a report and its label at the characters that the offsets
count, when they count characters (`Library.CountsCharacters`).

Both are known of the library that draws boxes (`boxes_draws`, `boxes_countsCharacters`). Of the
characters of a line it draws those that are marked, and no others, in the colour of the label
(`Label.filter_text`). -/

namespace SyntaxForest.Report

/-- A text says a message if it contains it. -/
def Says (text message : String) : Prop := ∃ before after, text = before ++ message ++ after

theorem Says.append {text message : String} (h : Says text message) (rest : String) :
    Says (text ++ rest) message := by
  obtain ⟨before, after, rfl⟩ := h
  exact ⟨before, after ++ rest, by rw [String.append_assoc]⟩

theorem Says.prepend {text message : String} (h : Says text message) (start : String) :
    Says (start ++ text) message := by
  obtain ⟨before, after, rfl⟩ := h
  exact ⟨start ++ before, after, by rw [String.append_assoc, String.append_assoc,
    String.append_assoc]⟩

/-- **A library that draws reports.** -/
structure Library.Draws (library : Library) : Prop where
  /-- A label is refused for the spans that start after they end, and for no others. -/
  label_refused_iff : ∀ span, (∃ p, library.label span = .error p) ↔ span.stop < span.start
  /-- A report with a label that is not refused is drawn. -/
  answers : ∀ r source, r.label.span.start ≤ r.label.span.stop →
    ∃ picture, library.draw r source = .ok picture
  /-- What is drawn says the message of the report. -/
  titled : ∀ r source picture, library.draw r source = .ok picture → Says picture.text r.message

theorem Library.Draws.label_of_le {library : Library} {span : Span} (hdraws : library.Draws)
    (h : span.start ≤ span.stop) : library.label span = .ok () := by
  cases hlabel : library.label span with
  | error p => exact absurd ((hdraws.label_refused_iff span).mp ⟨p, hlabel⟩) (Nat.not_lt.mpr h)
  | ok _ => rfl

/-- The report is about a part of the source text: offsets count characters, the label marks some of
them, all within the text, and the report is placed where its label is. -/
structure Request.Within (r : Request) (source : String) : Prop where
  unit : r.config.unit = .characters
  position : r.position = r.label.span
  start_lt_stop : r.label.span.start < r.label.span.stop
  stop_le : r.label.span.stop ≤ source.length

/-- The line and the column as they are written. -/
def LineColumn.written (place : LineColumn) : String :=
  toString place.line ++ ":" ++ toString place.column

/-- **A library that places reports at the characters that their offsets count.** -/
structure Library.CountsCharacters (library : Library) : Prop where
  /-- No two characters of a text have the same line and column. -/
  place_injective : ∀ (source : String) {i j : Nat}, i < source.length → j < source.length →
    library.place source i = library.place source j → i = j
  /-- The heading names the place of the first character of the label. -/
  heading : ∀ {r source picture}, r.Within source → library.draw r source = .ok picture →
    picture.heading? = some (library.place source r.label.span.start)
  /-- The place that the heading names is written in the plain text, behind the name of the source. -/
  written : ∀ {r source picture place}, r.config.coloured = false →
    library.draw r source = .ok picture → picture.heading? = some place →
    Says picture.text (r.sourceName ++ ":" ++ place.written)
  /-- The label marks the characters of its span. -/
  marked : ∀ {r source picture}, r.Within source → library.draw r source = .ok picture →
    picture.marked = (source.toList.take r.label.span.stop).drop r.label.span.start

/-! ### Writing pieces one after another -/

@[simp] theorem Drawing.write_nil (coloured : Bool) : Drawing.write coloured [] = "" := rfl

theorem Drawing.foldl_write (coloured : Bool) (d : Drawing) : ∀ text : String,
    d.foldl (fun text p => text ++ p.write coloured) text = text ++ d.write coloured := by
  induction d with
  | nil => intro text; simp
  | cons p d ih =>
    intro text
    rw [Drawing.write, List.foldl_cons, List.foldl_cons, ih, ih ("" ++ p.write coloured),
      String.empty_append, String.append_assoc]

@[simp] theorem Drawing.write_cons (coloured : Bool) (p : Piece) (d : Drawing) :
    Drawing.write coloured (p :: d) = p.write coloured ++ d.write coloured := by
  rw [Drawing.write, List.foldl_cons, String.empty_append, Drawing.foldl_write]

@[simp] theorem Drawing.write_append (coloured : Bool) (d e : Drawing) :
    Drawing.write coloured (d ++ e) = d.write coloured ++ e.write coloured := by
  rw [Drawing.write, List.foldl_append, Drawing.foldl_write]
  rfl

@[simp] theorem Piece.write_plain (coloured : Bool) (text : String) :
    (Piece.plain text).write coloured = text := by
  cases coloured <;> rfl

@[simp] theorem Piece.write_false (p : Piece) : p.write false = p.text := rfl

/-! ### Boxes -/

theorem write_title (r : Request) (coloured : Bool) : (title r).write coloured =
    Piece.write coloured ⟨some .red, kind r⟩ ++ " " ++ r.message ++ "\n" := by
  simp [title, Piece.newLine, String.append_assoc]

/-- **The library that draws boxes draws reports.** -/
theorem boxes_draws : boxes.Draws where
  label_refused_iff span := by
    simp only [boxes]
    split_ifs with h
    · exact iff_of_true ⟨_, rfl⟩ h
    · refine iff_of_false ?_ h
      rintro ⟨p, hp⟩
      cases hp
  answers _ _ _ := ⟨_, rfl⟩
  titled r source picture h := by
    cases h
    show Says ((drawing r source.toList).write r.config.coloured) r.message
    rw [drawing, Drawing.write_append]
    exact Says.append ⟨_, "\n", write_title r r.config.coloured⟩ _

namespace Label

variable {l : Label} {text : List Char} {a : Annotation}

theorem filter_covers (l : Label) (text : List Char) : ∀ n,
    ((text.zipIdx n).filter fun entry => l.covers entry.2).map Prod.fst =
      (text.take (l.span.stop - n)).drop (l.span.start - n) := by
  induction text with
  | nil => simp
  | cons c text ih =>
    intro n
    rw [List.zipIdx_cons]
    by_cases hcovers : l.covers n = true
    · rw [List.filter_cons_of_pos (a := (c, n)) hcovers, List.map_cons, ih]
      simp only [covers, Bool.and_eq_true, decide_eq_true_eq] at hcovers
      have htake : l.span.stop - n = l.span.stop - (n + 1) + 1 := by omega
      have hdrop : l.span.start - n = 0 ∧ l.span.start - (n + 1) = 0 := by omega
      rw [htake, hdrop.1, hdrop.2, List.take_succ_cons, List.drop_zero, List.drop_zero]
    · rw [List.filter_cons_of_neg (a := (c, n)) hcovers, ih]
      simp only [covers, Bool.and_eq_true, decide_eq_true_eq, not_and, Nat.not_lt] at hcovers
      by_cases hstart : l.span.start ≤ n
      · have hnone : l.span.stop - n = 0 ∧ l.span.stop - (n + 1) = 0 := by omega
        simp [hnone]
      · rcases Nat.lt_or_ge n l.span.stop with hstop | hstop
        · have htake : l.span.stop - n = l.span.stop - (n + 1) + 1 := by omega
          have hdrop : l.span.start - n = l.span.start - (n + 1) + 1 := by omega
          rw [htake, hdrop, List.take_succ_cons, List.drop_succ_cons]
        · have hnone : l.span.stop - n = 0 ∧ l.span.stop - (n + 1) = 0 := by omega
          simp [hnone]

/-- **A label whose span is within the text** is headed with the place of its first character and
marks its characters. -/
theorem exists_of? (hlt : a.span.start < a.span.stop) (hstop : a.span.stop ≤ text.length) :
    ∃ l, of? text a = some l ∧ l.place = lineColumn text a.span.start ∧
      l.marked text = (text.take a.span.stop).drop a.span.start := by
  have hstart : a.span.start < text.length := by omega
  have hbehind : a.span.stop - 1 < text.length := by omega
  obtain ⟨first, i, hfirst, -, -, hplace⟩ := exists_lineAt? hstart
  obtain ⟨last, j, hlast, -, hend, -⟩ := exists_lineAt? hbehind
  refine ⟨⟨a, i, first, j, last⟩, by simp [of?, hfirst, hlast, hlt], hplace.symm, ?_⟩
  rw [marked, if_pos ?_]
  · exact filter_covers ⟨a, i, first, j, last⟩ text 0
  · by_cases hsame : i = j
    · subst hsame
      have hline : some first = some last :=
        (lineAt?_eq_some hfirst).2.1.symm.trans (lineAt?_eq_some hlast).2.1
      cases hline
      have hle : a.span.stop ≤ first.stop := by omega
      simpa [isWhole, isSingleLine] using hle
    · simpa [isWhole, isSingleLine, hsame, endsInLast] using hend

end Label

theorem Label.says_header (l : Label) (sourceName : String) :
    Says ((l.header sourceName).write false) (sourceName ++ ":" ++ l.place.written) := by
  refine ⟨String.ofList (List.replicate (l.numberWidth + 2) ' ') ++ "╭" ++ "─" ++ "[" ++ " ",
    " " ++ "]" ++ "\n" ++ String.ofList (List.replicate (l.numberWidth + 2) ' ') ++ "│" ++ "\n", ?_⟩
  simp only [header, LineColumn.written, Drawing.write_cons, Drawing.write_nil, Piece.write_false,
    Piece.spaces, Piece.newLine, Piece.painted, Piece.plain, String.append_assoc,
    String.append_empty]

/-- The heading of a box stands below the title. -/
theorem boxes_written {r : Request} {source : String} {picture : Picture} {place : LineColumn}
    (hplain : r.config.coloured = false) (h : boxes.draw r source = .ok picture)
    (hplace : picture.heading? = some place) :
    Says picture.text (r.sourceName ++ ":" ++ place.written) := by
  cases h
  obtain ⟨l, hl, rfl⟩ := Option.map_eq_some_iff.mp hplace
  show Says ((drawing r source.toList).write r.config.coloured) _
  rw [drawing, hl, hplain, Option.map_some, Option.getD_some, box, Drawing.write_append,
    Drawing.write_append, Drawing.write_append, Drawing.write_append]
  have hheader := l.says_header r.sourceName
  exact Says.prepend (((hheader.append _).append _).append _) _

/-- **The library that draws boxes counts characters.** -/
theorem boxes_countsCharacters : boxes.CountsCharacters where
  place_injective source _ _ hi hj := by
    rw [← String.length_toList] at hi hj
    exact lineColumn_injective hi hj
  heading {r source picture} hr h := by
    obtain ⟨l, hl, hplace, -⟩ :=
      Label.exists_of? hr.start_lt_stop (by rw [String.length_toList]; exact hr.stop_le)
    cases h
    show (Label.of? source.toList r.label).map Label.place = _
    rw [hl, Option.map_some, hplace]
    rfl
  written := boxes_written
  marked {r source picture} hr h := by
    obtain ⟨l, hl, -, hmarked⟩ :=
      Label.exists_of? hr.start_lt_stop (by rw [String.length_toList]; exact hr.stop_le)
    cases h
    show ((Label.of? source.toList r.label).map _).getD [] = _
    rw [hl, Option.map_some, Option.getD_some, hmarked]

/-- **The marked characters are drawn in the colour of the label**, which is not that of the text. -/
theorem Label.filter_text {l : Label} (hcolour : l.colour ≠ textColour) (line : SourceLine) :
    (l.text line).filter (fun p => p.paint? = some (.indexed l.colour)) =
      (line.visible.zipIdx.filter fun entry => l.covers (line.offset + entry.2)).flatMap
        fun entry => (glyphsAt entry.2 entry.1).map l.mark := by
  unfold text
  induction line.visible.zipIdx with
  | nil => rfl
  | cons entry entries ih =>
    obtain ⟨c, index⟩ := entry
    rw [List.flatMap_cons, List.filter_append, ih]
    by_cases hcovers : l.covers (line.offset + index) = true
    · have hall : ((glyphsAt index c).map (Piece.painted l.colour)).filter
          (fun p => p.paint? = some (.indexed l.colour)) = (glyphsAt index c).map l.mark :=
        List.filter_eq_self.mpr (by simp [Piece.painted])
      simpa [hcovers] using hall
    · simp [hcovers, Piece.painted, hcolour.symm]

end SyntaxForest.Report
