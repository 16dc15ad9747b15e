import SyntaxForest.Proofs.Libraries

/-! # When a failure can be reported

A report says the message of its failure, with its place in the source text or without. There is a
report unless the span of the failure starts after it ends and ends within the text: such a span is
not kept back by the comparison of its end with the length of the text, and the library makes no
label for it (`render_says_message_iff`). That holds for every library that draws reports; reports
without a place need none (`renderBy_of_unplaced`). -/

namespace SyntaxForest.ConversionError

open Report

variable {library : Library} {e : ConversionError} {source : String} {span : Span}

/-- The span of the failure ends within the source text and starts after its end. -/
def IsReversedWithin (e : ConversionError) (source : String) : Prop :=
  ∃ span, e.span? = some span ∧ span.stop ≤ source.utf8ByteSize ∧ span.stop < span.start

theorem says_unplaced (d : Diagnostic) : Says (unplaced d) d.message := by
  unfold unplaced
  exact Says.append ⟨"Error: ", "\n", rfl⟩ _

/-- A failure without a span within the text is reported by its message and its hint, whatever the
library is. -/
theorem renderBy_of_unplaced (h : ∀ span, e.span? = some span → source.utf8ByteSize < span.stop)
    (library : Library) (coloured : Bool) :
    e.renderBy library source coloured = .ok (unplaced e.diagnostic) := by
  have hfilter : e.span?.filter (fun span => span.stop ≤ source.utf8ByteSize) = none := by
    rw [Option.filter_eq_none_iff]
    intro span hspan
    simpa using h span hspan
  rw [renderBy, picture, hfilter]
  rfl

theorem picture_of_within (hspan : e.span? = some span) (hstop : span.stop ≤ source.utf8ByteSize)
    (library : Library) (coloured : Bool) : e.picture library source coloured =
      (library.label span >>= fun _ =>
        library.draw (request e.diagnostic span (library.colour 1) coloured) source) := by
  rw [picture, hspan, Option.filter_some, if_pos (decide_eq_true hstop)]

theorem renderBy_of_reversed (hdraws : library.Draws) (h : e.IsReversedWithin source)
    (coloured : Bool) : ∃ p, e.renderBy library source coloured = .error p := by
  obtain ⟨span, hspan, hstop, hlt⟩ := h
  obtain ⟨p, hp⟩ := (hdraws.label_refused_iff span).mpr hlt
  refine ⟨p, ?_⟩
  rw [renderBy, picture_of_within hspan hstop, hp]
  rfl

theorem renderBy_of_not_reversed (hdraws : library.Draws) (h : ¬ e.IsReversedWithin source)
    (coloured : Bool) :
    ∃ text, e.renderBy library source coloured = .ok text ∧ Says text e.diagnostic.message := by
  by_cases hwithin : ∃ span, e.span? = some span ∧ span.stop ≤ source.utf8ByteSize
  · obtain ⟨span, hspan, hstop⟩ := hwithin
    have hle : span.start ≤ span.stop := Nat.not_lt.mp fun hlt => h ⟨span, hspan, hstop, hlt⟩
    obtain ⟨picture, hpicture⟩ :=
      hdraws.answers (request e.diagnostic span (library.colour 1) coloured) source hle
    refine ⟨picture.text, ?_, hdraws.titled _ _ _ hpicture⟩
    rw [renderBy, picture_of_within hspan hstop, hdraws.label_of_le hle]
    simp only [bind, Except.bind, hpicture]
    rfl
  · refine ⟨_, renderBy_of_unplaced (fun span hspan => ?_) library coloured, says_unplaced _⟩
    exact Nat.lt_of_not_le fun hle => hwithin ⟨span, hspan, hle⟩

/-- **There is a report, and it says the message, exactly if the span is not reversed within the
text**: for every failure, source text and kind of output, a span that ends within the text and
starts after its end is what ends the program, and nothing else. -/
theorem render_says_message_iff (hdraws : library.Draws) (e : ConversionError) (source : String)
    (coloured : Bool) :
    ((∃ text, e.renderBy library source coloured = .ok text ∧ Says text e.diagnostic.message) ↔
      ¬ e.IsReversedWithin source) ∧
    ((∃ p, e.renderBy library source coloured = .error p) ↔ e.IsReversedWithin source) := by
  have hreversed : e.IsReversedWithin source →
      ∃ p, e.renderBy library source coloured = .error p :=
    fun h => renderBy_of_reversed hdraws h coloured
  have hsays : ¬ e.IsReversedWithin source → ∃ text,
      e.renderBy library source coloured = .ok text ∧ Says text e.diagnostic.message :=
    fun h => renderBy_of_not_reversed hdraws h coloured
  have hone : ∀ {text p}, e.renderBy library source coloured = .ok text →
      e.renderBy library source coloured ≠ .error p := fun htext hp => by
    rw [htext] at hp
    cases hp
  refine ⟨⟨?_, hsays⟩, ⟨?_, hreversed⟩⟩
  · rintro ⟨text, htext, -⟩ h
    obtain ⟨p, hp⟩ := hreversed h
    exact hone htext hp
  · rintro ⟨p, hp⟩
    by_contra h
    obtain ⟨text, htext, -⟩ := hsays h
    exact hone htext hp

/-- The first character of a text is pointed at; a span from the last one back is not. -/
theorem render_says_message_iff_boxes :
    boxes.Draws ∧
      (∃ text, renderBy boxes (.tooDeep 3 (some ⟨0, 1⟩)) "abc" false = .ok text ∧
        Says text "source tree nests deeper than the maximum of 3 levels") ∧
      ∃ p, renderBy boxes (.tooDeep 3 (some ⟨2, 1⟩)) "abc" false = .error p := by
  refine ⟨boxes_draws, ?_, ?_⟩
  · refine (render_says_message_iff boxes_draws (.tooDeep 3 (some ⟨0, 1⟩)) "abc" false).1.mpr ?_
    rintro ⟨span, hspan, -, hlt⟩
    cases hspan
    exact absurd hlt (by decide)
  · exact (render_says_message_iff boxes_draws (.tooDeep 3 (some ⟨2, 1⟩)) "abc" false).2.mpr
      ⟨⟨2, 1⟩, rfl, by decide, by decide⟩

/-- A span that starts after it ends, within the text, ends the program. -/
theorem render_fails_on_reversed_span :
    ConversionError.span? (.tooDeep 3 (some ⟨2, 1⟩)) = some ⟨2, 1⟩ ∧
      render (.tooDeep 3 (some ⟨2, 1⟩)) "abc" false = .error ⟨"Label start is after its end"⟩ :=
  ⟨rfl, by decide⟩

end SyntaxForest.ConversionError
