import SyntaxForest.Proofs.Reports
import Mathlib.Data.String.Basic

/-! # Where a report points

The span of a failure is a range of bytes, and the offsets of the report that is asked for it count
characters. A report points at a part of the source text if its heading names the line and the column
of the part's first character, and its label marks the characters of the part (`PointsAt`).

So a report points at the characters that have the numbers of the bytes (`pointsAt_of_span`), and at the
part that its span is about if every character up to the end of that part takes up one byte, and in
general not otherwise (`pointsAt_span_iff`). That holds for every library that draws reports and counts
characters. -/

namespace SyntaxForest

namespace Report

/-! ### Bytes and characters -/

theorem length_le_utf8Len (cs : List Char) : cs.length ≤ String.utf8Len cs := by
  induction cs with
  | nil => exact Nat.le_refl 0
  | cons c cs ih =>
    rw [String.utf8Len_cons, List.length_cons]
    exact Nat.add_le_add ih c.utf8Size_pos

theorem utf8Len_eq_length_iff (cs : List Char) :
    String.utf8Len cs = cs.length ↔ ∀ c ∈ cs, c.toNat < 128 := by
  induction cs with
  | nil => simp
  | cons c cs ih =>
    have hone : c.utf8Size = 1 ↔ c.toNat < 128 := by
      rw [Char.utf8Size_eq_one_iff, UInt32.le_iff_toNat_le]
      exact Nat.lt_succ_iff.symm
    rw [List.forall_mem_cons, ← ih, ← hone, String.utf8Len_cons, List.length_cons]
    have := length_le_utf8Len cs
    have := c.utf8Size_pos
    omega

/-- The range of the bytes of a part is the range of its characters if there are only characters of
one byte up to its end. -/
theorem byteRange_eq_iff (before part : String) :
    (⟨before.utf8ByteSize, (before ++ part).utf8ByteSize⟩ : Span) =
        ⟨before.toList.length, (before.toList ++ part.toList).length⟩ ↔
      ∀ c ∈ (before ++ part).toList, c.toNat < 128 := by
  rw [Span.mk.injEq, ← String.utf8Len_toList, ← String.utf8Len_toList, ← String.toList_append,
    utf8Len_eq_length_iff, utf8Len_eq_length_iff, String.toList_append]
  exact ⟨And.right, fun h => ⟨fun c hc => h c (List.mem_append_left _ hc), h⟩⟩

end Report

/-! ### Pointing at a part of the source text -/

namespace ConversionError

open Report

variable {library : Library} {e : ConversionError} {source : String} {span : Span}

/-- **The report points at a part of the source text**: the heading names the line and the column of
the part's first character, as the plain text says, and the label marks the characters of the part. -/
def PointsAt (library : Library) (e : ConversionError) (source : String) (position : Nat)
    (part : List Char) : Prop :=
  ∃ picture, e.picture library source false = .ok picture ∧
    picture.heading? = some (library.place source position) ∧
    Says picture.text (sourceId ++ ":" ++ (library.place source position).written) ∧
    picture.marked = part

/-- The report of a failure with a span that is not empty and ends within the text points at the
characters that have the numbers of the span's bytes. -/
theorem pointsAt_of_span (hdraws : library.Draws) (hcounts : library.CountsCharacters)
    (hspan : e.span? = some span) (hlt : span.start < span.stop) (hstop : span.stop ≤ source.length) :
    PointsAt library e source span.start
      ((source.toList.take span.stop).drop span.start) := by
  have hbytes : source.length ≤ source.utf8ByteSize := by
    rw [← String.length_toList, ← String.utf8Len_toList]
    exact length_le_utf8Len source.toList
  have hwithin : (request e.diagnostic span (library.colour 1) false).Within source :=
    ⟨rfl, rfl, hlt, hstop⟩
  obtain ⟨picture, hpicture⟩ :=
    hdraws.answers (request e.diagnostic span (library.colour 1) false) source hlt.le
  have hheading := hcounts.heading hwithin hpicture
  have hplain : (request e.diagnostic span (library.colour 1) false).config.coloured = false := rfl
  have hwritten := hcounts.written hplain hpicture hheading
  refine ⟨picture, ?_, hheading, hwritten, hcounts.marked hwithin hpicture⟩
  rw [picture_of_within hspan (hstop.trans hbytes), hdraws.label_of_le hlt.le]
  exact hpicture

/-- **A report counts characters where its span counts bytes**: among the spans whose end, taken as a
number of characters, is within the text, those that point at a part are the ranges of the numbers of
its characters. -/
theorem pointsAt_iff (hdraws : library.Draws) (hcounts : library.CountsCharacters)
    {before part after : List Char} (hpart : part ≠ [])
    (htext : source.toList = before ++ part ++ after)
    (hspan : e.span? = some span) (hlt : span.start < span.stop) (hstop : span.stop ≤ source.length) :
    PointsAt library e source before.length part ↔
      span = ⟨before.length, (before ++ part).length⟩ := by
  have hpos : 0 < part.length := List.length_pos_of_ne_nil hpart
  have hlength : source.length = (before ++ part).length + after.length := by
    rw [← String.length_toList, htext]
    exact List.length_append
  have hpoints := pointsAt_of_span hdraws hcounts hspan hlt hstop
  constructor
  · obtain ⟨picture, hpicture, hheading, -, hmarked⟩ := hpoints
    rintro ⟨picture', hpicture', hheading', -, hmarked'⟩
    obtain rfl : picture = picture' := Except.ok.inj (hpicture.symm.trans hpicture')
    rw [List.length_append] at hlength
    -- two characters with the same place are the same
    have hstart : span.start = before.length :=
      hcounts.place_injective source (by omega) (by omega)
        (Option.some.inj (hheading.symm.trans hheading'))
    -- as many characters are marked as the span is long, so its end is fixed by its start
    have hcount := congrArg List.length (hmarked.symm.trans hmarked')
    rw [List.length_drop, List.length_take, String.length_toList] at hcount
    obtain ⟨start, stop⟩ := span
    simp only [Span.mk.injEq, List.length_append] at hstart hstop hcount ⊢
    omega
  · rintro rfl
    rwa [htext, List.take_left, List.drop_left] at hpoints

/-- **A report points at the bytes of its span if they are characters of one byte, and so are all
before them**, and otherwise it does not, where the end of the span, taken as a number of characters,
is within the text. The span goes from where `before` ends to where `part` ends. -/
theorem pointsAt_span_iff (hdraws : library.Draws) (hcounts : library.CountsCharacters)
    (e : ConversionError) {before part after : String} (hpart : part ≠ "")
    (hspan : e.span? = some ⟨before.utf8ByteSize, (before ++ part).utf8ByteSize⟩) :
    ((∀ c ∈ (before ++ part).toList, c.toNat < 128) →
      PointsAt library e (before ++ part ++ after) before.length part.toList) ∧
    ((before ++ part).utf8ByteSize ≤ (before ++ part ++ after).length →
      PointsAt library e (before ++ part ++ after) before.length part.toList →
      ∀ c ∈ (before ++ part).toList, c.toNat < 128) := by
  have htext : (before ++ part ++ after).toList = before.toList ++ part.toList ++ after.toList := by
    rw [String.toList_append, String.toList_append]
  have hpart' : part.toList ≠ [] := mt String.toList_eq_nil_iff.mp hpart
  have hlt : before.utf8ByteSize < (before ++ part).utf8ByteSize := by
    have := length_le_utf8Len part.toList
    have := List.length_pos_of_ne_nil hpart'
    rw [String.utf8ByteSize_append, ← String.utf8Len_toList part]
    omega
  have hpoints : (before ++ part).utf8ByteSize ≤ (before ++ part ++ after).length →
      (PointsAt library e (before ++ part ++ after) before.length part.toList ↔
        ∀ c ∈ (before ++ part).toList, c.toNat < 128) := fun hstop => by
    rw [← byteRange_eq_iff, ← String.length_toList]
    exact pointsAt_iff hdraws hcounts hpart' htext hspan hlt hstop
  refine ⟨fun hascii => (hpoints ?_).mpr hascii, fun hstop => (hpoints hstop).mp⟩
  rw [← String.utf8Len_toList, (utf8Len_eq_length_iff _).mpr hascii, String.length_toList,
    String.length_append (t := after)]
  exact Nat.le_add_right _ _

/-- A character on the second line of a text of one-byte characters. -/
theorem pointsAt_span_on_second_line :
    boxes.Draws ∧ boxes.CountsCharacters ∧
      PointsAt boxes (.tooDeep 3 (some ⟨3, 4⟩)) ("a;\n" ++ "x" ++ " + y") "a;\n".length "x".toList :=
  ⟨boxes_draws, boxes_countsCharacters,
    (pointsAt_span_iff boxes_draws boxes_countsCharacters (.tooDeep 3 (some ⟨3, 4⟩)) (by decide)
      rfl).1 (by simp)⟩

/-- Behind a character of two bytes the report points at the character after the one that the span is
about. -/
theorem pointsAt_character_behind_span :
    "é + ".utf8ByteSize = 5 ∧ "é + x".utf8ByteSize = 6 ∧
      ¬ PointsAt boxes (.tooDeep 3 (some ⟨5, 6⟩)) "é + x + y" "é + ".length "x".toList ∧
      PointsAt boxes (.tooDeep 3 (some ⟨5, 6⟩)) "é + x + y" "é + x".length " ".toList := by
  have hblank : ("é + x + y".toList.take 6).drop 5 = " ".toList := by decide
  have hbehind : "é + x".length = 5 := by decide
  have hspan : ConversionError.span? (.tooDeep 3 (some ⟨5, 6⟩)) = some ⟨5, 6⟩ := rfl
  refine ⟨by decide, by decide, ?_, ?_⟩
  · rintro ⟨picture, hpicture, hheading, -⟩
    cases hpicture
    exact absurd hheading (by decide)
  · rw [hbehind, ← hblank]
    exact pointsAt_of_span boxes_draws boxes_countsCharacters hspan (by decide) (by decide)

end ConversionError

end SyntaxForest
