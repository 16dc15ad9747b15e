import SyntaxForest.Proofs.SourceText

/-! # String literals can be read back

A reader of string literals goes from the opening quote to the closing one, and a backslash takes the
next character with it (`Literal.scan?`). What stands between the quotes is then read by itself: each
of the five escapes means one character, and a character other than the backslash means itself
(`Literal.unescape?`).

* `scan?_quote`: a literal ends at its own closing quote, whatever comes after it;
* `unescape?_body`: what stands between the quotes means the text of the literal;
* `literal_read_back`: so the literals of a source text can be read back. -/

namespace SyntaxForest

namespace Literal

/-! ### Reading a literal -/

/-- What stands before the closing quote, and what comes after it. -/
def close? : List Char → Option (List Char × List Char)
  | [] => none
  | '"' :: cs => some ([], cs)
  | '\\' :: c :: cs => (close? cs).map (Prod.map (['\\', c] ++ ·) id)
  | c :: cs => (close? cs).map (Prod.map ([c] ++ ·) id)

/-- What stands between the quotes of the literal that a text starts with, and what comes after the
literal. -/
def scan? : List Char → Option (List Char × List Char)
  | '"' :: cs => close? cs
  | _ => none

/-- The character that an escape means, by the letter after its backslash. -/
def escaped? : Char → Option Char
  | '"' => some '"'
  | '\\' => some '\\'
  | 'n' => some '\n'
  | 'r' => some '\r'
  | 't' => some '\t'
  | _ => none

/-- What the characters between the quotes mean; nothing if a backslash starts none of the escapes. -/
def unescape? : List Char → Option (List Char)
  | [] => some []
  | ['\\'] => none
  | '\\' :: letter :: cs => (escaped? letter).bind fun c => (unescape? cs).map (c :: ·)
  | c :: cs => (unescape? cs).map (c :: ·)

/-! ### Literals that were written -/

variable (text rest : List Char) (c : Char)

theorem escape_cases : (∃ letter, escape c = ['\\', letter] ∧ escaped? letter = some c) ∨
    escape c = [c] ∧ c ∉ ['"', '\\', '\n', '\r', '\t'] := by
  unfold escape
  split
  · exact .inl ⟨_, rfl, rfl⟩
  · exact .inl ⟨_, rfl, rfl⟩
  · exact .inl ⟨_, rfl, rfl⟩
  · exact .inl ⟨_, rfl, rfl⟩
  · exact .inl ⟨_, rfl, rfl⟩
  · exact .inr ⟨rfl, by simp_all⟩

/-- The closing quote is looked for behind all that a character is written as. -/
theorem close?_escape :
    close? (escape c ++ rest) = (close? rest).map (Prod.map (escape c ++ ·) id) := by
  obtain ⟨letter, hc, -⟩ | ⟨hc, hplain⟩ := escape_cases c
  · rw [hc]
    rfl
  · simp only [List.mem_cons, not_or] at hplain
    rw [hc]
    simp [close?, hplain]

theorem close?_body : close? (body text ++ '"' :: rest) = some (body text, rest) := by
  induction text with
  | nil => rfl
  | cons c text ih =>
    have hbody : body (c :: text) = escape c ++ body text := rfl
    rw [hbody, List.append_assoc, close?_escape, ih]
    rfl

/-- **A literal ends at its own closing quote**, whatever comes after it. -/
theorem scan?_quote : scan? (quote text ++ rest) = some (body text, rest) := by
  have hquote : quote text ++ rest = '"' :: (body text ++ '"' :: rest) := by simp [quote]
  rw [hquote, scan?, close?_body]

theorem unescape?_escape : unescape? (escape c ++ rest) = (unescape? rest).map (c :: ·) := by
  obtain ⟨letter, hc, hletter⟩ | ⟨hc, hplain⟩ := escape_cases c
  · rw [hc]
    simp [unescape?, hletter]
  · simp only [List.mem_cons, not_or] at hplain
    rw [hc]
    simp [unescape?, hplain]

/-- **What stands between the quotes means the text.** -/
theorem unescape?_body : unescape? (body text) = some text := by
  induction text with
  | nil => rfl
  | cons c text ih =>
    have hbody : body (c :: text) = escape c ++ body text := rfl
    rw [hbody, unescape?_escape, ih]
    rfl

theorem not_mem_quote {d : Char} (hd : d ∈ ['\n', '\r', '\t']) : d ∉ quote text := by
  obtain ⟨hletter, hmark⟩ : escaped? d = none ∧ d ∉ ['"', '\\'] := by
    simp only [List.mem_cons, List.not_mem_nil, or_false] at hd
    obtain rfl | rfl | rfl := hd <;> decide
  simp only [List.mem_cons, List.not_mem_nil, or_false, not_or] at hmark
  have hescape : ∀ c, d ∉ escape c := fun c hmem => by
    obtain ⟨letter, hc, hmeans⟩ | ⟨hc, hplain⟩ := escape_cases c
    · obtain rfl : d = letter := by simpa [hc, hmark] using hmem
      rw [hletter] at hmeans
      cases hmeans
    · obtain rfl : d = c := by simpa [hc] using hmem
      exact hplain (List.mem_append_right ['"', '\\'] hd)
  have hbody : d ∉ body text := by
    rw [body, List.mem_flatMap]
    rintro ⟨c, -, hc⟩
    exact hescape c hc
  simp [quote, hbody, hmark]

end Literal

namespace Forest

variable {f : Forest} {h : Handle} {text : String}

theorem fragment_of_string (hh : f.payload h = .ok (.string text)) :
    f.fragment h = .ok (.expression (.string text)) := by
  obtain ⟨l, hl, hp⟩ := payload_eq_ok.mp hh
  have hnode : f.node h = .ok l.node := node_eq_ok.mpr ⟨l, hl, rfl⟩
  have hkind : f.kind h = .ok .string := kind_eq_ok.mpr ⟨l, hl, congrArg Payload.kind hp⟩
  obtain ⟨n, hn⟩ : ∃ n, f.entries.size = n + 1 := by
    obtain ⟨e, he, -⟩ := live?_eq_some.mp hl
    have hlt := (Array.getElem?_eq_some_iff.mp he).1
    exact ⟨f.entries.size - 1, by omega⟩
  have hread : f.expressionWithin (n + 1) h = .ok (.string text) :=
    Except.bind_eq_ok.mpr ⟨l.node, hnode, by rw [hp]; rfl⟩
  exact Except.bind_eq_ok.mpr ⟨.string, hkind, Except.bind_eq_ok.mpr ⟨_, hn ▸ hread, rfl⟩⟩

/-- **A string literal can be read back** from any source text that it stands in. The reader finds the
closing quote at the end of the literal whatever comes after it, there is no line feed, carriage
return or tab in the literal, and what stands between the quotes means the text of the string. So a
literal says which string it is and where it ends. In every forest that a run reaches, the source text
of a string is its literal. -/
theorem literal_read_back (text : String) :
    ∃ between, (Expression.string text).text = '"' :: between ++ ['"'] ∧
      (∀ rest, Literal.scan? ((Expression.string text).text ++ rest) = some (between, rest)) ∧
      (∀ c ∈ (Expression.string text).text, c ∉ ['\n', '\r', '\t']) ∧
      Literal.unescape? between = some text.toList ∧
      (∀ other rest rest', (Expression.string text).text ++ rest =
        (Expression.string other).text ++ rest' → text = other ∧ rest = rest') ∧
      ∀ steps h, (empty.run steps).payload h = .ok (.string text) →
        (empty.run steps).sourceText h = .ok (String.ofList (Expression.string text).text) := by
  have hscan (text : String) (rest : List Char) :
      Literal.scan? ((Expression.string text).text ++ rest) =
        some (Literal.body text.toList, rest) := by
    rw [Expression.text]
    exact Literal.scan?_quote text.toList rest
  refine ⟨Literal.body text.toList, by rw [Expression.text]; rfl, hscan text, fun c hc hmem => ?_,
    Literal.unescape?_body text.toList, fun other rest rest' h => ?_, fun steps h hh => ?_⟩
  · rw [Expression.text] at hc
    exact Literal.not_mem_quote text.toList hmem hc
  · have hsame := hscan text rest
    rw [h, hscan other rest', Option.some.injEq, Prod.mk.injEq] at hsame
    have hbody := Literal.unescape?_body text.toList
    rw [← hsame.1, Literal.unescape?_body, Option.some.injEq] at hbody
    exact ⟨String.toList_injective hbody.symm, hsame.2.symm⟩
  · exact sourceText_eq_ok (fragment_of_string hh)

/-- A double quote and a backslash. -/
theorem literal_read_back_marks : ∃ between,
    (∀ rest, Literal.scan? (['"', '\\', '"', '\\', '\\', '"'] ++ rest) = some (between, rest)) ∧
    Literal.unescape? between = some ['"', '\\'] ∧
    (empty.run [.operate (.string "\"\\")]).sourceText ⟨0, 0⟩ = .ok "\"\\\"\\\\\"" := by
  obtain ⟨between, -, hscan, -, hread, -, hsource⟩ := literal_read_back "\"\\"
  have htext : (Expression.string "\"\\").text = ['"', '\\', '"', '\\', '\\', '"'] := by
    rw [Expression.text]; rfl
  rw [htext] at hscan hsource
  exact ⟨between, hscan, hread, hsource [.operate (.string "\"\\")] ⟨0, 0⟩ rfl⟩

end Forest

end SyntaxForest
